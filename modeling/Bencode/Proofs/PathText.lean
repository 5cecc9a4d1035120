import Bencode.Proofs.FirstHole
import Bencode.Proofs.Json.Text
import Bencode.Proofs.Utf8.Order

/-! # A path can be read off its text

Between quotes a character stands for itself or is spelt behind a backslash, by a letter or by its number in
braces. No spelling begins another one and none begins with a quote, whichever characters are spelt by their
number. So a key ends at the first quote that spells nothing, an index at its bracket, and a text is the text
of one path only, as long as lossy decoding changes no key of it.
-/
namespace Bencode

/-- Where the first `a` of a list is at hand, so is what comes before and behind it. -/
theorem eq_of_append_cons_eq {α : Type} {a : α} {s t x y : List α} (hs : a ∉ s) (ht : a ∉ t)
    (h : s ++ a :: x = t ++ a :: y) : s = t ∧ x = y := by
  rcases List.append_eq_append_iff.1 h with ⟨more, rfl, hmore⟩ | ⟨more, rfl, hmore⟩
  · obtain _ | ⟨b, more⟩ := more
    · exact ⟨(List.append_nil s).symm, (List.cons.inj hmore).2⟩
    · rw [(List.cons.inj hmore).1] at ht
      exact absurd List.mem_append_cons_self ht
  · obtain _ | ⟨b, more⟩ := more
    · exact ⟨List.append_nil t, (List.cons.inj hmore).2.symm⟩
    · rw [(List.cons.inj hmore).1] at hs
      exact absurd List.mem_append_cons_self hs

namespace Escape

/-- The letter behind a backslash that stands for a character. -/
def letter? (c : Char) : Option Char :=
  if c = '\x00' then some '0'
  else if c = '\t' then some 't'
  else if c = '\n' then some 'n'
  else if c = '\r' then some 'r'
  else if c = '\x22' ∨ c = '\\' then some c
  else none

/-- A character between double quotes. What has no letter is spelt by its number if it is `hidden`. -/
def quotedCharBy (hidden : Char → Bool) (c : Char) : List Char :=
  match letter? c with
  | some l => ['\\', l]
  | none => if hidden c then ['\\', 'u', '\x7b'] ++ hex c.toNat ++ ['\x7d'] else [c]

theorem quotedChar_eq : quotedChar = quotedCharBy Unprintable.contains := by
  funext c
  unfold quotedChar quotedCharBy letter?
  grind

/-- The number that hexadecimal digits denote. -/
def hexValue (text : List Char) : Nat :=
  text.foldl (fun n c => 16 * n + (Json.hexDigit? c).getD 0) 0

theorem hexValue_append_digit (text : List Char) {n : Nat} (h : n < 16) :
    hexValue (text ++ [hexDigit n]) = 16 * hexValue text + n := by
  rw [hexValue, List.foldl_append, ← hexValue, List.foldl_cons, List.foldl_nil, Json.hexDigit?_hexDigit h,
    Option.getD_some]

theorem hexValue_hex (n : Nat) : hexValue (hex n) = n := by
  induction n using Nat.strongRecOn with
  | ind n ih =>
    rw [hex]
    split
    · next h =>
      have hdigit : hexValue [hexDigit n] = 16 * 0 + n := hexValue_append_digit [] h
      rw [hdigit, Nat.mul_zero, Nat.zero_add]
    · next h =>
      rw [hexValue_append_digit _ (Nat.mod_lt n (by decide)), ih (n / 16) (by omega)]
      omega

theorem brace_notMem_hex (n : Nat) : '\x7d' ∉ hex n := by
  have hdigit : ∀ n < 16, '\x7d' ≠ hexDigit n := by decide
  induction n using Nat.strongRecOn with
  | ind n ih =>
    rw [hex]
    split
    · next h =>
      rw [List.mem_singleton]
      exact hdigit n h
    · next h =>
      rw [List.mem_append, List.mem_singleton, not_or]
      exact ⟨ih (n / 16) (by omega), hdigit _ (Nat.mod_lt n (by decide))⟩

/-- The character that a letter stands for. -/
def ofLetter (l : Char) : Char :=
  if l = '0' then '\x00' else if l = 't' then '\t' else if l = 'n' then '\n' else if l = 'r' then '\r' else l

theorem ofLetter_of_letter? {c l : Char} (h : letter? c = some l) : ofLetter l = c ∧ l ≠ 'u' := by
  unfold letter? at h
  unfold ofLetter
  repeat' split at h
  all_goals grind

/-- The ways to write a character between double quotes. -/
inductive Spells : List Char → Char → Prop where
  | letter {c l : Char} (h : letter? c = some l) : Spells ['\\', l] c
  | number (c : Char) : Spells (['\\', 'u', '\x7b'] ++ hex c.toNat ++ ['\x7d']) c
  | plain {c : Char} (h : letter? c = none) : Spells [c] c

theorem spells_quotedCharBy (hidden : Char → Bool) (c : Char) : Spells (quotedCharBy hidden c) c := by
  unfold quotedCharBy
  cases h : letter? c with
  | some l => exact .letter h
  | none =>
    cases hidden c with
    | true => exact .number c
    | false => exact .plain h

/-- A spelling is recognised whatever comes next. -/
theorem Spells.append_inj {s t x y : List Char} {c d : Char} (hs : Spells s c) (ht : Spells t d)
    (h : s ++ x = t ++ y) : c = d ∧ x = y := by
  have hplain {c : Char} (hc : letter? c = none) : c ≠ '\\' := by
    rintro rfl
    cases hc
  cases hs with
  | letter hc =>
    cases ht with
    | letter hd =>
      simp only [List.cons_append, List.nil_append, List.cons.injEq, true_and] at h
      obtain ⟨rfl, hxy⟩ := h
      exact ⟨(ofLetter_of_letter? hc).1.symm.trans (ofLetter_of_letter? hd).1, hxy⟩
    | number d =>
      simp only [List.cons_append, List.cons.injEq, true_and] at h
      exact absurd h.1 (ofLetter_of_letter? hc).2
    | plain hd => exact absurd (List.cons.inj h).1.symm (hplain hd)
  | number c =>
    cases ht with
    | letter hd =>
      simp only [List.cons_append, List.cons.injEq, true_and] at h
      exact absurd h.1.symm (ofLetter_of_letter? hd).2
    | number d =>
      simp only [List.cons_append, List.nil_append, List.append_assoc, List.cons.injEq, true_and] at h
      obtain ⟨hhex, hxy⟩ := eq_of_append_cons_eq (brace_notMem_hex _) (brace_notMem_hex _) h
      have hn : c.toNat = d.toNat := by rw [← hexValue_hex c.toNat, hhex, hexValue_hex]
      exact ⟨Char.toNat_inj.1 hn, hxy⟩
    | plain hd => exact absurd (List.cons.inj h).1.symm (hplain hd)
  | plain hc =>
    cases ht with
    | letter hd => exact absurd (List.cons.inj h).1 (hplain hc)
    | number d => exact absurd (List.cons.inj h).1 (hplain hc)
    | plain hd => exact List.cons.inj h

theorem Spells.append_ne_quote {s x y : List Char} {c : Char} (h : Spells s c) :
    s ++ x ≠ '\x22' :: y := by
  intro hq
  cases h with
  | letter hc => exact absurd (List.cons.inj hq).1 (by decide)
  | number c => exact absurd (List.cons.inj hq).1 (by decide)
  | plain hc =>
    rw [(List.cons.inj hq).1] at hc
    cases hc

/-- A quoted text ends at the first quote that spells nothing. -/
theorem flatMap_quotedCharBy_append_inj {hidden : Char → Bool} {cs ds x y : List Char}
    (h : cs.flatMap (quotedCharBy hidden) ++ '\x22' :: x =
      ds.flatMap (quotedCharBy hidden) ++ '\x22' :: y) : cs = ds ∧ x = y := by
  induction cs generalizing ds with
  | nil =>
    obtain _ | ⟨d, ds⟩ := ds
    · exact ⟨rfl, (List.cons.inj h).2⟩
    · rw [List.flatMap_cons, List.append_assoc] at h
      exact absurd h.symm (spells_quotedCharBy hidden d).append_ne_quote
  | cons c cs ih =>
    rw [List.flatMap_cons, List.append_assoc] at h
    obtain _ | ⟨d, ds⟩ := ds
    · exact absurd h (spells_quotedCharBy hidden c).append_ne_quote
    · rw [List.flatMap_cons, List.append_assoc] at h
      obtain ⟨rfl, hrest⟩ :=
        (spells_quotedCharBy hidden c).append_inj (spells_quotedCharBy hidden d) h
      obtain ⟨rfl, hxy⟩ := ih hrest
      exact ⟨rfl, hxy⟩

end Escape

namespace Decimal

theorem text_natCast (i : Nat) : text i = (digits i).map fun b => Char.ofNat b.toNat := by
  rw [text, ofInt, if_neg (by omega), Int.natAbs_natCast]

theorem digitsValue_text (i : Nat) : Json.digitsValue (text i) = i := by
  rw [text_natCast, Json.digitsValue_map_ofNat, value_digits]

theorem isDigit_of_mem_text {i : Nat} {c : Char} (h : c ∈ text i) : c.isDigit = true := by
  rw [text_natCast] at h
  obtain ⟨b, hb, rfl⟩ := List.mem_map.1 h
  exact Json.isDigit_ofNat_byte (isDigit_of_mem_digits hb)

theorem text_append_inj {i j : Nat} {x y : List Char} (h : text i ++ ']' :: x = text j ++ ']' :: y) :
    i = j ∧ x = y := by
  have hnotMem (n : Nat) : ']' ∉ text n := fun hn => absurd (isDigit_of_mem_text hn) (by decide)
  obtain ⟨htext, hxy⟩ := eq_of_append_cons_eq (hnotMem i) (hnotMem j) h
  exact ⟨by rw [← digitsValue_text i, htext, digitsValue_text], hxy⟩

/-- An index is not taken for a key. -/
theorem text_append_ne_quote (i : Nat) (x y : List Char) : text i ++ x ≠ '\x22' :: y := by
  intro h
  obtain ⟨d, ds, hd⟩ := List.exists_cons_of_ne_nil (digits_ne_nil i)
  have hfirst : Char.ofNat d.toNat ∈ text i := by
    rw [text_natCast, hd]
    exact List.mem_cons_self
  rw [text_natCast, hd] at h
  have hquote : Char.ofNat d.toNat = '\x22' := (List.cons.inj h).1
  exact absurd (isDigit_of_mem_text hfirst) (by rw [hquote]; decide)

end Decimal

variable {hidden : Char → Bool}

def Segment.textBy (hidden : Char → Bool) : Segment → List Char
  | .key k => '[' :: '\x22' :: ((Utf8.lossy k).flatMap (Escape.quotedCharBy hidden) ++ ['\x22', ']'])
  | .index i => '[' :: (Decimal.text i ++ [']'])

/-- The text of a path for any choice of the characters that are spelt by their number. -/
def Path.textBy (hidden : Char → Bool) (p : Path) : String :=
  String.ofList ("root".toList ++ p.flatMap (Segment.textBy hidden))

theorem Segment.text_eq : Segment.text = Segment.textBy Unprintable.contains := by
  funext s
  cases s with
  | key k => simp [text, textBy, Escape.quoted, Escape.quotedChar_eq]
  | index i => rfl

theorem Path.text_eq (p : Path) : p.text = p.textBy Unprintable.contains :=
  congrArg (fun text => String.ofList ("root".toList ++ p.flatMap text)) Segment.text_eq

/-- All keys on the path are UTF-8. -/
def Path.Textual (p : Path) : Prop := ∀ k, .key k ∈ p → Utf8.Valid k

theorem Path.textual_cons {s : Segment} {p : Path} :
    Path.Textual (s :: p) ↔ (∀ k, s = .key k → Utf8.Valid k) ∧ p.Textual := by
  simp only [Textual, List.mem_cons, or_imp, forall_and, eq_comm (a := s)]

/-- A segment is recognised whatever comes next. -/
theorem Segment.textBy_append_inj {s t : Segment} {x y : List Char}
    (hs : ∀ k, s = .key k → Utf8.Valid k) (ht : ∀ k, t = .key k → Utf8.Valid k)
    (h : s.textBy hidden ++ x = t.textBy hidden ++ y) : s = t ∧ x = y := by
  cases s with
  | key k =>
    cases t with
    | key l =>
      simp only [textBy, List.cons_append, List.append_assoc, List.nil_append, List.cons.injEq,
        true_and] at h
      obtain ⟨hkl, hrest⟩ := Escape.flatMap_quotedCharBy_append_inj h
      exact ⟨congrArg key ((hs k rfl).lossy_inj (ht l rfl) hkl), (List.cons.inj hrest).2⟩
    | index j =>
      simp only [textBy, List.cons_append, List.append_assoc, List.cons.injEq, true_and] at h
      exact absurd h.symm (Decimal.text_append_ne_quote j _ _)
  | index i =>
    cases t with
    | key l =>
      simp only [textBy, List.cons_append, List.append_assoc, List.cons.injEq, true_and] at h
      exact absurd h (Decimal.text_append_ne_quote i _ _)
    | index j =>
      simp only [textBy, List.cons_append, List.append_assoc, List.nil_append, List.cons.injEq,
        true_and] at h
      obtain ⟨rfl, hxy⟩ := Decimal.text_append_inj h
      exact ⟨rfl, hxy⟩

theorem Segment.textBy_ne_nil (s : Segment) : s.textBy hidden ≠ [] := by
  cases s <;> exact List.cons_ne_nil _ _

theorem Path.flatMap_textBy_inj {p q : Path} (hp : p.Textual) (hq : q.Textual)
    (h : p.flatMap (Segment.textBy hidden) = q.flatMap (Segment.textBy hidden)) : p = q := by
  induction p generalizing q with
  | nil =>
    obtain _ | ⟨t, q⟩ := q
    · rfl
    · exact absurd (List.append_eq_nil_iff.1 h.symm).1 t.textBy_ne_nil
  | cons s p ih =>
    obtain _ | ⟨t, q⟩ := q
    · exact absurd (List.append_eq_nil_iff.1 h).1 s.textBy_ne_nil
    · obtain ⟨hs, hp⟩ := Path.textual_cons.1 hp
      obtain ⟨ht, hq⟩ := Path.textual_cons.1 hq
      rw [List.flatMap_cons, List.flatMap_cons] at h
      obtain ⟨hst, hrest⟩ := Segment.textBy_append_inj hs ht h
      rw [hst, ih hp hq hrest]

theorem Path.textBy_inj {p q : Path} (hp : p.Textual) (hq : q.Textual)
    (h : p.textBy hidden = q.textBy hidden) : p = q :=
  Path.flatMap_textBy_inj hp hq (List.append_cancel_left (String.ofList_injective h))

/-- All keys of the tree are UTF-8; its byte strings need not be. -/
def Value.KeysTextual (v : Value) : Prop :=
  ∀ es, .dict es ∈ v.nodes → ∀ k ∈ Entries.keys es, Utf8.Valid k

theorem Value.KeysTextual.path {v w : Value} (hv : v.KeysTextual) {p : Path}
    (h : v.follow? p = some w) : p.Textual := by
  intro k hk
  obtain ⟨front, more, rfl⟩ := List.append_of_mem hk
  rw [follow?_append, Option.bind_eq_some_iff] at h
  obtain ⟨u, hu, hmore⟩ := h
  obtain ⟨c, hc, -⟩ := follow?_cons_eq_some.1 hmore
  rcases child?_eq_some hc with ⟨vs, i, rfl, hs, -⟩ | ⟨es, l, rfl, hs, hget⟩
  · cases hs
  · cases hs
    have hkey : k ∈ Entries.keys es := List.mem_map_of_mem (Entries.mem_of_get?_eq_some hget)
    exact hv es (mem_nodes_of_follow? hu) k hkey

/-- Paths with UTF-8 keys have different texts, whichever characters are spelt by their number. So the text in
the refusal of a tree with UTF-8 keys belongs to one node of the tree only, the first hole. -/
theorem path_text_names_first_hole (hidden : Char → Bool) :
    (∀ p q : Path, p.Textual → q.Textual → p.textBy hidden = q.textBy hidden → p = q) ∧
      (∀ p : Path, p.text = p.textBy Unprintable.contains) ∧
      ∀ (v : Value) (e : Error), v.Sorted → v.KeysTextual → v.assigned = .error e →
        encode v = .error e ∧ (∀ layout, jsonText layout v = .error e) ∧
        (∀ {σ : Type} [Sink σ] (format : Format) (s : σ), format.write v s = (.error e, s)) ∧
        ∃ p, e = .unassigned p ∧ e.message = "unassigned placeholder at " ++ p.text ∧
          v.follow? p = some .hole ∧ (∀ q, v.follow? q = some .hole → q ≠ p → Path.Before p q) ∧
          ∀ q w, v.follow? q = some w → (q.textBy hidden = p.textBy hidden → q = p) ∧
            ((Error.unassigned q).message = e.message → q = p) := by
  refine ⟨fun p q hp hq => Path.textBy_inj hp hq, Path.text_eq, fun v e hv hkeys he => ?_⟩
  have hholes : ¬ v.HoleFree := by
    intro hfree
    rw [Value.assigned_of_holeFree hfree] at he
    cases he
  obtain ⟨p, hp⟩ := Value.exists_findHole hholes
  rw [Value.assigned_of_findHole hp, Except.error.injEq] at he
  subst he
  obtain ⟨hhole, hfirst⟩ := Value.findHole_eq_some hv hp
  refine ⟨encode_of_findHole hp, jsonText_of_findHole hp, Format.write_of_findHole hp, p, rfl, rfl, hhole,
    fun q hq hne => (hfirst q hq).resolve_left hne, fun q w hq => ?_⟩
  have hpath : p.Textual := hkeys.path hhole
  refine ⟨Path.textBy_inj (hkeys.path hq) hpath, fun h => ?_⟩
  have htext : q.text = p.text := (String.append_right_inj _).1 h
  rw [Path.text_eq, Path.text_eq] at htext
  exact Path.textBy_inj (hkeys.path hq) hpath htext

/-- A key that looks like two keys is told from these, and a number as key from the index. -/
theorem path_text_names_first_hole_brackets :
    Path.text [.key [97, 34, 93, 91, 34, 98]] ≠ Path.text [.key [97], .key [98]] ∧
      Path.text [.key [51]] ≠ Path.text [.index 3] ∧
      encode (.dict [([97], .dict [([98], .hole)]), ([97, 34, 93, 91, 34, 98], .hole)]) =
        .error (.unassigned [.key [97], .key [98]]) := by
  obtain ⟨hinj, htext, htree⟩ := path_text_names_first_hole Unprintable.contains
  have hone (k : Bytes) (hk : Utf8.Valid k) : Path.Textual [.key k] := by
    simpa [Path.Textual] using hk
  have htwo : Path.Textual [.key [97], .key [98]] := by
    have h : Utf8.Valid [97] ∧ Utf8.Valid [98] := by decide +kernel
    simpa [Path.Textual, or_imp, forall_and] using h
  have hkeys : ([97] : Bytes) < [97, 34, 93, 91, 34, 98] := by decide
  have hsorted : (Value.dict [([97], .dict [([98], .hole)]), ([97, 34, 93, 91, 34, 98], .hole)]).Sorted := by
    simp [Value.Sorted, Value.SortedEntries, Entries.Sorted, Entries.keys, hkeys]
  have htextual :
      (Value.dict [([97], .dict [([98], .hole)]), ([97, 34, 93, 91, 34, 98], .hole)]).KeysTextual := by
    have h : (Utf8.Valid [97] ∧ Utf8.Valid [97, 34, 93, 91, 34, 98]) ∧ Utf8.Valid [98] := by decide +kernel
    simpa [Value.KeysTextual, Value.nodes, Value.nodesEntries, Entries.keys, or_imp, forall_and] using h
  refine ⟨fun h => ?_, fun h => ?_, (htree _ _ hsorted htextual rfl).1⟩
  · rw [htext, htext] at h
    cases hinj _ _ (hone _ (by decide +kernel)) htwo h
  · rw [htext, htext] at h
    cases hinj _ _ (hone _ (by decide +kernel)) (by simp [Path.Textual]) h

end Bencode
