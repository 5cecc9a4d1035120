import Bencode.Proofs.Json.Scanner

/-! # Reading JSON

The reader goes through a text once, level by level. It follows the grammar, so it accepts a text just when
the grammar derives it, and no text spells two documents.
-/
namespace Bencode.Json

variable {α : Type}

/-- What is behind the given character. -/
def after? (c : Char) : List Char → Option (List Char)
  | d :: s => if d = c then some s else none
  | [] => none

/-- At most `n` parts up to the closing character. -/
def parts? (close : Char) (part? : List Char → Option (α × List Char)) :
    Nat → List Char → Option (List α × List Char)
  | 0, _ => none
  | n + 1, s =>
    match part? (skipSpace s) with
    | none => none
    | some (x, s) =>
      match skipSpace s with
      | [] => none
      | c :: s =>
        if c = close then some ([x], s)
        else if c = ',' then (parts? close part? n s).map (Prod.map (x :: ·) id)
        else none

def enclosed? (close : Char) (part? : List Char → Option (α × List Char)) (n : Nat)
    (s : List Char) : Option (List α × List Char) :=
  match after? close (skipSpace s) with
  | some s => some ([], s)
  | none => parts? close part? n s

def member? (part? : List Char → Option (α × List Char)) (s : List Char) :
    Option ((String × α) × List Char) :=
  (after? '\x22' s).bind fun s => (string? s).bind fun k =>
    (after? ':' (skipSpace k.2)).bind fun s =>
      (part? (skipSpace s)).map (Prod.map (k.1, ·) id)

def keyword? : List Char → Option (Content × List Char)
  | 'n' :: 'u' :: 'l' :: 'l' :: s => some (.null, s)
  | 't' :: 'r' :: 'u' :: 'e' :: s => some (.boolean true, s)
  | 'f' :: 'a' :: 'l' :: 's' :: 'e' :: s => some (.boolean false, s)
  | _ => none

/-- A value with at most `n` levels. -/
def value? : Nat → List Char → Option (Content × List Char)
  | 0, _ => none
  | _ + 1, '\x22' :: s => (string? s).map (Prod.map .string id)
  | n + 1, '[' :: s => (enclosed? ']' (value? n) n s).map (Prod.map .array id)
  | n + 1, '\x7b' :: s => (enclosed? '\x7d' (member? (value? n)) n s).map (Prod.map .object id)
  | _ + 1, s => (keyword? s).or ((number? s).map (Prod.map .number id))

/-- The document that a text spells. No text has more levels than characters. -/
def read? (text : List Char) : Option Content :=
  match value? text.length (skipSpace text) with
  | none => none
  | some (d, s) => if skipSpace s = [] then some d else none

theorem after?_eq_some_iff {c : Char} {s t : List Char} : after? c s = some t ↔ s = c :: t := by
  cases s with
  | nil => simp [after?]
  | cons d s =>
    rw [after?, List.cons.injEq]
    split
    · next h => simp [h]
    · next h => simp [h]

/-- The text begins with a character that is neither space nor the closing one. -/
def Starts (close : Char) (text : List Char) : Prop :=
  ∃ c s, text = c :: s ∧ isSpace c = false ∧ c ≠ close

theorem Starts.append {close : Char} {text : List Char} (h : Starts close text) (rest : List Char) :
    Starts close (text ++ rest) := by
  obtain ⟨c, s, rfl, hc⟩ := h
  exact ⟨c, s ++ rest, rfl, hc⟩

theorem Starts.skipSpace_append {close : Char} {w text : List Char} (h : Starts close text)
    (hw : Space w) : skipSpace (w ++ text) = text := by
  obtain ⟨c, s, rfl, hc, -⟩ := h
  exact Json.skipSpace_append hw (past_cons hc)

theorem Starts.after? {close : Char} {text : List Char} (h : Starts close text) :
    after? close text = none := by
  obtain ⟨c, s, rfl, -, hc⟩ := h
  exact if_neg hc

theorem Starts.length_pos {close : Char} {text : List Char} (h : Starts close text) :
    0 < text.length := by
  obtain ⟨c, s, rfl, -⟩ := h
  exact Nat.succ_pos s.length

section
variable {n : Nat} {close : Char} {part? : List Char → Option (α × List Char)}
  {P : List Char → α → Prop}

/-- What may close a container ends the part before it. -/
def Closing (close : Char) : Prop :=
  isSpace close = false ∧ inNumber close = false ∧ close ≠ ','

theorem past_inNumber_space {w rest : List Char} (hw : Space w) (hrest : Past inNumber rest) :
    Past inNumber (w ++ rest) := by
  cases w with
  | nil => exact hrest
  | cons c w =>
    refine past_cons ?_
    have hc := hw c List.mem_cons_self
    simp only [isSpace, Bool.or_eq_true, decide_eq_true_eq] at hc
    rcases hc with ((rfl | rfl) | rfl) | rfl <;> rfl

theorem Parts.starts {body : List Char} {xs : List α} (h : Parts P body xs)
    (hP : ∀ {text x}, P text x → Starts close text) :
    ∃ w text, body = w ++ text ∧ Space w ∧ Starts close text := by
  cases h with
  | one hw₁ hx hw₂ => exact ⟨_, _, List.append_assoc .., hw₁, (hP hx).append _⟩
  | more hw₁ hx hw₂ hxs =>
    exact ⟨_, _, by rw [List.append_assoc, List.append_assoc], hw₁, (hP hx).append _⟩

theorem parts_of_parts? (h : Reads n (Past inNumber) part? P) {m : Nat} {s rest : List Char}
    {xs : List α} (hs : parts? close part? m s = some (xs, rest)) :
    ∃ body, s = body ++ close :: rest ∧ Parts P body xs := by
  induction m generalizing s xs with
  | zero => cases hs
  | succ m ih =>
    rw [parts?] at hs
    split at hs
    · cases hs
    · next x s₁ hx =>
      -- the space around the part is what was skipped before it and behind it
      obtain ⟨w₁, hw₁, hs₁⟩ := exists_skipSpace s
      obtain ⟨text, htext, hx⟩ := h.sound hx
      obtain ⟨w₂, hw₂, hs₂⟩ := exists_skipSpace s₁
      have hbegin : s = w₁ ++ text ++ w₂ ++ skipSpace s₁ := by
        rw [hs₁, htext, List.append_assoc, List.append_assoc, ← hs₂]
      split at hs
      · cases hs
      · next c t hc =>
        rw [hc] at hbegin
        split at hs
        · next hclose =>
          cases hs
          exact ⟨_, hclose ▸ hbegin, .one hw₁ hx hw₂⟩
        · split at hs
          · next hcomma =>
            obtain ⟨⟨ys, t'⟩, hys, heq⟩ := Option.map_eq_some_iff.1 hs
            cases heq
            obtain ⟨body, rfl, hbody⟩ := ih hys
            refine ⟨_, ?_, .more hw₁ hx hw₂ hbody⟩
            rw [hbegin, hcomma, List.append_assoc _ (',' :: body), List.cons_append]
          · cases hs

theorem parts?_of_parts (h : Reads n (Past inNumber) part? P)
    (hP : ∀ {text x}, P text x → Starts close text) (hclose : Closing close) {m : Nat}
    {body : List Char} {xs : List α} (hbody : Parts P body xs) (hn : body.length ≤ n)
    (hm : body.length ≤ m) (rest : List Char) :
    parts? close part? m (body ++ close :: rest) = some (xs, rest) := by
  obtain ⟨hspace, hnumber, hcomma⟩ := hclose
  induction hbody generalizing m with
  | @one w₁ text w₂ x hw₁ hx hw₂ =>
    have hpos := (hP hx).length_pos
    simp only [List.length_append] at hn hm
    cases m with
    | zero => omega
    | succ m =>
      have hskip : skipSpace (w₁ ++ text ++ w₂ ++ close :: rest) = text ++ (w₂ ++ close :: rest) := by
        rw [List.append_assoc, List.append_assoc, ((hP hx).append _).skipSpace_append hw₁]
      have hpart := h.complete hx (by omega) (past_inNumber_space hw₂ (past_cons (s := rest) hnumber))
      simp only [parts?, hskip, hpart, skipSpace_append hw₂ (past_cons (s := rest) hspace), if_true]
  | @more w₁ text w₂ more x xs hw₁ hx hw₂ _ ih =>
    simp only [List.length_append, List.length_cons] at hn hm
    cases m with
    | zero => omega
    | succ m =>
      have hskip : skipSpace (w₁ ++ text ++ w₂ ++ ',' :: more ++ close :: rest) =
          text ++ (w₂ ++ ',' :: (more ++ close :: rest)) := by
        rw [List.append_assoc, List.append_assoc, List.append_assoc,
          ((hP hx).append _).skipSpace_append hw₁]
        rfl
      have hpart := h.complete hx (by omega)
        (past_inNumber_space hw₂ (past_cons (c := ',') (s := more ++ close :: rest) rfl))
      have hcomma' : skipSpace (w₂ ++ ',' :: (more ++ close :: rest)) =
          ',' :: (more ++ close :: rest) :=
        skipSpace_append hw₂ (past_cons rfl)
      have hmore := ih (by omega) (show more.length ≤ m by omega)
      simp only [parts?, hskip, hpart, hcomma', if_neg hcomma.symm, if_true, hmore]
      rfl

theorem reads_enclosed? (h : Reads n (Past inNumber) part? P)
    (hP : ∀ {text x}, P text x → Starts close text) (hclose : Closing close) :
    Reads n Any (enclosed? close part? n) (Enclosed close P) where
  sound := by
    intro s xs rest hs
    unfold enclosed? at hs
    split at hs
    · next t ht =>
      cases hs
      obtain ⟨w, hw, hsplit⟩ := exists_skipSpace s
      rw [after?_eq_some_iff.1 ht] at hsplit
      exact ⟨w ++ [close], by rw [hsplit, List.append_assoc]; rfl, .empty hw⟩
    · obtain ⟨body, rfl, hbody⟩ := parts_of_parts? h hs
      exact ⟨body ++ [close], by rw [List.append_assoc]; rfl, .parts hbody⟩
  complete := by
    intro text xs rest hx hn _
    cases hx with
    | empty hw =>
      rw [enclosed?, List.append_assoc, List.singleton_append,
        skipSpace_append hw (past_cons hclose.1), after?_eq_some_iff.2 rfl]
    | @parts body _ hbody =>
      obtain ⟨w, text, rfl, hw, hstart⟩ := hbody.starts hP
      have hskip := (hstart.append ([close] ++ rest)).skipSpace_append hw
      rw [enclosed?, List.append_assoc, List.append_assoc, hskip, (hstart.append _).after?,
        ← List.append_assoc]
      rw [List.length_append, List.length_singleton] at hn
      exact parts?_of_parts h hP hclose hbody (by omega) (by omega) rest

end

theorem reads_member? {n : Nat} {part? : List Char → Option (α × List Char)}
    {P : List Char → α → Prop} {close : Char} (h : Reads n (Past inNumber) part? P)
    (hP : ∀ {text x}, P text x → Starts close text) :
    Reads n (Past inNumber) (member? part?) (Member P) where
  sound := by
    intro s m rest hm
    obtain ⟨s₁, hs, hname⟩ := Option.bind_eq_some_iff.1 hm
    obtain ⟨⟨k, s₂⟩, hk, hvalue⟩ := Option.bind_eq_some_iff.1 hname
    obtain ⟨s₃, hcolon, hvalue⟩ := Option.bind_eq_some_iff.1 hvalue
    obtain ⟨name, rfl, hquoted⟩ := (reads_string? n).sound hk
    obtain ⟨w₁, hw₁, hs₂⟩ := exists_skipSpace s₂
    obtain ⟨w₂, hw₂, hs₃⟩ := exists_skipSpace s₃
    obtain ⟨text, x, htext, hx, rfl⟩ := h.sound_map hvalue
    refine ⟨_, ?_, .intro hquoted hw₁ hw₂ hx⟩
    rw [after?_eq_some_iff] at hs hcolon
    rw [hs, hs₂, hcolon, hs₃, htext]
    simp only [List.append_assoc, List.cons_append]
  complete := by
    rintro _ _ rest ⟨hk, hw₁, hw₂, hx⟩ hn hrest
    simp only [List.length_append, List.length_cons] at hn
    have hcolon (s : List Char) : Past isSpace (':' :: s) := past_cons rfl
    simp only [member?, List.cons_append, List.append_assoc, after?_eq_some_iff.2 rfl, Option.bind_some,
      (reads_string? n).complete hk (by omega) trivial, skipSpace_append hw₁ (hcolon _),
      ((hP hx).append rest).skipSpace_append hw₂]
    exact h.complete_map hx (by omega) hrest

theorem denotes_of_keyword? {s rest : List Char} {d : Content} (h : keyword? s = some (d, rest)) :
    ∃ text, s = text ++ rest ∧ Denotes text d := by
  unfold keyword? at h
  split at h
  · cases h
    exact ⟨_, rfl, .null⟩
  · cases h
    exact ⟨_, rfl, .true⟩
  · cases h
    exact ⟨_, rfl, .false⟩
  · cases h

/-- No other value begins as a number does. -/
theorem Number.begins {text : List Char} {q : Rat} (h : Number text q) :
    ∃ c s, text = c :: s ∧ isSpace c = false ∧ c ∉ ['\x22', '[', ']', '\x7b', 'n', 't', 'f'] := by
  obtain ⟨c, s, rfl, hc⟩ := h.head
  refine ⟨c, s, rfl, ?_⟩
  rcases hc with rfl | hc
  · decide
  · constructor
    · cases hspace : isSpace c with
      | false => rfl
      | true =>
        simp only [isSpace, Bool.or_eq_true, decide_eq_true_eq] at hspace
        rcases hspace with ((rfl | rfl) | rfl) | rfl <;> cases hc
    · intro hmem
      simp only [List.mem_cons, List.not_mem_nil, or_false] at hmem
      rcases hmem with rfl | rfl | rfl | rfl | rfl | rfl | rfl <;> cases hc

theorem Number.keyword? {text : List Char} {q : Rat} (h : Number text q) (rest : List Char) :
    keyword? (text ++ rest) = none := by
  obtain ⟨c, s, rfl, -, hc⟩ := h.begins
  simp only [List.mem_cons, List.not_mem_nil, or_false, not_or] at hc
  rw [List.cons_append, Json.keyword?]
  all_goals
    rintro _ heq
    simp only [List.cons.injEq] at heq
    simp [heq.1] at hc

theorem Denotes.starts {text : List Char} {d : Content} (h : Denotes text d) : Starts ']' text := by
  cases h with
  | number h =>
    obtain ⟨c, s, rfl, hspace, hc⟩ := h.begins
    exact ⟨c, s, rfl, hspace, fun hclose => hc (by rw [hclose]; decide)⟩
  | _ => exact ⟨_, _, rfl, by decide, by decide⟩

theorem Member.starts {P : List Char → α → Prop} {text : List Char} {m : String × α}
    (h : Member P text m) : Starts '\x7d' text := by
  obtain ⟨-, -, -, -⟩ := h
  exact ⟨_, _, rfl, by decide, by decide⟩

/-- By induction on the levels, of which a text that is no longer than their number has no more. -/
theorem reads_value? (n : Nat) : Reads n (Past inNumber) (value? n) Denotes := by
  induction n with
  | zero =>
    refine ⟨fun h => (by cases h), fun h hn _ => ?_⟩
    have hpos := h.starts.length_pos
    omega
  | succ n ih =>
    have hbracket : Closing ']' := ⟨rfl, rfl, by decide⟩
    have hbrace : Closing '\x7d' := ⟨rfl, rfl, by decide⟩
    have harray := reads_enclosed? ih Denotes.starts hbracket
    have hobject := reads_enclosed? (reads_member? ih Denotes.starts) Member.starts hbrace
    constructor
    · intro s d rest h
      unfold value? at h
      split at h
      · cases h
      · obtain ⟨text, k, rfl, hk, rfl⟩ := (reads_string? n).sound_map h
        exact ⟨_, rfl, .string hk⟩
      · next hlevels =>
        cases hlevels
        obtain ⟨text, items, rfl, hitems, rfl⟩ := harray.sound_map h
        exact ⟨_, rfl, .array hitems⟩
      · next hlevels =>
        cases hlevels
        obtain ⟨text, members, rfl, hmembers, rfl⟩ := hobject.sound_map h
        exact ⟨_, rfl, .object hmembers⟩
      · rcases Option.or_eq_some_iff.1 h with hkeyword | ⟨-, hnumber⟩
        · exact denotes_of_keyword? hkeyword
        · obtain ⟨text, q, rfl, hq, rfl⟩ := (reads_number? n).sound_map hnumber
          exact ⟨_, rfl, .number hq⟩
    · intro text d rest h hn hrest
      cases h with
      | null => rfl
      | true => rfl
      | false => rfl
      | number h =>
        have hnumber := (reads_number? (n + 1)).complete_map (f := Content.number) h hn hrest
        have hkeyword := h.keyword? rest
        obtain ⟨c, s, rfl, -, hc⟩ := h.begins
        simp only [List.mem_cons, List.not_mem_nil, or_false, not_or] at hc
        rw [List.cons_append, value?, ← List.cons_append, hkeyword, hnumber]
        · rfl
        all_goals
          rintro _ heq
          simp only [List.cons.injEq] at heq
          simp [heq.1] at hc
      | string h => exact (reads_string? n).complete_map h (Nat.le_of_succ_le_succ hn) trivial
      | array h => exact harray.complete_map h (Nat.le_of_succ_le_succ hn) trivial
      | object h => exact hobject.complete_map h (Nat.le_of_succ_le_succ hn) trivial

/-- The reader accepts what the grammar derives, with the document that it spells. -/
theorem read?_eq_some_iff {text : List Char} {d : Content} : read? text = some d ↔ Spells text d := by
  constructor
  · intro h
    unfold read? at h
    split at h
    · cases h
    · next d s hvalue =>
      split at h
      · next hend =>
        cases h
        obtain ⟨w₁, hw₁, htext⟩ := exists_skipSpace text
        obtain ⟨w₂, hw₂, hs⟩ := exists_skipSpace s
        obtain ⟨middle, hmiddle, hd⟩ := (reads_value? _).sound hvalue
        rw [hend, List.append_nil] at hs
        rw [hmiddle, ← List.append_assoc, hs] at htext
        exact htext ▸ .intro hw₁ hd hw₂
      · cases h
  · rintro @⟨w₁, text, w₂, _, hw₁, h, hw₂⟩
    have hskip := (h.starts.append w₂).skipSpace_append hw₁
    have hlength : text.length ≤ (w₁ ++ text ++ w₂).length := by
      rw [List.length_append, List.length_append]
      omega
    have hpast : Past inNumber w₂ := by
      have hpast := past_inNumber_space hw₂ (past_nil inNumber)
      rwa [List.append_nil] at hpast
    have hend : skipSpace w₂ = [] := by
      have hend := skipSpace_append hw₂ (past_nil isSpace)
      rwa [List.append_nil] at hend
    rw [read?, List.append_assoc, hskip, ← List.append_assoc,
      (reads_value? _).complete h hlength hpast]
    exact if_pos hend

/-- No text spells two documents. -/
theorem Spells.unique {text : List Char} {d e : Content} (hd : Spells text d) (he : Spells text e) :
    d = e :=
  Option.some.inj ((read?_eq_some_iff.2 hd).symm.trans (read?_eq_some_iff.2 he))

end Bencode.Json
