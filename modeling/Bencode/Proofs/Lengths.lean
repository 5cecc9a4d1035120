import Bencode.Proofs.Place

/-! # Bad lengths

Where a byte string has to come, a sign or a length above the limit stops the reader. A length is read
as any number is, so the errors of numbers come before its own. One of them is no fault of the format: a
canonical decimal that fits the room for a number but not 64 bits is reported as a number out of range.
Every other bad length is reported as a fault. `document_error_of_stops` brings what is reported at an
awaited part up to the document.
-/
namespace Bencode
open Cursor Decimal

namespace Reader
variable {limits : Limits} {levels : Nat} {item : Reader Value} {previous : Option Bytes} {e : Error}
  {start c c₁ c' : Cursor} {b : UInt8} {rest : Bytes}

/-- Reading the awaited part at the cursor ends with an error. -/
def Stops (limits : Limits) (c : Cursor) (e : Error) (c' : Cursor) : Awaited → Prop
  | .value levels => (tree limits levels).run c = (.error e, c')
  | .item levels => items (tree limits levels) c = (.error e, c')
  | .key levels previous => entries limits (tree limits levels) previous c = (.error e, c')
  | .number terminator => number terminator c = (.error e, c')

theorem string_error_of_number (h : number Mark.colon c = (.error e, c')) :
    string limits c = (.error e, c') := by
  unfold string
  rw [h, Outcome.andThen_error]

theorem value_error_of_string (hc : c.rest = b :: rest) (hb : isDigit b = true)
    (h : string limits c = (.error e, c')) : value limits item c = (.error e, c') := by
  rw [value_digit hc hb, h, Outcome.map_error]

theorem entries_error_of_string (hc : c.rest = b :: rest) (hb : isNumberByte b true = true)
    (h : string limits c = (.error e, c')) :
    entries limits item previous c = (.error e, c') := by
  have hclose : b ≠ Mark.close := by
    intro he
    subst he
    cases hb
  rw [entries_cons hc hclose hb, h, Outcome.andThen_error]

/-- Behind an item that was read the next ones are read. -/
theorem items_of_written {v : Value} (hv : Written limits levels v c c₁) :
    items (tree limits levels) c = (items (tree limits levels) c₁).map (v :: ·) := by
  have hrun : (tree limits levels).run c = (.ok v, c₁) := tree_eq_ok_iff.2 hv
  obtain ⟨w, hw, -, -, hp⟩ := hv
  obtain ⟨b, t, ht, -, hb⟩ := Value.exists_wire_eq_cons hw.holeFree
  have hc : c.rest = b :: (t ++ c₁.rest) := by rw [hp.1, ht, List.cons_append]
  rw [items_cons hc hb, hrun, Outcome.andThen_ok]

/-- Behind a key that was read its value is read. -/
theorem entries_of_keyWritten {key : Bytes} (hk : KeyWritten limits previous key c c₁) :
    entries limits item previous c = entriesAfter limits item key c₁ := by
  obtain ⟨b, t, ht, hb⟩ := exists_stringWire_eq_cons key
  have hc : c.rest = b :: (t ++ c₁.rest) := by rw [hk.passes.1, ht, List.cons_append]
  have hkey : string limits c = (.ok key, c₁) :=
    string_eq_ok_iff.2 ⟨⟨hk.length_le, hk.length_lt⟩, hk.passes⟩
  have horder : orderFault? limits previous key = none := orderFault?_eq_none_iff.2 hk.above
  have hnumber : isNumberByte b true = true := by simp [isNumberByte, hb]
  rw [entries_cons hc (ne_of_isDigit hb rfl) hnumber, hkey, Outcome.andThen_ok, horder,
    Option.elim_none]

/-- An error in a part that is awaited is the error of the whole document. -/
theorem document_error_of_stops {next : Awaited} (h : Awaits limits start c next)
    (hs : Stops limits c e c' next) : document limits start = (.error e, c') := by
  -- each rule of `Awaits` leads from the part to the one it belongs to, and in the end to the root
  have hroot : (tree limits limits.maxDepth).run start = (.error e, c') := by
    induction h with
    | root => exact hs
    | @list c levels rest _ hc ih =>
      have hitems : items (tree limits levels) c.next = (.error e, c') := hs
      have hvalue : value limits (tree limits levels) c = (.error e, c') := by
        rw [value_cons hc, if_neg (by decide), if_pos rfl, hitems, Outcome.map_error]
      exact ih hvalue
    | @item c levels b rest _ hc hb ih =>
      have hrun : (tree limits levels).run c = (.error e, c') := hs
      have hitems : items (tree limits levels) c = (.error e, c') := by
        rw [items_cons hc hb, hrun, Outcome.andThen_error]
      exact ih hitems
    | @items c c₁ levels v _ hv ih =>
      have hrest : items (tree limits levels) c₁ = (.error e, c') := hs
      have hitems : items (tree limits levels) c = (.error e, c') := by
        rw [items_of_written hv, hrest, Outcome.map_error]
      exact ih hitems
    | @dict c levels rest _ hc ih =>
      have hentries : entries limits (tree limits levels) none c.next = (.error e, c') := hs
      have hvalue : value limits (tree limits levels) c = (.error e, c') := by
        rw [value_cons hc, if_neg (by decide), if_neg (by decide), if_pos rfl, hentries,
          Outcome.map_error]
      exact ih hvalue
    | @entry c c₁ levels previous key _ hk ih =>
      have hrun : (tree limits levels).run c₁ = (.error e, c') := hs
      have hentries : entries limits (tree limits levels) previous c = (.error e, c') := by
        rw [entries_of_keyWritten hk, entriesAfter, hrun, Outcome.andThen_error]
      exact ih hentries
    | @entries c c₁ c₂ levels previous key v _ hk hv ih =>
      have hrun : (tree limits levels).run c₁ = (.ok v, c₂) := tree_eq_ok_iff.2 hv
      have hrest : entries limits (tree limits levels) (some key) c₂ = (.error e, c') := hs
      have hentries : entries limits (tree limits levels) previous c = (.error e, c') := by
        rw [entries_of_keyWritten hk, entriesAfter, hrun, Outcome.andThen_ok, hrest,
          Outcome.map_error]
      exact ih hentries
    | @integer c levels rest _ hc ih =>
      have hnumber : number Mark.close c.next = (.error e, c') := hs
      have hvalue : value limits (tree limits levels) c = (.error e, c') := by
        rw [value_cons hc, if_pos rfl, integer, hnumber, Outcome.andThen_error]
      exact ih hvalue
    | length _ hc hb ih => exact ih (value_error_of_string hc hb (string_error_of_number hs))
    | keyLength _ hc hb ih => exact ih (entries_error_of_string hc hb (string_error_of_number hs))
  rw [document, hroot, Outcome.andThen_error]

/-- The text begins with a number that fits the room for one but not 64 bits, and with a colon. -/
structure Overflows (n : Int) (text : Bytes) : Prop where
  range : -10 ^ 19 < n ∧ n < -2 ^ 63 ∨ 2 ^ 63 ≤ n ∧ n < 10 ^ 20
  begins : ∃ more, text = ofInt n ++ Mark.colon :: more

theorem Overflows.number_eq {n : Int} (h : Overflows n c.rest) :
    ∃ c', number Mark.colon c = (.error (.integerOverflow (ofInt n)), c') := by
  obtain ⟨hrange, more, hc⟩ := h
  have hout : OutOfRange (ofInt n) := ⟨n, canonical_ofInt n, by omega⟩
  have hlength : (ofInt n).length ≤ 20 := length_ofInt_le_iff.2 (by omega)
  have hp : c.Passes (ofInt n) ⟨c.offset + (ofInt n).length, Mark.colon :: more⟩ := ⟨hc, rfl⟩
  exact ⟨_, (number_eq_overflow_iff rfl).2 ⟨hout, Nat.lt_succ_of_le hlength, hp, more, rfl⟩⟩

theorem overflows_of_number_eq {text : Bytes}
    (h : number Mark.colon c = (.error (.integerOverflow text), c')) :
    ∃ n, Overflows n c.rest := by
  obtain ⟨⟨n, hn, hout⟩, hlength, hp, more, hm⟩ := (number_eq_overflow_iff rfl).1 h
  have htext : text = ofInt n := hn.eq_ofInt
  subst htext
  have hbounds := length_ofInt_le_iff.1 (Nat.le_of_lt_succ hlength)
  exact ⟨n, by omega, more, by rw [hp.1, hm]⟩

/-- How a bad length at the cursor is refused. -/
structure Refused (c : Cursor) (e : Error) : Prop where
  isSyntax_iff : e.isSyntax = true ↔ ¬ ∃ n, Overflows n c.rest
  eq_of_overflows : ∀ n, Overflows n c.rest → e = .integerOverflow (ofInt n)

theorem refused_of_fault {offset : Nat} {fault : Fault} (h : ¬ ∃ n, Overflows n c.rest) :
    Refused c (.malformed offset fault) :=
  ⟨iff_of_true rfl h, fun n hn => absurd ⟨n, hn⟩ h⟩

/-- If no body can follow the length, what comes out is a fault or the overflow of the length. -/
theorem string_refused (hbody : ∀ n c₁, number Mark.colon c = (.ok n, c₁) →
      ∃ fault, body limits n c₁ = c₁.fail fault) :
    ∃ e c', string limits c = (.error e, c') ∧ Refused c e := by
  rw [string_eq_andThen]
  have hno {r : Outcome Int64} (hr : number Mark.colon c = r)
      (hne : ∀ text c', r ≠ (.error (.integerOverflow text), c')) : ¬ ∃ n, Overflows n c.rest := by
    rintro ⟨n, hn⟩
    obtain ⟨c', hoverflow⟩ := hn.number_eq
    exact hne _ c' (hr.symm.trans hoverflow)
  cases hn : number Mark.colon c with
  | mk result c₁ =>
    cases result with
    | ok n =>
      obtain ⟨fault, hfault⟩ := hbody n c₁ hn
      refine ⟨_, c₁, hfault, refused_of_fault (hno hn ?_)⟩
      intro text c' he
      cases he
    | error e =>
      refine ⟨e, c₁, rfl, ?_⟩
      obtain ⟨numeral, -, -, ⟨fault, rfl, -⟩ | ⟨rfl, -⟩⟩ := number_eq_error hn
      · refine refused_of_fault (hno hn ?_)
        intro text c' he
        cases he
      · have hsome : ∃ n, Overflows n c.rest := overflows_of_number_eq hn
        refine ⟨iff_of_false (by simp [Error.isSyntax, Error.fault?]) (not_not_intro hsome), ?_⟩
        intro n h
        obtain ⟨c', hoverflow⟩ := h.number_eq
        have heq := hn.symm.trans hoverflow
        simp only [Prod.mk.injEq, Except.error.injEq] at heq
        exact heq.1

theorem string_refused_of_minus (hc : c.rest = Mark.minus :: rest) :
    ∃ e c', string limits c = (.error e, c') ∧ Refused c e := by
  refine string_refused fun n c₁ hn => ⟨.negativeLength, ?_⟩
  obtain ⟨more, hp, hm⟩ := (number_eq_ok_iff rfl).1 hn
  have hnegative : n.toInt < 0 := by
    by_contra hnonneg
    have hdigits : ofInt n.toInt = digits n.toInt.natAbs := by rw [ofInt, if_neg hnonneg]
    obtain ⟨d, ds, hd, hdigit⟩ := exists_digits_append_eq_cons n.toInt.natAbs c₁.rest
    have htext : Mark.minus :: rest = d :: ds := by rw [← hc, hp.1, hdigits, hd]
    exact ne_of_isDigit hdigit rfl (List.cons.inj htext).1.symm
  rw [body, if_pos hnegative]

theorem string_refused_of_tooLong {n : Nat} {more : Bytes}
    (hc : c.rest = digits n ++ Mark.colon :: more) (hmax : limits.maxStringLength < n) :
    ∃ e c', string limits c = (.error e, c') ∧ Refused c e := by
  refine string_refused fun m c₁ hm => ⟨.stringTooLong n limits.maxStringLength, ?_⟩
  obtain ⟨more', hp, hm⟩ := (number_eq_ok_iff rfl).1 hm
  have htext : ofInt m.toInt ++ Mark.colon :: more' = ofInt n ++ Mark.colon :: more := by
    rw [← hm, ← hp.1, hc, ofInt_natCast]
  have heq : m.toInt = n := (ofInt_append_inj rfl htext).1
  rw [body, heq, if_neg (by omega), Int.toNat_natCast, if_pos hmax]

/-- No byte string of the awaited part can begin with the text: at a key, because neither a digit nor the
closing mark comes, or because of a length above the limit. -/
inductive BadLength (limits : Limits) (text : Bytes) : Awaited → Prop where
  | noDigit {levels : Nat} {previous : Option Bytes} {b : UInt8} {rest : Bytes}
      (ht : text = b :: rest) (hclose : b ≠ Mark.close) (hdigit : isDigit b = false) :
      BadLength limits text (.key levels previous)
  | keyTooLong {levels : Nat} {previous : Option Bytes} {n : Nat} {more : Bytes}
      (ht : text = digits n ++ Mark.colon :: more) (hmax : limits.maxStringLength < n) :
      BadLength limits text (.key levels previous)
  | stringTooLong {levels : Nat} {n : Nat} {more : Bytes}
      (ht : text = digits n ++ Mark.colon :: more) (hmax : limits.maxStringLength < n) :
      BadLength limits text (.value (levels + 1))

theorem stops_of_badLength {next : Awaited} (h : BadLength limits c.rest next) :
    ∃ e c', Stops limits c e c' next ∧ Refused c e := by
  cases h with
  | @noDigit levels previous b rest hc hclose hdigit =>
    by_cases hminus : b = Mark.minus
    · subst hminus
      have hstring : ∃ e c', string limits c = (.error e, c') ∧ Refused c e :=
        string_refused_of_minus hc
      obtain ⟨e, c', hs, hr⟩ := hstring
      exact ⟨e, c', entries_error_of_string hc rfl hs, hr⟩
    · have hnumber : isNumberByte b true = false := by simp [isNumberByte, hdigit, hminus]
      refine ⟨_, c, entries_invalid hc hclose hnumber, refused_of_fault ?_⟩
      rintro ⟨n, -, more, hmore⟩
      obtain ⟨d, ds, hd⟩ := List.exists_cons_of_ne_nil (ofInt_ne_nil n)
      have hfirst : isNumberByte d true = true :=
        isNumberByte_of_mem_ofInt (n := n) (hd ▸ List.mem_cons_self)
      have htext : b :: rest = d :: (ds ++ Mark.colon :: more) := by
        rw [← hc, hmore, hd, List.cons_append]
      rw [← (List.cons.inj htext).1, hnumber] at hfirst
      cases hfirst
  | @keyTooLong levels previous n more hc hmax =>
    obtain ⟨e, c', hs, hr⟩ := string_refused_of_tooLong hc hmax
    obtain ⟨d, rest, hd, hdigit⟩ := exists_digits_append_eq_cons n (Mark.colon :: more)
    have hnumber : isNumberByte d true = true := by simp [isNumberByte, hdigit]
    exact ⟨e, c', entries_error_of_string (hc.trans hd) hnumber hs, hr⟩
  | @stringTooLong levels n more hc hmax =>
    obtain ⟨e, c', hs, hr⟩ := string_refused_of_tooLong hc hmax
    obtain ⟨d, rest, hd, hdigit⟩ := exists_digits_append_eq_cons n (Mark.colon :: more)
    exact ⟨e, c', value_error_of_string (hc.trans hd) hdigit hs, hr⟩

end Reader

open Reader

/-- Where a byte string or a key has to come and what comes has a bad length, decoding fails: with the
overflow of the number if one stands there that fits the room but not 64 bits, and else with a fault of
the format. -/
theorem decode_eq_error_of_badLength {limits : Limits} {data : Bytes} {c : Cursor} {next : Awaited}
    (h : Awaits limits (.ofBytes data) c next) (hbad : BadLength limits c.rest next) :
    ∃ e, decode data limits = .error e ∧ (e.isSyntax = true ↔ ¬ ∃ n, Overflows n c.rest) ∧
      ∀ n, Overflows n c.rest → e = .integerOverflow (ofInt n) := by
  obtain ⟨e, c', hs, hrefused⟩ := stops_of_badLength hbad
  have hdocument : document limits (.ofBytes data) = (.error e, c') := document_error_of_stops h hs
  refine ⟨e, ?_, hrefused.isSyntax_iff, hrefused.eq_of_overflows⟩
  unfold decode
  rw [hdocument]

/-- The document `d-9223372036854775809:` has a key with a negative length, and what is reported is a
number out of range. -/
theorem decode_eq_error_of_badLength_key :
    Awaits {} (.ofBytes (Mark.dict :: (ofInt (-9223372036854775809) ++ [Mark.colon])))
        ⟨1, ofInt (-9223372036854775809) ++ [Mark.colon]⟩ (.key 9 none) ∧
      BadLength {} (ofInt (-9223372036854775809) ++ [Mark.colon]) (.key 9 none) ∧
      decode (Mark.dict :: (ofInt (-9223372036854775809) ++ [Mark.colon])) =
        .error (.integerOverflow (ofInt (-9223372036854775809))) := by
  have hroot : Awaits {} (.ofBytes (Mark.dict :: (ofInt (-9223372036854775809) ++ [Mark.colon])))
      (.ofBytes (Mark.dict :: (ofInt (-9223372036854775809) ++ [Mark.colon]))) (.value 10) := .root
  have hplace := hroot.dict rfl
  have hbad : BadLength {} (ofInt (-9223372036854775809) ++ [Mark.colon]) (.key 9 none) :=
    .noDigit rfl (by decide) (by decide)
  obtain ⟨e, he, -, hoverflow⟩ := decode_eq_error_of_badLength hplace hbad
  refine ⟨hplace, hbad, ?_⟩
  rw [he, hoverflow (-9223372036854775809) ⟨.inl (by decide), [], rfl⟩]

/-- The length of `9223372036854775808:x` is above the limit, and yet no fault of the format is
reported. -/
theorem badLength_without_fault :
    Awaits {}
        (.ofBytes [57, 50, 50, 51, 51, 55, 50, 48, 51, 54, 56, 53, 52, 55, 55, 53, 56, 48, 56, 58, 120])
        (.ofBytes [57, 50, 50, 51, 51, 55, 50, 48, 51, 54, 56, 53, 52, 55, 55, 53, 56, 48, 56, 58, 120])
        (.value 10) ∧
      BadLength {}
        [57, 50, 50, 51, 51, 55, 50, 48, 51, 54, 56, 53, 52, 55, 55, 53, 56, 48, 56, 58, 120]
        (.value 10) ∧
      ∃ e, decode
          [57, 50, 50, 51, 51, 55, 50, 48, 51, 54, 56, 53, 52, 55, 55, 53, 56, 48, 56, 58, 120] =
        .error e ∧ e.isSyntax = false := by
  have htext : [57, 50, 50, 51, 51, 55, 50, 48, 51, 54, 56, 53, 52, 55, 55, 53, 56, 48, 56, 58, 120] =
      digits 9223372036854775808 ++ Mark.colon :: [120] := by decide +kernel
  have hoverflow : decode
      [57, 50, 50, 51, 51, 55, 50, 48, 51, 54, 56, 53, 52, 55, 55, 53, 56, 48, 56, 58, 120] =
        .error (.integerOverflow (digits 9223372036854775808)) := by decide +kernel
  exact ⟨.root, .stringTooLong htext (by decide), _, hoverflow, rfl⟩

end Bencode
