import Bencode.Proofs.Reader.Number

/-! # What becomes of every text in front of a terminator

It is read as the number whose canonical decimal it is, refused as such a decimal out of range, or refused
for its first fault. `Misread` names that fault by the text alone, without the reader: a wrong character
comes first, then a character too many, and only number characters that fit are looked at for their spelling.
-/
namespace Bencode.Reader
open Decimal

/-- The fault for which a text is no number, and how many of its characters are read before it shows. -/
inductive Misread (t : Bytes) : Nat → Fault → Prop where
  | invalid {front back : Bytes} {b : UInt8} (ht : t = front ++ b :: back) (hn : NumberText front)
      (hl : front.length ≤ 20) (hd : isDigit b = false) (hm : b = Mark.minus → front ≠ []) :
      Misread t front.length (.invalidDigit b)
  | tooLong {front back : Bytes} {b : UInt8} (ht : t = front ++ b :: back)
      (hn : NumberText front) (hl : front.length = 20) (hd : isDigit b = true) :
      Misread t 20 .numberTooLong
  | empty (ht : t = [] ∨ t = [Mark.minus]) : Misread t t.length .emptyNumber
  | negativeZero {ds : Bytes} (ht : t = Mark.minus :: Mark.zero :: ds) (hn : NumberText t)
      (hl : t.length ≤ 20) : Misread t t.length .negativeZero
  | leadingZero {d : UInt8} {ds : Bytes} (ht : t = Mark.zero :: d :: ds) (hn : NumberText t)
      (hl : t.length ≤ 20) : Misread t t.length .leadingZero

theorem isNumberByte_eq_false_iff {b : UInt8} {front : Bytes} :
    isNumberByte b front.isEmpty = false ↔ isDigit b = false ∧ (b = Mark.minus → front ≠ []) := by
  simp only [isNumberByte, Bool.or_eq_false_iff, Bool.and_eq_false_imp, beq_iff_eq,
    List.isEmpty_eq_false_iff]

/-- A text is read up to its first character that is wrong or one too many, or to its end. -/
theorem numberText_append_or_misread (text rest : Bytes) (hn : NumberText text) (hl : text.length ≤ 20) :
    (NumberText (text ++ rest) ∧ (text ++ rest).length ≤ 20) ∨
      ∃ k fault, Misread (text ++ rest) k fault := by
  induction rest generalizing text with
  | nil =>
    rw [List.append_nil]
    exact .inl ⟨hn, hl⟩
  | cons b rest ih =>
    by_cases hb : isNumberByte b text.isEmpty = true
    · by_cases hfull : text.length = 20
      · have hempty : text.isEmpty = false := by
          rw [List.isEmpty_eq_false_iff, ← List.length_pos_iff, hfull]
          decide
        have hd : isDigit b = true := by simpa [isNumberByte, hempty] using hb
        exact .inr ⟨20, _, .tooLong rfl hn hfull hd⟩
      · have hroom : (text ++ [b]).length ≤ 20 := by
          rw [List.length_append, List.length_singleton]
          omega
        rw [List.append_cons]
        exact ih (text ++ [b]) (hn.concat hb) hroom
    · obtain ⟨hd, hm⟩ := isNumberByte_eq_false_iff.1 (Bool.eq_false_iff.2 hb)
      exact .inr ⟨text.length, _, .invalid rfl hn hl hd hm⟩

theorem Misread.of_spellingFault {t : Bytes} {fault : Fault} (hn : NumberText t) (hl : t.length ≤ 20)
    (h : spellingFault? (splitSign t).1 (splitSign t).2 = some fault) : Misread t t.length fault := by
  obtain ⟨rfl, ht⟩ | ⟨rfl, ds, ht⟩ | ⟨rfl, d, ds, ht⟩ := spellingFault?_eq_some h
  · exact .empty ht
  · exact .negativeZero ht hn hl
  · exact .leadingZero ht hn hl

theorem misread_or_eq_ofInt (t : Bytes) :
    (∃ k fault, Misread t k fault) ∨ ∃ n, t = ofInt n ∧ t.length ≤ 20 := by
  rcases numberText_append_or_misread [] t numberText_nil (Nat.zero_le 20) with ⟨hn, hl⟩ | h
  · cases hs : spellingFault? (splitSign t).1 (splitSign t).2 with
    | some fault => exact .inl ⟨t.length, fault, .of_spellingFault hn hl hs⟩
    | none => exact .inr ⟨_, ((canonical_iff_splitSign hn).2 ⟨hs, rfl⟩).eq_ofInt, hl⟩
  · exact .inl h

theorem Misread.exists_fault {t : Bytes} {k : Nat} {fault : Fault} (h : Misread t k fault)
    {terminator : UInt8} (hmem : terminator ∉ t) (more : Bytes) :
    ∃ front back, t = front ++ back ∧ front.length = k ∧ NumberText front ∧ front.length ≤ 20 ∧
      NumberFault terminator front (back ++ terminator :: more) fault := by
  cases h with
  | @invalid front back b ht hn hl hd hm =>
    have hne : b ≠ terminator := fun he => hmem (ht ▸ he ▸ List.mem_append_right front List.mem_cons_self)
    exact ⟨front, b :: back, ht, rfl, hn, hl, .invalid hne (isNumberByte_eq_false_iff.2 ⟨hd, hm⟩)⟩
  | @tooLong front back b ht hn hl hd =>
    have hb : isNumberByte b front.isEmpty = true := by simp [isNumberByte, hd]
    exact ⟨front, b :: back, ht, hl, hn, Nat.le_of_eq hl, .tooLong hb hl⟩
  | empty ht =>
    have hs : spellingFault? (splitSign t).1 (splitSign t).2 = some .emptyNumber := by
      rcases ht with rfl | rfl <;> rfl
    have hn : NumberText t := by
      rcases ht with rfl | rfl <;> simp [NumberText, splitSign]
    have hl : t.length ≤ 20 := by
      rcases ht with rfl | rfl <;> decide
    exact ⟨t, [], (List.append_nil t).symm, rfl, hn, hl, .misspelt hs⟩
  | negativeZero ht hn hl =>
    exact ⟨t, [], (List.append_nil t).symm, rfl, hn, hl, .misspelt (by rw [ht]; rfl)⟩
  | leadingZero ht hn hl =>
    exact ⟨t, [], (List.append_nil t).symm, rfl, hn, hl, .misspelt (by rw [ht]; rfl)⟩

section
variable {terminator : UInt8} (hterm : isNumberByte terminator true = false)
include hterm

/-- A fault behind number characters that fit is where reading stops. -/
theorem number_of_fault {front rest : Bytes} {fault : Fault} (hn : NumberText front)
    (hl : front.length ≤ 20) (hf : NumberFault terminator front rest fault) (offset : Nat) :
    number terminator ⟨offset, front ++ rest⟩ =
      Cursor.fail ⟨offset + front.length, rest⟩ fault := by
  rw [number, collect_past hterm [] front offset rest hn (Nat.lt_succ_of_le hl), List.nil_append]
  cases hf with
  | ended => rfl
  | invalid hne hb =>
    rw [collect, if_neg hne, if_pos (by rw [hb]; rfl)]
    rfl
  | @tooLong b rest hb hl =>
    have hne : b ≠ terminator := fun he => by simp [← he, isNumberByte_first hb] at hterm
    rw [collect, if_neg hne, if_neg (by simp [hb]), if_pos hl]
    rfl
  | misspelt hs =>
    rw [collect, if_pos rfl, Outcome.andThen_ok, numberOf_eq, hs]
    rfl

theorem Misread.number_eq {t : Bytes} (hmem : terminator ∉ t) {k : Nat} {fault : Fault}
    (h : Misread t k fault) (offset : Nat) (more : Bytes) :
    number terminator ⟨offset, t ++ terminator :: more⟩ =
      (Cursor.advance ⟨offset, t ++ terminator :: more⟩ k).fail fault := by
  obtain ⟨front, back, rfl, rfl, hn, hl, hf⟩ := h.exists_fault hmem more
  rw [List.append_assoc, number_of_fault hterm hn hl hf, Cursor.advance, List.drop_left]

theorem number_ofInt {n : Int} (hlo : -2 ^ 63 ≤ n) (hhi : n < 2 ^ 63) (offset : Nat) (more : Bytes) :
    number terminator ⟨offset, ofInt n ++ terminator :: more⟩ =
      (.ok (Int64.ofInt n), ⟨offset + (ofInt n).length, terminator :: more⟩) := by
  have hn : (Int64.ofInt n).toInt = n := Int64.toInt_ofInt_of_le hlo hhi
  have hp : Cursor.Passes ⟨offset, ofInt n ++ terminator :: more⟩ (ofInt (Int64.ofInt n).toInt)
      ⟨offset + (ofInt n).length, terminator :: more⟩ := by
    rw [hn]
    exact Cursor.passes_append _ _ _
  exact (number_eq_ok_iff hterm).2 ⟨more, hp, rfl⟩

theorem number_ofInt_overflow {n : Int} (hout : n < -2 ^ 63 ∨ 2 ^ 63 ≤ n) (hl : (ofInt n).length ≤ 20)
    (offset : Nat) (more : Bytes) :
    number terminator ⟨offset, ofInt n ++ terminator :: more⟩ =
      (.error (.integerOverflow (ofInt n)), ⟨offset + (ofInt n).length, terminator :: more⟩) :=
  (number_eq_overflow_iff hterm).2
    ⟨⟨n, canonical_ofInt n, hout⟩, Nat.lt_succ_of_le hl, Cursor.passes_append _ _ _, more, rfl⟩

variable {t : Bytes} (hmem : terminator ∉ t) (offset : Nat) (more : Bytes)
include hmem

/-- Every text has one of three outcomes. -/
theorem number_outcome :
    (∃ n, (t = ofInt n ∧ -2 ^ 63 ≤ n ∧ n < 2 ^ 63) ∧
        number terminator ⟨offset, t ++ terminator :: more⟩ =
          (.ok (Int64.ofInt n), ⟨offset + t.length, terminator :: more⟩)) ∨
      (∃ n, (t = ofInt n ∧ (n < -2 ^ 63 ∨ 2 ^ 63 ≤ n)) ∧ t.length ≤ 20 ∧
        number terminator ⟨offset, t ++ terminator :: more⟩ =
          (.error (.integerOverflow t), ⟨offset + t.length, terminator :: more⟩)) ∨
      ∃ k fault, Misread t k fault ∧ number terminator ⟨offset, t ++ terminator :: more⟩ =
        (Cursor.advance ⟨offset, t ++ terminator :: more⟩ k).fail fault := by
  rcases misread_or_eq_ofInt t with ⟨k, fault, h⟩ | ⟨n, rfl, hl⟩
  · exact .inr (.inr ⟨k, fault, h, h.number_eq hterm hmem offset more⟩)
  · by_cases hrange : -2 ^ 63 ≤ n ∧ n < 2 ^ 63
    · exact .inl ⟨n, ⟨rfl, hrange⟩, number_ofInt hterm hrange.1 hrange.2 offset more⟩
    · have hout : n < -2 ^ 63 ∨ 2 ^ 63 ≤ n := by omega
      exact .inr (.inl ⟨n, ⟨rfl, hout⟩, hl, number_ofInt_overflow hterm hout hl offset more⟩)

theorem number_text_eq_ok_iff {n : Int} {c' : Cursor} :
    (∃ m : Int64, m.toInt = n ∧ number terminator ⟨offset, t ++ terminator :: more⟩ = (.ok m, c')) ↔
      (t = ofInt n ∧ -2 ^ 63 ≤ n ∧ n < 2 ^ 63) ∧ c' = ⟨offset + t.length, terminator :: more⟩ := by
  constructor
  · rintro ⟨m, rfl, h⟩
    rcases number_outcome hterm hmem offset more with
      ⟨n, hn, ht⟩ | ⟨n, -, -, ht⟩ | ⟨k, fault, -, ht⟩
    · cases ht.symm.trans h
      rw [Int64.toInt_ofInt_of_le hn.2.1 hn.2.2]
      exact ⟨hn, rfl⟩
    · cases ht.symm.trans h
    · cases ht.symm.trans h
  · rintro ⟨⟨rfl, hlo, hhi⟩, rfl⟩
    exact ⟨Int64.ofInt n, Int64.toInt_ofInt_of_le hlo hhi, number_ofInt hterm hlo hhi offset more⟩

theorem number_text_eq_overflow_iff {text : Bytes} {c' : Cursor} :
    number terminator ⟨offset, t ++ terminator :: more⟩ = (.error (.integerOverflow text), c') ↔
      ((∃ n, t = ofInt n ∧ (n < -2 ^ 63 ∨ 2 ^ 63 ≤ n)) ∧ t.length ≤ 20) ∧
        text = t ∧ c' = ⟨offset + t.length, terminator :: more⟩ := by
  constructor
  · intro h
    rcases number_outcome hterm hmem offset more with
      ⟨n, -, ht⟩ | ⟨n, hn, hl, ht⟩ | ⟨k, fault, -, ht⟩
    · cases ht.symm.trans h
    · cases ht.symm.trans h
      exact ⟨⟨⟨n, hn⟩, hl⟩, rfl, rfl⟩
    · cases ht.symm.trans h
  · rintro ⟨⟨⟨n, rfl, hout⟩, hl⟩, rfl, rfl⟩
    exact number_ofInt_overflow hterm hout hl offset more

theorem number_text_eq_malformed_iff {position : Nat} {fault : Fault} {c' : Cursor} :
    number terminator ⟨offset, t ++ terminator :: more⟩ = (.error (.malformed position fault), c') ↔
      ∃ k, Misread t k fault ∧ position = offset + k ∧
        c' = Cursor.advance ⟨offset, t ++ terminator :: more⟩ k := by
  constructor
  · intro h
    rcases number_outcome hterm hmem offset more with
      ⟨n, -, ht⟩ | ⟨n, -, -, ht⟩ | ⟨k, fault', hk, ht⟩
    · cases ht.symm.trans h
    · cases ht.symm.trans h
    · cases ht.symm.trans h
      exact ⟨k, hk, rfl, rfl⟩
  · rintro ⟨k, hk, rfl, rfl⟩
    exact hk.number_eq hterm hmem offset more

end

/-- Checking every step of the sum refuses nothing that is in range at the end. -/
theorem foldlM_appendDigit_eq_none_iff (negative : Bool) (ds : Bytes) :
    ds.foldlM (appendDigit negative) 0 = none ↔
      signed negative (value ds) < -2 ^ 63 ∨ 2 ^ 63 ≤ signed negative (value ds) := by
  rw [foldlM_appendDigit_zero]
  exact checked_eq_none_iff

/-- Numbers are read exactly. A text in front of its terminator yields a number, with the cursor on the
terminator, exactly if it is the canonical decimal of that number and the number is a signed 64-bit integer;
it overflows exactly if it is the canonical decimal of another number and fits the room of twenty characters;
every other text is refused for its fault. The sum of the digits fails for no number in range. -/
theorem number_reads_exactly {terminator : UInt8} (hterm : isNumberByte terminator true = false) {t : Bytes}
    (hmem : terminator ∉ t) {c : Cursor} {more : Bytes} (hc : c.rest = t ++ terminator :: more) :
    (∀ (n : Int) (c' : Cursor), (∃ m : Int64, m.toInt = n ∧ number terminator c = (.ok m, c')) ↔
        (t = ofInt n ∧ -2 ^ 63 ≤ n ∧ n < 2 ^ 63) ∧ c' = ⟨c.offset + t.length, terminator :: more⟩) ∧
      (∀ text c', number terminator c = (.error (.integerOverflow text), c') ↔
        ((∃ n, t = ofInt n ∧ (n < -2 ^ 63 ∨ 2 ^ 63 ≤ n)) ∧ t.length ≤ 20) ∧
          text = t ∧ c' = ⟨c.offset + t.length, terminator :: more⟩) ∧
      (∀ position fault c', number terminator c = (.error (.malformed position fault), c') ↔
        ∃ k, Misread t k fault ∧ position = c.offset + k ∧ c' = c.advance k) ∧
      ((¬ ∃ n, t = ofInt n ∧ (-2 ^ 63 ≤ n ∧ n < 2 ^ 63 ∨ t.length ≤ 20)) →
        ∃ k fault, Misread t k fault ∧ number terminator c = (c.advance k).fail fault) ∧
      ∀ negative ds, ds.foldlM (appendDigit negative) 0 = none ↔
        signed negative (value ds) < -2 ^ 63 ∨ 2 ^ 63 ≤ signed negative (value ds) := by
  obtain ⟨offset, rest⟩ := c
  obtain rfl : rest = t ++ terminator :: more := hc
  refine ⟨?_, ?_, ?_, ?_, foldlM_appendDigit_eq_none_iff⟩
  · exact fun n c' => number_text_eq_ok_iff hterm hmem offset more
  · exact fun text c' => number_text_eq_overflow_iff hterm hmem offset more
  · exact fun position fault c' => number_text_eq_malformed_iff hterm hmem offset more
  · intro hno
    rcases number_outcome hterm hmem offset more with
      ⟨n, hn, -⟩ | ⟨n, hn, hl, -⟩ | h
    · exact absurd ⟨n, hn.1, .inl hn.2⟩ hno
    · exact absurd ⟨n, hn.1, .inr hl⟩ hno
    · exact h

/-- The least signed 64-bit integer is read in an integer; the first one too large is refused as the length
of a byte string. -/
theorem number_reads_exactly_bounds :
    number Mark.close ⟨1, [45, 57, 50, 50, 51, 51, 55, 50, 48, 51, 54, 56, 53, 52, 55, 55, 53, 56, 48, 56,
        Mark.close]⟩ = (.ok Int64.minValue, ⟨21, [Mark.close]⟩) ∧
      number Mark.colon ⟨0, [57, 50, 50, 51, 51, 55, 50, 48, 51, 54, 56, 53, 52, 55, 55, 53, 56, 48, 56,
        Mark.colon]⟩ = (.error (.integerOverflow [57, 50, 50, 51, 51, 55, 50, 48, 51, 54, 56, 53, 52, 55, 55,
          53, 56, 48, 56]), ⟨19, [Mark.colon]⟩) := by
  have hclose : isNumberByte Mark.close true = false := by decide
  have hcolon : isNumberByte Mark.colon true = false := by decide
  have hleast : [45, 57, 50, 50, 51, 51, 55, 50, 48, 51, 54, 56, 53, 52, 55, 55, 53, 56, 48, 56] =
      ofInt (-2 ^ 63) :=
    Canonical.eq_ofInt (.negative (d := 57) (by decide) (by decide +kernel))
  have hlarge : [57, 50, 50, 51, 51, 55, 50, 48, 51, 54, 56, 53, 52, 55, 55, 53, 56, 48, 56] =
      ofInt (2 ^ 63) :=
    Canonical.eq_ofInt (.positive (d := 57) (by decide) (by decide +kernel))
  constructor
  · have hrest : Cursor.rest ⟨1, [45, 57, 50, 50, 51, 51, 55, 50, 48, 51, 54, 56, 53, 52, 55, 55, 53, 56, 48,
        56, Mark.close]⟩ = [45, 57, 50, 50, 51, 51, 55, 50, 48, 51, 54, 56, 53, 52, 55, 55, 53, 56, 48, 56] ++
          Mark.close :: [] := rfl
    have hread := ((number_reads_exactly hclose (by decide) hrest).1 _ _).2
      ⟨⟨hleast, by decide, by decide⟩, rfl⟩
    obtain ⟨m, hm, h⟩ := hread
    obtain rfl : m = Int64.minValue := Int64.toInt_inj.1 hm
    exact h
  · have hrest : Cursor.rest ⟨0, [57, 50, 50, 51, 51, 55, 50, 48, 51, 54, 56, 53, 52, 55, 55, 53, 56, 48, 56,
        Mark.colon]⟩ = [57, 50, 50, 51, 51, 55, 50, 48, 51, 54, 56, 53, 52, 55, 55, 53, 56, 48, 56] ++
          Mark.colon :: [] := rfl
    exact ((number_reads_exactly hcolon (by decide) hrest).2.1 _ _).2
      ⟨⟨⟨_, hlarge, .inr (by decide)⟩, by decide⟩, rfl, rfl⟩

end Bencode.Reader
