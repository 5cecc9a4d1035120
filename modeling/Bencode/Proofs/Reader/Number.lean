import Bencode.Proofs.Cursor
import Bencode.Proofs.Decimal
import Bencode.Reader.Number

/-! # Reading numbers

The reader of numbers accepts the canonical decimals of signed 64-bit integers and no other text. The
characters it collects satisfy `NumberText`; on such texts the fault of spelling and the checked sum
together decide whether the text is canonical.
-/
namespace Bencode.Reader
open Decimal

/-- Digits, behind a minus or not. -/
def NumberText (text : Bytes) : Prop := ∀ b ∈ (splitSign text).2, isDigit b = true

theorem numberText_nil : NumberText [] := by
  simp [NumberText, splitSign]

theorem isNumberByte_first {b : UInt8} {first : Bool} (h : isNumberByte b first = true) :
    isNumberByte b true = true := by
  cases first with
  | true => exact h
  | false =>
    simp only [isNumberByte, Bool.and_false, Bool.or_false] at h
    simp [isNumberByte, h]

theorem splitSign_append {a : UInt8} (text more : Bytes) :
    (splitSign (a :: (text ++ more))).2 = (splitSign (a :: text)).2 ++ more := by
  by_cases ha : a = Mark.minus <;> simp [splitSign, ha]

theorem NumberText.concat {text : Bytes} {b : UInt8} (h : NumberText text)
    (hb : isNumberByte b text.isEmpty = true) : NumberText (text ++ [b]) := by
  cases text with
  | nil =>
    intro x hx
    by_cases hm : b = Mark.minus
    · simp [splitSign, hm] at hx
    · simp only [isNumberByte, List.isEmpty_nil, Bool.and_true, Bool.or_eq_true, beq_iff_eq, hm,
        or_false] at hb
      simp only [List.nil_append, splitSign, if_neg hm, List.mem_singleton] at hx
      exact hx ▸ hb
  | cons a text =>
    have hd : isDigit b = true := by simpa [isNumberByte] using hb
    intro x hx
    rw [List.cons_append, splitSign_append, List.mem_append] at hx
    rcases hx with hx | hx
    · exact h x hx
    · exact List.mem_singleton.1 hx ▸ hd

/-- Each character of a number text passes the check for its place. -/
theorem NumberText.isNumberByte {text more : Bytes} {b : UInt8}
    (h : NumberText (text ++ b :: more)) : isNumberByte b text.isEmpty = true := by
  cases text with
  | nil =>
    by_cases hm : b = Mark.minus
    · simp [Reader.isNumberByte, hm]
    · have hd : isDigit b = true := h b (by simp [splitSign, hm])
      simp [Reader.isNumberByte, hd]
  | cons a text =>
    have hd : isDigit b = true := h b (by rw [List.cons_append, splitSign_append]; simp)
    simp [Reader.isNumberByte, hd]

theorem collect_eq_ok {terminator : UInt8} {text text' : Bytes} {offset : Nat} {rest : Bytes}
    {c : Cursor} (hn : NumberText text)
    (h : collect terminator text offset rest = (.ok text', c)) :
    ∃ numeral more, text' = text ++ numeral ∧ NumberText text' ∧
      Cursor.Passes ⟨offset, rest⟩ numeral c ∧ c.rest = terminator :: more := by
  fun_induction collect terminator text offset rest with
  | case1 => simp [Cursor.fail] at h
  | case2 text offset rest =>
    simp only [Prod.mk.injEq, Except.ok.injEq] at h
    obtain ⟨rfl, rfl⟩ := h
    exact ⟨[], rest, (List.append_nil text).symm, hn, .refl _, rfl⟩
  | case3 => simp [Cursor.fail] at h
  | case4 => simp [Cursor.fail] at h
  | case5 text offset b rest _ hb _ ih =>
    obtain ⟨numeral, more, rfl, hn', hp, hc⟩ := ih (hn.concat (by simpa using hb)) h
    refine ⟨b :: numeral, more, by rw [List.append_assoc]; rfl, hn', ?_, hc⟩
    exact .cons rfl hp

/-- Number characters are collected as long as there is room, whatever follows them. -/
theorem collect_past {terminator : UInt8} (ht : isNumberByte terminator true = false)
    (text front : Bytes) (offset : Nat) (rest : Bytes) (hn : NumberText (text ++ front))
    (hl : (text ++ front).length < numberRoom) :
    collect terminator text offset (front ++ rest) =
      collect terminator (text ++ front) (offset + front.length) rest := by
  induction front generalizing text offset with
  | nil => rw [List.nil_append, List.append_nil, List.length_nil, Nat.add_zero]
  | cons b front ih =>
    have hb := hn.isNumberByte
    have hne : b ≠ terminator := fun he => by simp [← he, isNumberByte_first hb] at ht
    have hroom : ¬ text.length = numberRoom - 1 := by
      simp only [List.length_append, List.length_cons] at hl
      omega
    have hassoc : text ++ b :: front = text ++ [b] ++ front := by simp
    rw [List.cons_append, collect, if_neg hne, if_neg (by simp [hb]), if_neg hroom,
      ih (text ++ [b]) (offset + 1) (hassoc ▸ hn) (hassoc ▸ hl), ← hassoc, List.length_cons,
      Nat.add_assoc, Nat.add_comm 1]

/-- A number text of at most twenty characters is collected up to its terminator. -/
theorem collect_append {terminator : UInt8} (ht : isNumberByte terminator true = false)
    (text numeral : Bytes) (offset : Nat) (more : Bytes) (hn : NumberText (text ++ numeral))
    (hl : (text ++ numeral).length < numberRoom) :
    collect terminator text offset (numeral ++ terminator :: more) =
      (.ok (text ++ numeral), ⟨offset + numeral.length, terminator :: more⟩) := by
  rw [collect_past ht text numeral offset _ hn hl, collect, if_pos rfl]

/-- No more characters are collected than there is room for. -/
theorem length_lt_of_collect_eq_ok {terminator : UInt8} {text text' : Bytes} {offset : Nat}
    {rest : Bytes} {c : Cursor} (hl : text.length < numberRoom)
    (h : collect terminator text offset rest = (.ok text', c)) : text'.length < numberRoom := by
  fun_induction collect terminator text offset rest with
  | case1 => simp [Cursor.fail] at h
  | case2 text offset rest =>
    cases h
    exact hl
  | case3 => simp [Cursor.fail] at h
  | case4 => simp [Cursor.fail] at h
  | case5 text offset b rest _ _ hroom ih =>
    refine ih ?_ h
    rw [List.length_append, List.length_singleton]
    omega

def signed (negative : Bool) (n : Nat) : Int := if negative then -n else n

theorem checked_eq_some_iff {x : Int} {n : Int64} : checked x = some n ↔ x = n.toInt := by
  have hlo := n.le_toInt
  have hhi := n.toInt_lt
  rw [checked, Int64.toInt_minValue, Int64.toInt_maxValue]
  split
  · next hx =>
    rw [Option.some.injEq]
    constructor
    · rintro rfl
      exact (Int64.toInt_ofInt_of_le hx.1 (by omega)).symm
    · rintro rfl
      exact Int64.ofInt_toInt n
  · next hx =>
    refine ⟨fun h => by simp at h, fun h => ?_⟩
    omega

theorem checked_eq_none_iff {x : Int} : checked x = none ↔ x < -2 ^ 63 ∨ 2 ^ 63 ≤ x := by
  rw [checked, Int64.toInt_minValue, Int64.toInt_maxValue]
  split <;> simp <;> omega

theorem appendDigit_eq {negative : Bool} {n : Int64} {m : Nat} (hn : n.toInt = signed negative m)
    (d : UInt8) : appendDigit negative n d = checked (signed negative (10 * m + digitValue d)) := by
  rw [appendDigit]
  cases hm : checked (n.toInt * 10) with
  | none =>
    rw [checked_eq_none_iff, hn] at hm
    refine (checked_eq_none_iff.2 ?_).symm
    cases negative <;> simp only [signed, Bool.false_eq_true, ↓reduceIte] at hm ⊢ <;> omega
  | some m' =>
    have hm' := checked_eq_some_iff.1 hm
    rw [Option.bind_some, ← hm', hn]
    congr 1
    cases negative <;> simp only [signed, Bool.false_eq_true, ↓reduceIte] <;> omega

theorem le_foldl_digits (digits : Bytes) (m : Nat) :
    m ≤ digits.foldl (fun n b => 10 * n + digitValue b) m := by
  induction digits generalizing m with
  | nil => exact Nat.le_refl m
  | cons d digits ih =>
    have h := ih (10 * m + digitValue d)
    rw [List.foldl_cons]
    omega

/-- Checking the range after every digit is checking it once at the end, since the size never
shrinks. -/
theorem foldlM_appendDigit {negative : Bool} (digits : Bytes) {n : Int64} {m : Nat}
    (hn : n.toInt = signed negative m) :
    digits.foldlM (appendDigit negative) n =
      checked (signed negative (digits.foldl (fun n b => 10 * n + digitValue b) m)) := by
  induction digits generalizing n m with
  | nil => exact (checked_eq_some_iff.2 hn.symm).symm
  | cons d digits ih =>
    rw [List.foldlM_cons, List.foldl_cons, appendDigit_eq hn]
    cases hs : checked (signed negative (10 * m + digitValue d)) with
    | none =>
      have hle := le_foldl_digits digits (10 * m + digitValue d)
      rw [checked_eq_none_iff] at hs
      refine (checked_eq_none_iff.2 ?_).symm
      cases negative <;> simp only [signed, Bool.false_eq_true, ↓reduceIte] at hs ⊢ <;> omega
    | some n' => exact ih (checked_eq_some_iff.1 hs).symm

theorem foldlM_appendDigit_zero (negative : Bool) (digits : Bytes) :
    digits.foldlM (appendDigit negative) 0 = checked (signed negative (value digits)) := by
  have h₀ : (0 : Int64).toInt = signed negative 0 := by
    cases negative <;> rfl
  exact foldlM_appendDigit digits h₀

/-- What is decided once the characters are there: the spelling first, the range last. -/
theorem numberOf_eq (offset : Nat) (text : Bytes) :
    numberOf offset text =
      match spellingFault? (splitSign text).1 (splitSign text).2 with
      | some fault => .error (.malformed offset fault)
      | none =>
        match checked (signed (splitSign text).1 (value (splitSign text).2)) with
        | some n => .ok n
        | none => .error (.integerOverflow text) := by
  rw [← foldlM_appendDigit_zero]
  rfl

theorem spellingFault?_eq_none_iff {negative : Bool} {d : UInt8} {ds : Bytes} :
    spellingFault? negative (d :: ds) = none ↔ d ≠ Mark.zero ∨ negative = false ∧ ds = [] := by
  by_cases hd : d = Mark.zero
  · cases negative <;> simp [spellingFault?, hd]
  · simp [spellingFault?, hd]

theorem canonical_iff_splitSign {text : Bytes} (h : NumberText text) {n : Int} :
    Canonical text n ↔ spellingFault? (splitSign text).1 (splitSign text).2 = none ∧
      signed (splitSign text).1 (value (splitSign text).2) = n := by
  have hminus {d : UInt8} (hd : isDigit d = true) : d ≠ Mark.minus := ne_of_isDigit hd rfl
  constructor
  · intro hc
    cases hc with
    | zero => exact ⟨rfl, rfl⟩
    | positive h₀ hd =>
      rw [splitSign, if_neg (hminus (hd _ List.mem_cons_self))]
      exact ⟨spellingFault?_eq_none_iff.2 (.inl h₀), rfl⟩
    | negative h₀ hd => exact ⟨spellingFault?_eq_none_iff.2 (.inl h₀), rfl⟩
  · rintro ⟨hs, rfl⟩
    obtain _ | ⟨a, text⟩ := text
    · simp [splitSign, spellingFault?] at hs
    · by_cases ha : a = Mark.minus
      · simp only [NumberText, splitSign, if_pos ha] at h hs ⊢
        obtain _ | ⟨d, ds⟩ := text
        · simp [spellingFault?] at hs
        · rw [spellingFault?_eq_none_iff] at hs
          exact ha ▸ .negative (hs.resolve_right fun hf => by simp at hf) h
      · simp only [NumberText, splitSign, if_neg ha] at h hs ⊢
        rw [spellingFault?_eq_none_iff] at hs
        by_cases h₀ : a = Mark.zero
        · obtain rfl := (hs.resolve_left (not_not_intro h₀)).2
          exact h₀ ▸ .zero
        · exact .positive h₀ h

theorem numberOf_eq_ok_iff {offset : Nat} {text : Bytes} (h : NumberText text) {n : Int64} :
    numberOf offset text = .ok n ↔ Canonical text n.toInt := by
  rw [canonical_iff_splitSign h, numberOf_eq]
  cases hs : spellingFault? (splitSign text).1 (splitSign text).2 with
  | some fault => simp
  | none =>
    cases hn : checked (signed (splitSign text).1 (value (splitSign text).2)) with
    | some m => simp [checked_eq_some_iff.1 hn, Int64.toInt_inj]
    | none =>
      refine ⟨fun hf => by simp at hf, fun hf => ?_⟩
      rw [checked_eq_some_iff.2 hf.2] at hn
      simp at hn

theorem NumberText.of_canonical {text : Bytes} {n : Int} (h : Canonical text n) :
    NumberText text := by
  cases h with
  | zero =>
    intro b hb
    obtain rfl : b = Mark.zero := List.mem_singleton.1 hb
    rfl
  | positive h₀ hd =>
    rw [NumberText, splitSign, if_neg (ne_of_isDigit (hd _ List.mem_cons_self) rfl)]
    exact hd
  | negative h₀ hd => exact hd

theorem isNumberByte_of_mem_ofInt {n : Int} {b : UInt8} (h : b ∈ ofInt n) :
    isNumberByte b true = true := by
  have hdigit {d : UInt8} (hd : d ∈ digits n.natAbs) : isNumberByte d true = true := by
    simp [isNumberByte, isDigit_of_mem_digits hd]
  rw [ofInt] at h
  split at h
  · rcases List.mem_cons.1 h with rfl | h
    · rfl
    · exact hdigit h
  · exact hdigit h

/-- A number is told from what follows it by its terminator, whether or not it is in range. -/
theorem ofInt_append_inj {terminator : UInt8} (ht : isNumberByte terminator true = false)
    {m n : Int} {r s : Bytes} (h : ofInt m ++ terminator :: r = ofInt n ++ terminator :: s) :
    m = n ∧ r = s := by
  have hfront (k : Int) (more : Bytes) :
      (ofInt k ++ terminator :: more).takeWhile (isNumberByte · true) = ofInt k := by
    rw [List.takeWhile_append_of_pos fun b hb => isNumberByte_of_mem_ofInt hb,
      List.takeWhile_cons_of_neg (by simp [ht]), List.append_nil]
  have htext : ofInt m = ofInt n := by rw [← hfront m r, h, hfront n s]
  have hm : Canonical (ofInt n) m := htext ▸ canonical_ofInt m
  have hn : Canonical (ofInt n) n := canonical_ofInt n
  have htail : terminator :: r = terminator :: s := List.append_cancel_left (htext ▸ h)
  have hnumber := NumberText.of_canonical hn
  refine ⟨?_, (List.cons.inj htail).2⟩
  exact ((canonical_iff_splitSign hnumber).1 hm).2.symm.trans ((canonical_iff_splitSign hnumber).1 hn).2

/-- The reader accepts exactly the canonical decimals in front of the terminator. -/
theorem number_eq_ok_iff {terminator : UInt8} (ht : isNumberByte terminator true = false)
    {c c' : Cursor} {n : Int64} :
    number terminator c = (.ok n, c') ↔
      ∃ more, c.Passes (ofInt n.toInt) c' ∧ c'.rest = terminator :: more := by
  rw [number, Outcome.andThen_eq_ok]
  constructor
  · rintro ⟨text, c₁, hc, hn⟩
    obtain ⟨hv, rfl⟩ := Prod.mk.inj hn
    obtain ⟨numeral, more, rfl, ht', hp, hm⟩ := collect_eq_ok numberText_nil hc
    obtain rfl := ((numberOf_eq_ok_iff ht').1 hv).eq_ofInt
    exact ⟨more, hp, hm⟩
  · rintro ⟨more, hp, hm⟩
    have hn := NumberText.of_canonical (canonical_ofInt n.toInt)
    have hl := length_ofInt_le n
    have hc := collect_append ht [] (ofInt n.toInt) c.offset more hn (Nat.lt_succ_of_le hl)
    rw [List.nil_append, ← hm, ← hp.1, ← hp.2] at hc
    exact ⟨_, c', hc, Prod.ext ((numberOf_eq_ok_iff hn).2 (canonical_ofInt n.toInt)) rfl⟩

/-- Why reading a number stops after some characters: what follows neither continues nor ends the
number, or it ends one that is misspelt. -/
inductive NumberFault (terminator : UInt8) (numeral : Bytes) : Bytes → Fault → Prop where
  | ended : NumberFault terminator numeral [] .unexpectedEnd
  | invalid {b : UInt8} {rest : Bytes} (hne : b ≠ terminator)
      (hb : isNumberByte b numeral.isEmpty = false) :
      NumberFault terminator numeral (b :: rest) (.invalidDigit b)
  | tooLong {b : UInt8} {rest : Bytes} (hb : isNumberByte b numeral.isEmpty = true)
      (hl : numeral.length = numberRoom - 1) :
      NumberFault terminator numeral (b :: rest) .numberTooLong
  | misspelt {rest : Bytes} {fault : Fault}
      (h : spellingFault? (splitSign numeral).1 (splitSign numeral).2 = some fault) :
      NumberFault terminator numeral (terminator :: rest) fault

/-- The three ways to misspell a number. -/
theorem spellingFault?_eq_some {numeral : Bytes} {fault : Fault}
    (h : spellingFault? (splitSign numeral).1 (splitSign numeral).2 = some fault) :
    fault = .emptyNumber ∧ (numeral = [] ∨ numeral = [Mark.minus]) ∨
      fault = .negativeZero ∧ (∃ ds, numeral = Mark.minus :: Mark.zero :: ds) ∨
      fault = .leadingZero ∧ ∃ d ds, numeral = Mark.zero :: d :: ds := by
  obtain _ | ⟨a, text⟩ := numeral
  · cases h
    exact .inl ⟨rfl, .inl rfl⟩
  · by_cases ha : a = Mark.minus
    · subst ha
      obtain _ | ⟨d, ds⟩ := text
      · cases h
        exact .inl ⟨rfl, .inr rfl⟩
      · by_cases hd : d = Mark.zero
        · subst hd
          cases h
          exact .inr (.inl ⟨rfl, ds, rfl⟩)
        · simp [splitSign, spellingFault?, hd] at h
    · rw [splitSign, if_neg ha] at h
      by_cases h₀ : a = Mark.zero
      · subst h₀
        obtain _ | ⟨d, ds⟩ := text
        · cases h
        · cases h
          exact .inr (.inr ⟨rfl, d, ds, rfl⟩)
      · simp [spellingFault?, h₀] at h

/-- Nothing more was read before the fault. -/
private theorem NumberFault.here {terminator : UInt8} {text rest : Bytes} {offset : Nat}
    {fault : Fault} (hn : NumberText text) (hf : NumberFault terminator text rest fault) :
    ∃ numeral fault', Error.malformed offset fault = .malformed offset fault' ∧
      NumberText (text ++ numeral) ∧ Cursor.Passes ⟨offset, rest⟩ numeral ⟨offset, rest⟩ ∧
      NumberFault terminator (text ++ numeral) rest fault' := by
  refine ⟨[], fault, rfl, ?_, .refl _, ?_⟩
  · rwa [List.append_nil]
  · rwa [List.append_nil]

theorem collect_eq_error {terminator : UInt8} {text : Bytes} {offset : Nat} {rest : Bytes}
    {e : Error} {c : Cursor} (hn : NumberText text)
    (h : collect terminator text offset rest = (.error e, c)) :
    ∃ numeral fault, e = .malformed c.offset fault ∧ NumberText (text ++ numeral) ∧
      Cursor.Passes ⟨offset, rest⟩ numeral c ∧
      NumberFault terminator (text ++ numeral) c.rest fault := by
  fun_induction collect terminator text offset rest with
  | case1 text offset =>
    cases h
    exact NumberFault.ended.here hn
  | case2 => simp at h
  | case3 text offset b rest ht hb =>
    cases h
    exact (NumberFault.invalid ht (by simpa using hb)).here hn
  | case4 text offset b rest ht hb hl =>
    cases h
    exact (NumberFault.tooLong (by simpa using hb) hl).here hn
  | case5 text offset b rest ht hb hl ih =>
    obtain ⟨numeral, fault, rfl, hn', hp, hf⟩ := ih (hn.concat (by simpa using hb)) h
    rw [List.append_assoc] at hn' hf
    exact ⟨b :: numeral, fault, rfl, hn', .cons rfl hp, hf⟩

/-- The characters are the decimal of a number that is not a signed 64-bit integer. -/
def OutOfRange (text : Bytes) : Prop := ∃ n, Canonical text n ∧ (n < -2 ^ 63 ∨ 2 ^ 63 ≤ n)

theorem numberOf_eq_overflow {offset : Nat} {text : Bytes} (h : NumberText text)
    (hout : OutOfRange text) : numberOf offset text = .error (.integerOverflow text) := by
  obtain ⟨n, hn, hout⟩ := hout
  obtain ⟨hspelling, hvalue⟩ := (canonical_iff_splitSign h).1 hn
  have hnone : checked (signed (splitSign text).1 (value (splitSign text).2)) = none :=
    checked_eq_none_iff.2 (hvalue ▸ hout)
  rw [numberOf_eq, hspelling, hnone]

theorem numberOf_eq_error {offset : Nat} {text : Bytes} {e : Error} (h : NumberText text)
    (he : numberOf offset text = .error e) :
    (∃ fault, e = .malformed offset fault ∧
        spellingFault? (splitSign text).1 (splitSign text).2 = some fault) ∨
      e = .integerOverflow text ∧ OutOfRange text := by
  rw [numberOf_eq] at he
  split at he
  · next fault hs =>
    cases he
    exact .inl ⟨fault, rfl, hs⟩
  · next hs =>
    split at he
    · cases he
    · next hn =>
      cases he
      exact .inr ⟨rfl, _, (canonical_iff_splitSign h).2 ⟨hs, rfl⟩, checked_eq_none_iff.1 hn⟩

/-- A number that cannot be read has a fault, which is reported behind the characters that were read,
or is a canonical decimal out of range. -/
theorem number_eq_error {terminator : UInt8} {c c' : Cursor} {e : Error}
    (h : number terminator c = (.error e, c')) :
    ∃ numeral, NumberText numeral ∧ c.Passes numeral c' ∧
      ((∃ fault, e = .malformed c'.offset fault ∧ NumberFault terminator numeral c'.rest fault) ∨
        e = .integerOverflow numeral ∧ OutOfRange numeral ∧ numeral.length < numberRoom ∧
          ∃ more, c'.rest = terminator :: more) := by
  rw [number] at h
  cases hc : collect terminator [] c.offset c.rest with
  | mk result c₁ =>
    rw [hc] at h
    cases result with
    | error e =>
      cases h
      obtain ⟨numeral, fault, rfl, hn, hp, hf⟩ := collect_eq_error numberText_nil hc
      exact ⟨numeral, hn, hp, .inl ⟨fault, rfl, hf⟩⟩
    | ok numeral =>
      obtain ⟨he, rfl⟩ := Prod.mk.inj h
      have hl : numeral.length < numberRoom := length_lt_of_collect_eq_ok (by decide) hc
      obtain ⟨numeral, more, rfl, hn, hp, hm⟩ := collect_eq_ok numberText_nil hc
      refine ⟨numeral, hn, hp, ?_⟩
      rcases numberOf_eq_error hn he with ⟨fault, rfl, hs⟩ | ⟨rfl, hout⟩
      · exact .inl ⟨fault, rfl, hm ▸ .misspelt hs⟩
      · exact .inr ⟨rfl, hout, hl, more, hm⟩

theorem number_eq_malformed {terminator : UInt8} {c c' : Cursor} {offset : Nat} {fault : Fault}
    (h : number terminator c = (.error (.malformed offset fault), c')) :
    offset = c'.offset ∧ ∃ numeral, NumberText numeral ∧ c.Passes numeral c' ∧
      NumberFault terminator numeral c'.rest fault := by
  obtain ⟨numeral, hn, hp, ⟨fault', he, hf⟩ | ⟨he, -⟩⟩ := number_eq_error h
  · cases he
    exact ⟨rfl, numeral, hn, hp, hf⟩
  · cases he

/-- A number out of range is told apart from a misspelt one exactly if it fits the room. -/
theorem number_eq_overflow_iff {terminator : UInt8} (ht : isNumberByte terminator true = false)
    {c c' : Cursor} {text : Bytes} :
    number terminator c = (.error (.integerOverflow text), c') ↔
      OutOfRange text ∧ text.length < numberRoom ∧ c.Passes text c' ∧
        ∃ more, c'.rest = terminator :: more := by
  constructor
  · intro h
    obtain ⟨numeral, -, hp, ⟨fault, he, -⟩ | ⟨he, hout, hl, hm⟩⟩ := number_eq_error h
    · cases he
    · cases he
      exact ⟨hout, hl, hp, hm⟩
  · rintro ⟨hout, hl, hp, more, hm⟩
    have hn : NumberText text := by
      obtain ⟨n, hcanonical, -⟩ := hout
      exact .of_canonical hcanonical
    have hc := collect_append ht [] text c.offset more hn hl
    rw [List.nil_append, ← hm, ← hp.1, ← hp.2] at hc
    rw [number, hc, Outcome.andThen_ok, numberOf_eq_overflow hn hout]

end Bencode.Reader

namespace Bencode.Outcome.StepClosed
open Reader

variable {P : {α : Type} → Cursor → Outcome α → Prop}

theorem collect (h : StepClosed P) (terminator : UInt8) (text : Bytes) (offset : Nat) (rest : Bytes) :
    P ⟨offset, rest⟩ (Reader.collect terminator text offset rest) := by
  fun_induction Reader.collect terminator text offset rest with
  | case1 => exact h.fail _ _
  | case2 => exact h.stay _ _
  | case3 => exact h.fail _ _
  | case4 => exact h.fail _ _
  | case5 text offset b rest _ _ _ ih => exact h.of_next ih

theorem number (h : StepClosed P) (terminator : UInt8) (c : Cursor) : P c (Reader.number terminator c) := by
  refine h.andThen (h.collect terminator [] c.offset c.rest) fun text c₁ hc => ?_
  cases hn : numberOf c₁.offset text with
  | ok n => exact h.stay n c₁
  | error e =>
    obtain ⟨numeral, more, rfl, ht, -⟩ := collect_eq_ok numberText_nil hc
    refine h.refuse e c₁ fun expected available he => ?_
    obtain ⟨fault, rfl, -⟩ | ⟨rfl, -⟩ := numberOf_eq_error ht hn
    · cases he
    · cases he

end Bencode.Outcome.StepClosed
