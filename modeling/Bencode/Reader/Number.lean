import Bencode.Cursor
import Bencode.Decimal
import Bencode.Limits

/-! # Numbers on the wire

Integer bodies and string lengths are numbers up to a terminator. `collect` gathers the characters,
`numberOf` accepts only the canonical decimal of a signed 64-bit integer. Which fault wins is fixed by
the order: a wrong character or too many of them, then the spelling, then the range.
-/
namespace Bencode.Reader

/-- Digits, and a minus in front. -/
def isNumberByte (b : UInt8) (first : Bool) : Bool := isDigit b || (b == Mark.minus && first)

/-- The characters of a number up to its terminator, where the cursor stays. -/
def collect (terminator : UInt8) (text : Bytes) (offset : Nat) : Bytes → Outcome Bytes
  | [] => Cursor.fail ⟨offset, []⟩ .unexpectedEnd
  | b :: rest =>
    if b = terminator then (.ok text, ⟨offset, b :: rest⟩)
    else if !isNumberByte b text.isEmpty then Cursor.fail ⟨offset, b :: rest⟩ (.invalidDigit b)
    else if text.length = numberRoom - 1 then Cursor.fail ⟨offset, b :: rest⟩ .numberTooLong
    else collect terminator (text ++ [b]) (offset + 1) rest

/-- A signed 64-bit integer, if `n` is in range. -/
def checked (n : Int) : Option Int64 :=
  if Int64.minValue.toInt ≤ n ∧ n ≤ Int64.maxValue.toInt then some (Int64.ofInt n) else none

/-- One more digit; a negative number grows downward, so that the least integer can be reached. -/
def appendDigit (negative : Bool) (n : Int64) (d : UInt8) : Option Int64 :=
  (checked (n.toInt * 10)).bind fun m =>
    checked (if negative then m.toInt - digitValue d else m.toInt + digitValue d)

/-- The sign and the digits of collected number characters. -/
def splitSign : Bytes → Bool × Bytes
  | [] => (false, [])
  | b :: rest => if b = Mark.minus then (true, rest) else (false, b :: rest)

/-- The spelling fault of the digits behind an optional sign. -/
def spellingFault? (negative : Bool) : Bytes → Option Fault
  | [] => some .emptyNumber
  | d :: more =>
    if d = Mark.zero then
      if negative then some .negativeZero
      else if more.isEmpty then none else some .leadingZero
    else none

/-- The integer that collected characters spell; `offset` is where the terminator stands. -/
def numberOf (offset : Nat) (text : Bytes) : Except Error Int64 :=
  let (negative, digits) := splitSign text
  match spellingFault? negative digits with
  | some fault => .error (.malformed offset fault)
  | none =>
    match digits.foldlM (appendDigit negative) 0 with
    | some n => .ok n
    | none => .error (.integerOverflow text)

/-- A number up to its terminator, where the cursor stays. -/
def number (terminator : UInt8) (c : Cursor) : Outcome Int64 :=
  (collect terminator [] c.offset c.rest).andThen fun text c' => (numberOf c'.offset text, c')

/-- The cursor of a collected number stands on the terminator. -/
theorem collect_stop {terminator : UInt8} {text text' : Bytes} {offset : Nat} {rest : Bytes}
    {c : Cursor} (h : collect terminator text offset rest = (.ok text', c)) :
    ∃ more, c.rest = terminator :: more ∧ c.rest.length ≤ rest.length := by
  fun_induction collect terminator text offset rest with
  | case1 => simp [Cursor.fail] at h
  | case2 text offset rest =>
    simp only [Prod.mk.injEq, Except.ok.injEq] at h
    obtain ⟨-, rfl⟩ := h
    exact ⟨rest, rfl, Nat.le_refl _⟩
  | case3 => simp [Cursor.fail] at h
  | case4 => simp [Cursor.fail] at h
  | case5 text offset b rest _ _ _ ih =>
    obtain ⟨more, hm, hl⟩ := ih h
    exact ⟨more, hm, Nat.le_succ_of_le hl⟩

theorem number_stop {terminator : UInt8} {c c' : Cursor} {n : Int64}
    (h : number terminator c = (.ok n, c')) :
    ∃ more, c'.rest = terminator :: more ∧ c'.rest.length ≤ c.rest.length := by
  obtain ⟨text, c₁, h₁, h₂⟩ := Outcome.andThen_eq_ok.1 h
  simp only [Prod.mk.injEq] at h₂
  exact h₂.2 ▸ collect_stop h₁

end Bencode.Reader
