import Bencode.Bytes

/-! # Canonical decimals

The one decimal of a number: no leading zero, no sign but a minus, no minus on zero.
-/
namespace Bencode.Decimal

/-- The digits of `n`, most significant first. -/
def digits (n : Nat) : Bytes :=
  if n < 10 then [48 + n.toUInt8] else digits (n / 10) ++ [48 + (n % 10).toUInt8]
termination_by n

def ofInt (n : Int) : Bytes :=
  if n < 0 then Mark.minus :: digits n.natAbs else digits n.natAbs

/-- The same decimal as text. -/
def text (n : Int) : List Char := (ofInt n).map fun b => Char.ofNat b.toNat

/-- The number that a string of digits denotes. -/
def value (text : Bytes) : Nat := text.foldl (fun n b => 10 * n + digitValue b) 0

theorem digits_ne_nil (n : Nat) : digits n ≠ [] := by
  rw [digits]
  split <;> simp

theorem value_append_digit (text : Bytes) (b : UInt8) :
    value (text ++ [b]) = 10 * value text + digitValue b := by
  simp [value]

private theorem digitValue_ofNat {d : Nat} (h : d < 10) : digitValue (48 + d.toUInt8) = d := by
  have : (48 + d.toUInt8).toNat = 48 + d := by
    rw [UInt8.toNat_add]
    simp only [UInt8.reduceToNat, Nat.toUInt8, UInt8.toNat_ofNat']
    omega
  simp [digitValue, this]

/-- Reading the digits of a number gives the number back. -/
theorem value_digits (n : Nat) : value (digits n) = n := by
  induction n using Nat.strongRecOn with
  | ind n ih =>
    rw [digits]
    split
    · next h => simpa [value] using digitValue_ofNat h
    · next h =>
      rw [value_append_digit, ih (n / 10) (by omega), digitValue_ofNat (Nat.mod_lt _ (by decide))]
      omega

end Bencode.Decimal
