/-! # Byte strings and the marks of the wire format

All input and output is a sequence of bytes. `Mark` names the bytes with a meaning of their own on
the wire; everything else is payload or a digit.
-/
namespace Bencode

abbrev Bytes := List UInt8

namespace Mark

/-- The letter i, which opens an integer. -/
abbrev integer : UInt8 := 105
/-- The letter l, which opens a list. -/
abbrev list : UInt8 := 108
/-- The letter d, which opens a dictionary. -/
abbrev dict : UInt8 := 100
/-- The letter e, which closes what a letter opened. -/
abbrev close : UInt8 := 101
/-- The colon between the length of a byte string and its body. -/
abbrev colon : UInt8 := 58
abbrev minus : UInt8 := 45
abbrev zero : UInt8 := 48

end Mark

/-- An ASCII decimal digit. -/
def isDigit (b : UInt8) : Bool := 48 ≤ b && b ≤ 57

/-- The number that a digit stands for. -/
def digitValue (b : UInt8) : Nat := b.toNat - 48

theorem digitValue_lt {b : UInt8} (h : isDigit b = true) : digitValue b < 10 := by
  simp only [isDigit, Bool.and_eq_true, decide_eq_true_eq, UInt8.le_iff_toNat_le] at h
  simp only [digitValue]
  have h₂ : b.toNat ≤ 57 := h.2
  omega

end Bencode
