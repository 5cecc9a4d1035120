import Bencode.Error

/-! # Values from machine numbers

Signed numbers and small unsigned ones fit as they are, large unsigned ones may not, and floating-point
numbers lose their fraction and saturate.
-/
namespace Bencode

namespace Value

def ofInt (n : Int) : Value := .integer (Int64.ofInt n)

def ofBool (b : Bool) : Value := .integer (if b then 1 else 0)

/-- An unsigned 64-bit number, if it fits. -/
def ofUnsigned (n : Nat) : Except Error Value :=
  if (n : Int) ≤ Int64.maxValue.toInt then .ok (ofInt n) else .error (.outOfRange n)

def ofText (s : String) : Value := .bytes (Utf8.encode s.toList)

end Value

/-- A binary interchange format: a sign bit, then the exponent, then the fraction. -/
structure FloatFormat where
  exponentBits : Nat
  fractionBits : Nat

namespace FloatFormat

def binary64 : FloatFormat := ⟨11, 52⟩

def binary32 : FloatFormat := ⟨8, 23⟩

/-- The nearest 64-bit integer. -/
def saturate (n : Int) : Int64 :=
  Int64.ofInt (max Int64.minValue.toInt (min Int64.maxValue.toInt n))

/-- The integer part of the number with the given bits, toward zero. A number that is no number
counts as zero, an infinite one as the end of the range. -/
def integerPart (format : FloatFormat) (bits : Nat) : Int64 :=
  let fraction := bits % (1 <<< format.fractionBits)
  let exponent := (bits >>> format.fractionBits) % (1 <<< format.exponentBits)
  let negative := (bits >>> (format.fractionBits + format.exponentBits)) % 2 = 1
  if exponent + 1 = 1 <<< format.exponentBits ∧ fraction ≠ 0 then 0
  else
    let significand := if exponent = 0 then fraction else (1 <<< format.fractionBits) + fraction
    let unit := (1 <<< (format.exponentBits - 1)) - 1 + format.fractionBits
    let magnitude :=
      if unit ≤ exponent then significand <<< (exponent - unit)
      else significand >>> (unit - max exponent 1)
    saturate (if negative then -magnitude else magnitude)

end FloatFormat

end Bencode
