/-! # Limits of decoding -/
namespace Bencode

/-- Nesting accepted by default; the root is at depth one. -/
def defaultMaxDepth : Nat := 10

/-- The longest byte string accepted by default, 128 MiB. -/
def defaultMaxStringLength : Nat := 128 * 1024 * 1024

/-- Room for a number on the wire: a sign, nineteen digits and the byte that ends it. -/
def numberRoom : Nat := 21

/-- With `strictKeys` the keys of a dictionary must strictly increase; without it they come in any
order and of equal keys the last one counts. -/
structure Limits where
  maxDepth : Nat := defaultMaxDepth
  maxStringLength : Nat := defaultMaxStringLength
  strictKeys : Bool := true
  deriving DecidableEq

end Bencode
