import Bencode.Path

/-! # Causes of failure

`Fault` says which rule of the wire format an input breaks; `Error` adds all that can go wrong beyond
it. `message` is the text shown for each cause.
-/
namespace Bencode

inductive Fault where
  | unexpectedEnd
  | invalidLead (found : UInt8)
  | unterminated (container : Kind)
  | invalidDigit (found : UInt8)
  | emptyNumber
  | leadingZero
  | negativeZero
  | numberTooLong
  | negativeLength
  | stringTooLong (length max : Nat)
  | invalidKey (found : UInt8)
  | keyOrder (key : Bytes)
  | duplicateKey (key : Bytes)
  | tooDeep (max : Nat)
  | trailingData
  deriving DecidableEq

/-- Why a file or a bounded destination refuses. -/
inductive StorageFault where
  | notFound
  | full
  deriving DecidableEq

inductive Error where
  /-- The input breaks a rule of the wire format at an offset from its start. -/
  | malformed (offset : Nat) (fault : Fault)
  /-- A canonical number on the wire lies outside the 64-bit range. -/
  | integerOverflow (text : Bytes)
  | kindMismatch (expected found : Kind)
  | noRoot
  | unassigned (hole : Path)
  | sourceExhausted (expected available : Nat)
  /-- A machine number given for a value exceeds the signed 64-bit range. -/
  | outOfRange (n : Nat)
  | indexOutOfRange (i : Nat)
  | storage (fault : StorageFault)
  deriving DecidableEq

/-- The rule of the wire format that the input breaks, if that is the cause. -/
def Error.fault? : Error → Option Fault
  | .malformed _ fault => some fault
  | _ => none

def Error.isSyntax (e : Error) : Bool := e.fault?.isSome

private def shown (b : UInt8) : String := String.ofList (Escape.byte b)

private def lossyText (b : Bytes) : String := String.ofList (Utf8.lossy b)

def Fault.message : Fault → String
  | .unexpectedEnd => "unexpected end of input"
  | .invalidLead b => s!"expected one of d/l/i/digit, found '{shown b}'"
  | .unterminated k => s!"missing terminating 'e' for {k.name}"
  | .invalidDigit b => s!"invalid digit '{shown b}' in number"
  | .emptyNumber => "number has no digits"
  | .leadingZero => "number has a leading zero"
  | .negativeZero => "negative zero is not allowed"
  | .numberTooLong => "integer too large for conversion buffer"
  | .negativeLength => "negative string length"
  | .stringTooLong length max => s!"string length {length} exceeds maximum of {max}"
  | .invalidKey b => s!"dictionary key must be a byte string, found '{shown b}'"
  | .keyOrder key => s!"dictionary key \"{lossyText key}\" out of order"
  | .duplicateKey key => s!"duplicate dictionary key \"{lossyText key}\""
  | .tooDeep max => s!"maximum parser depth exceeded ({max})"
  | .trailingData => "trailing data after top-level value"

def StorageFault.message : StorageFault → String
  | .notFound => "not found"
  | .full => "no room left"

def Error.message : Error → String
  | .malformed offset fault => s!"syntax error at offset {offset}: {fault.message}"
  | .integerOverflow text => s!"integer out of range for i64: {lossyText text}"
  | .kindMismatch expected found =>
    s!"type mismatch: expected {expected.name}, found {found.name}"
  | .noRoot => "no value to encode"
  | .unassigned hole => s!"unassigned placeholder at {Path.text hole}"
  | .sourceExhausted expected available =>
    s!"source exhausted before expected byte count reached (expected {expected}, available {available})"
  | .outOfRange n => s!"value {n} does not fit in an i64"
  | .indexOutOfRange i => s!"list index {i} out of range"
  | .storage fault => s!"io error: {fault.message}"

end Bencode
