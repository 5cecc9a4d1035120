import Bencode.Reader.Tree

/-! # Inputs with a position

An input keeps all its data and a position in it. Reading starts at the position and moves it; offsets
count from the start of the data.
-/
namespace Bencode

structure Input where
  data : Bytes
  position : Nat := 0
  deriving DecidableEq

namespace Input

/-- An input over the contents of a file, if there is such a file. -/
def ofFile (contents? : Option Bytes) : Except Error Input :=
  match contents? with
  | some data => .ok { data }
  | none => .error (.storage .notFound)

def cursor (s : Input) : Cursor := ⟨s.position, s.data.drop s.position⟩

def current? (s : Input) : Option UInt8 := s.data[s.position]?

/-- Whether a byte is left to read. -/
def more (s : Input) : Bool := s.current?.isSome

/-- Moves past one byte; does nothing at the end. -/
def next (s : Input) : Input :=
  if s.position < s.data.length then { s with position := s.position + 1 } else s

def reset (s : Input) : Input := { s with position := 0 }

def remaining (s : Input) : Nat := s.data.length - s.position

/-- The outcome of reading at the position, and the input moved to where reading stopped. -/
def read {α : Type} (s : Input) (reader : Cursor → Outcome α) : Except Error α × Input :=
  let (result, c) := reader s.cursor
  (result, { s with position := c.offset })

def take (s : Input) (n : Nat) : Except Error Bytes × Input := s.read (·.take n)

/-- Decodes what is left from the position on. -/
def decode (s : Input) (limits : Limits) : Except Error Value × Input :=
  s.read (Reader.document limits)

end Input

end Bencode
