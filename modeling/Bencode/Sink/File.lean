import Bencode.Sink

/-! # Files as sinks

`OpenFile` is a file with a write position: writing replaces what stands there, filling a gap with
zeros, and moves the position; changing the length does not. `FileSink` remembers what it wrote last
and how much, beside the file itself.
-/
namespace Bencode

structure OpenFile where
  contents : Bytes := []
  position : Nat := 0
  deriving DecidableEq

namespace OpenFile

def write (f : OpenFile) (b : Bytes) : OpenFile where
  contents :=
    f.contents.take f.position ++ List.replicate (f.position - f.contents.length) 0 ++ b ++
      f.contents.drop (f.position + b.length)
  position := f.position + b.length

def setLength (f : OpenFile) (n : Nat) : OpenFile :=
  { f with contents := f.contents.take n ++ List.replicate (n - f.contents.length) 0 }

def seek (f : OpenFile) (position : Nat) : OpenFile := { f with position }

end OpenFile

structure FileSink where
  file : OpenFile := {}
  last : Option UInt8 := none
  written : Nat := 0
  deriving DecidableEq

namespace FileSink

/-- A sink on a new, empty file, if its directory exists. -/
def create (directoryExists : Bool) : Except Error FileSink :=
  if directoryExists then .ok {} else .error (.storage .notFound)

/-- Adding nothing touches neither the file nor the last byte. -/
def add (s : FileSink) (b : Bytes) : FileSink :=
  if b.isEmpty then s
  else { file := s.file.write b, last := b.getLast?, written := s.written + b.length }

def clear (s : FileSink) : FileSink where
  file := (s.file.setLength 0).seek 0
  last := none
  written := 0

instance : Sink FileSink where
  contents s := s.file.contents
  add s b := .ok (s.add b)
  clear := clear
  last? := last

end FileSink

end Bencode
