import Bencode.Visitor

/-! # Statistics of a tree, gathered in one walk -/
namespace Bencode

structure Stats where
  integers : Nat := 0
  strings : Nat := 0
  lists : Nat := 0
  dicts : Nat := 0
  holes : Nat := 0
  /-- Dictionary keys, which do not count as strings. -/
  keys : Nat := 0
  /-- The bytes of all strings and keys. -/
  stringBytes : Nat := 0
  maxDepth : Nat := 0
  deriving DecidableEq

namespace Stats

/-- Holes have no hook of their own, so they are counted among the nodes of any kind. -/
def visitor : Visitor Stats where
  onNode v depth s :=
    { s with
      maxDepth := max s.maxDepth depth
      holes := if v.isHole then s.holes + 1 else s.holes }
  onInteger _ s := { s with integers := s.integers + 1 }
  onBytes b s := { s with strings := s.strings + 1, stringBytes := s.stringBytes + b.length }
  onList _ s := { s with lists := s.lists + 1 }
  onDict _ s := { s with dicts := s.dicts + 1 }
  onKey k s := { s with keys := s.keys + 1, stringBytes := s.stringBytes + k.length }

def collect (v : Value) : Stats := visitor.walk v {}

def nodes (s : Stats) : Nat := s.integers + s.strings + s.lists + s.dicts + s.holes

end Stats

end Bencode
