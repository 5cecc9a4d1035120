import Bencode.Decimal
import Bencode.Value
import Bencode.Text.Escape

/-! # Paths into a tree

A path is a sequence of dictionary keys and list indices. `Path.text` shows it as
`root["key"][3]`; `Value.findHole` is the path of the first hole in depth-first order.
-/
namespace Bencode

inductive Segment where
  | key (k : Bytes)
  | index (i : Nat)
  deriving DecidableEq

abbrev Path := List Segment

/-- A key stands between quotes, an index does not. -/
def Segment.text : Segment → List Char
  | .key k => '[' :: (Escape.quoted (Utf8.lossy k) ++ [']'])
  | .index i => '[' :: (Decimal.text i ++ [']'])

def Path.text (p : Path) : String := String.ofList ("root".toList ++ p.flatMap Segment.text)

namespace Value

def child? (v : Value) : Segment → Option Value
  | .key k => v.get? k
  | .index i => v.item? i

/-- The node at the end of a path. -/
def follow? (v : Value) : Path → Option Value
  | [] => some v
  | s :: rest => (v.child? s).bind fun w => w.follow? rest

@[simp] theorem follow?_nil (v : Value) : v.follow? [] = some v := rfl

@[simp] theorem follow?_cons (v : Value) (s : Segment) (p : Path) :
    v.follow? (s :: p) = (v.child? s).bind fun w => w.follow? p := rfl

theorem follow?_append (v : Value) (p q : Path) :
    v.follow? (p ++ q) = (v.follow? p).bind fun w => w.follow? q := by
  induction p generalizing v with
  | nil => rfl
  | cons s p ih =>
    rw [List.cons_append, follow?_cons, follow?_cons]
    cases v.child? s with
    | none => rfl
    | some w => exact ih w

mutual

/-- Searches a tree for a hole in depth-first order, with the path to the tree given. The path grows by a
segment before a child is searched and is cut back if there is no hole in it. -/
def findHoleAt : Value → Path → Bool × Path
  | .integer _, path | .bytes _, path => (false, path)
  | .list items, path => findHoleAmongItems 0 items path
  | .dict entries, path => findHoleAmongEntries entries path
  | .hole, path => (true, path)

def findHoleAmongItems (i : Nat) : List Value → Path → Bool × Path
  | [], path => (false, path)
  | v :: vs, path =>
    match v.findHoleAt (path ++ [.index i]) with
    | (true, path') => (true, path')
    | (false, path') => findHoleAmongItems (i + 1) vs path'.dropLast

def findHoleAmongEntries : List (Bytes × Value) → Path → Bool × Path
  | [], path => (false, path)
  | (k, v) :: es, path =>
    match v.findHoleAt (path ++ [.key k]) with
    | (true, path') => (true, path')
    | (false, path') => findHoleAmongEntries es path'.dropLast

end

/-- The path of the first hole, if there is one. -/
def findHole (v : Value) : Option Path :=
  match v.findHoleAt [] with
  | (true, path) => some path
  | (false, _) => none

end Value

end Bencode
