import Bencode.Editor

/-! # Editing by rules

A fixed set of rules says what an editor does at each kind of node. Rules that change the shape of the
tree apply down to a given depth only, so that the walk comes to an end.
-/
namespace Bencode

structure Rules where
  /-- The last depth at which nodes are replaced and containers edited. -/
  lastDepth : Nat := 4
  /-- Replacements by kind; the first one for a kind counts. -/
  replace : List (Kind × Value) := []
  /-- Added to every integer, modulo 2^64. -/
  add : Int64 := 0
  /-- Appended to every byte string. -/
  append : Bytes := []
  /-- Whether the last element of each list is removed. -/
  pop : Bool := false
  /-- Put at the end of each list, after `pop`. -/
  push : Option Value := none
  /-- The key removed from each dictionary. -/
  remove : Option Bytes := none
  /-- Put into each dictionary, after `remove`. -/
  insert : Option (Bytes × Value) := none

/-- The depth of the node at hand, and the calls so far. -/
structure Rules.State where
  depth : Nat := 0
  log : List Event := []

namespace Rules

variable (rules : Rules)

private def State.note (s : State) (e : Event) : State := { s with log := s.log ++ [e] }

def replacement? (kind : Kind) : Option Value :=
  (rules.replace.find? fun r => r.1 = kind).map Prod.snd

def editItems (items : List Value) : List Value :=
  (if rules.pop then items.dropLast else items) ++ rules.push.toList

def editEntries (entries : List (Bytes × Value)) : List (Bytes × Value) :=
  let kept := match rules.remove with
    | some k => Entries.erase k entries
    | none => entries
  match rules.insert with
  | some (k, v) => Entries.insert k v kept
  | none => kept

/-- Each call is noted before the rule changes what the hook was shown. -/
def editor : Editor State where
  onNode v depth s :=
    let s := { s.note (.node v.kind depth) with depth }
    if depth ≤ rules.lastDepth then ((rules.replacement? v.kind).getD v, s) else (v, s)
  onInteger n s := (n + rules.add, s.note (.integer n))
  onBytes b s := (b ++ rules.append, s.note (.bytes b))
  onList items s :=
    (if s.depth ≤ rules.lastDepth then rules.editItems items else items,
      s.note (.list items.length))
  onDict entries s :=
    (if s.depth ≤ rules.lastDepth then rules.editEntries entries else entries,
      s.note (.dict entries.length))

/-- The greatest depth of a value that the rules put into a tree. -/
def newDepth : Nat :=
  (rules.replace.map Prod.snd ++ rules.push.toList ++ rules.insert.toList.map Prod.snd).foldl
    (fun d v => max d v.depth) 0

/-- Levels enough for the walk over a tree: an edit happens at `lastDepth` or above and reaches as far
below it as its value. -/
def levels (v : Value) : Nat := max v.depth (rules.lastDepth + rules.newDepth)

/-- The edited tree and the calls in order. -/
def run (v : Value) : Option (Value × List Event) :=
  (rules.editor.walk? (rules.levels v) v {}).map fun r => (r.1, r.2.log)

end Rules

end Bencode
