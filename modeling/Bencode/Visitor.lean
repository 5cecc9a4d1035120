import Bencode.Value

/-! # Walking a tree

A walk visits every node in depth-first order, the root at depth one. At each node it calls the hook
for nodes of any kind, then the hook for the kind, and then walks the children; each key is visited
before its value. A visitor carries its state through all hooks.
-/
namespace Bencode

structure Visitor (σ : Type) where
  /-- Called for every node, holes included, with its depth. -/
  onNode : Value → Nat → σ → σ := fun _ _ s => s
  onInteger : Int64 → σ → σ := fun _ s => s
  onBytes : Bytes → σ → σ := fun _ s => s
  onList : List Value → σ → σ := fun _ s => s
  onDict : List (Bytes × Value) → σ → σ := fun _ s => s
  onKey : Bytes → σ → σ := fun _ s => s

namespace Visitor

variable {σ : Type}

mutual

def walkAt (visitor : Visitor σ) (depth : Nat) (v : Value) (s : σ) : σ :=
  match v with
  | .integer n => visitor.onInteger n (visitor.onNode (.integer n) depth s)
  | .bytes b => visitor.onBytes b (visitor.onNode (.bytes b) depth s)
  | .list items =>
    walkItems visitor (depth + 1) items
      (visitor.onList items (visitor.onNode (.list items) depth s))
  | .dict entries =>
    walkEntries visitor (depth + 1) entries
      (visitor.onDict entries (visitor.onNode (.dict entries) depth s))
  | .hole => visitor.onNode .hole depth s

def walkItems (visitor : Visitor σ) (depth : Nat) (items : List Value) (s : σ) : σ :=
  match items with
  | [] => s
  | v :: vs => walkItems visitor depth vs (walkAt visitor depth v s)

def walkEntries (visitor : Visitor σ) (depth : Nat) (entries : List (Bytes × Value)) (s : σ) : σ :=
  match entries with
  | [] => s
  | (k, v) :: es => walkEntries visitor depth es (walkAt visitor depth v (visitor.onKey k s))

end

def walk (visitor : Visitor σ) (v : Value) (s : σ) : σ := visitor.walkAt 1 v s

end Visitor

/-- A call of a visitor's hook, with what identifies its argument. -/
inductive Event where
  | node (kind : Kind) (depth : Nat)
  | integer (n : Int64)
  | bytes (b : Bytes)
  | list (length : Nat)
  | dict (length : Nat)
  | key (k : Bytes)
  deriving DecidableEq

/-- Writes down every call in order. -/
def Visitor.recorder : Visitor (List Event) where
  onNode v depth log := log ++ [.node v.kind depth]
  onInteger n log := log ++ [.integer n]
  onBytes b log := log ++ [.bytes b]
  onList items log := log ++ [.list items.length]
  onDict entries log := log ++ [.dict entries.length]
  onKey k log := log ++ [.key k]

def Value.events (v : Value) : List Event := Visitor.recorder.walk v []

end Bencode
