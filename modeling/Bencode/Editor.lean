import Bencode.Visitor

/-! # Walking a tree while editing it

An editor is a visitor whose hooks may replace what they are shown. Children are walked after the
hooks of their container, so the walk goes over what the hooks left there. An editor that keeps making
its tree deeper never comes to an end, which is why the walk is given the levels that it may descend;
more levels than needed change nothing.
-/
namespace Bencode

structure Editor (σ : Type) where
  /-- Called for every node, holes included, with its depth. -/
  onNode : Value → Nat → σ → Value × σ := fun v _ s => (v, s)
  onInteger : Int64 → σ → Int64 × σ := fun n s => (n, s)
  onBytes : Bytes → σ → Bytes × σ := fun b s => (b, s)
  onList : List Value → σ → List Value × σ := fun items s => (items, s)
  onDict : List (Bytes × Value) → σ → List (Bytes × Value) × σ := fun entries s => (entries, s)

namespace Editor

variable {σ : Type}

/-- Edits the items of a list from left to right. -/
def throughItems (edit : Value → σ → Option (Value × σ)) :
    List Value → σ → Option (List Value × σ)
  | [], s => some ([], s)
  | v :: vs, s =>
    match edit v s with
    | none => none
    | some (w, s₁) =>
      match throughItems edit vs s₁ with
      | none => none
      | some (ws, s₂) => some (w :: ws, s₂)

/-- Edits the values of a dictionary in key order. -/
def throughEntries (edit : Value → σ → Option (Value × σ)) :
    List (Bytes × Value) → σ → Option (List (Bytes × Value) × σ)
  | [], s => some ([], s)
  | (k, v) :: es, s =>
    match edit v s with
    | none => none
    | some (w, s₁) =>
      match throughEntries edit es s₁ with
      | none => none
      | some (fs, s₂) => some ((k, w) :: fs, s₂)

/-- The walk at a node of the given depth; `none` if it would descend more than `levels` levels. -/
def walkWithin (editor : Editor σ) : (levels depth : Nat) → Value → σ → Option (Value × σ)
  | 0, _, _, _ => none
  | levels + 1, depth, v, s =>
    match editor.onNode v depth s with
    | (.integer n, s₁) =>
      let (m, s₂) := editor.onInteger n s₁
      some (.integer m, s₂)
    | (.bytes b, s₁) =>
      let (c, s₂) := editor.onBytes b s₁
      some (.bytes c, s₂)
    | (.list items, s₁) =>
      let (items', s₂) := editor.onList items s₁
      (throughItems (walkWithin editor levels (depth + 1)) items' s₂).map fun r => (.list r.1, r.2)
    | (.dict entries, s₁) =>
      let (entries', s₂) := editor.onDict entries s₁
      (throughEntries (walkWithin editor levels (depth + 1)) entries' s₂).map fun r =>
        (.dict r.1, r.2)
    | (.hole, s₁) => some (.hole, s₁)

/-- The edited tree and the final state, if the walk stays within the levels. -/
def walk? (editor : Editor σ) (levels : Nat) (v : Value) (s : σ) : Option (Value × σ) :=
  editor.walkWithin levels 1 v s

end Editor

end Bencode
