import Mathlib.Algebra.BigOperators.Group.List.Lemmas
import Bencode.Proofs.Nodes

/-! # Statistics are counts of the tree

A walk gathers the statistics of a tree in one state that goes through all hooks. What it adds up is the sum
of what each node gives, and these sums are told from the tree without a walk: from its nodes, its byte
strings and its depth. The greatest depth is no sum; there the walk is described by its upper bounds, with
the state and the depth at which it comes to a tree left open.
-/
namespace Bencode

namespace Value

theorem nodesItems_eq_flatMap (vs : List Value) : nodesItems vs = vs.flatMap nodes := by
  induction vs with
  | nil => rfl
  | cons v vs ih => rw [nodesItems, ih, List.flatMap_cons]

theorem nodesEntries_eq_nodesItems (es : List (Bytes × Value)) :
    nodesEntries es = nodesItems (es.map Prod.snd) := by
  induction es with
  | nil => rfl
  | cons e es ih => rw [nodesEntries, ih, List.map_cons, nodesItems]

theorem nodes_eq_cons (v : Value) : v.nodes = v :: v.members.flatMap nodes := by
  cases v with
  | list vs => rw [nodes, nodesItems_eq_flatMap, members]
  | dict es => rw [nodes, nodesEntries_eq_nodesItems, nodesItems_eq_flatMap, members]
  | _ => rfl

end Value

namespace Stats

variable {n depth : Nat}

theorem maxDepth_walkItems_le_iff {vs : List Value}
    (h : ∀ v ∈ vs, ∀ s, (visitor.walkAt (depth + 1) v s).maxDepth ≤ n ↔
      s.maxDepth ≤ n ∧ depth + v.depth ≤ n) (s : Stats) :
    (visitor.walkItems (depth + 1) vs s).maxDepth ≤ n ↔
      s.maxDepth ≤ n ∧ ∀ v ∈ vs, depth + v.depth ≤ n := by
  induction vs generalizing s with
  | nil => simp [Visitor.walkItems]
  | cons v vs ih =>
    obtain ⟨hv, hvs⟩ := List.forall_mem_cons.1 h
    rw [Visitor.walkItems, ih hvs, hv, List.forall_mem_cons, and_assoc]

theorem maxDepth_walkEntries_le_iff {es : List (Bytes × Value)}
    (h : ∀ e ∈ es, ∀ s, (visitor.walkAt (depth + 1) e.2 s).maxDepth ≤ n ↔
      s.maxDepth ≤ n ∧ depth + e.2.depth ≤ n) (s : Stats) :
    (visitor.walkEntries (depth + 1) es s).maxDepth ≤ n ↔
      s.maxDepth ≤ n ∧ ∀ e ∈ es, depth + e.2.depth ≤ n := by
  induction es generalizing s with
  | nil => simp [Visitor.walkEntries]
  | cons e es ih =>
    obtain ⟨he, hes⟩ := List.forall_mem_cons.1 h
    have hkey : (visitor.onKey e.1 s).maxDepth = s.maxDepth := rfl
    rw [Visitor.walkEntries, ih hes, he, hkey, List.forall_mem_cons, and_assoc]

/-- Below a tree the walk comes to no depth but those of its levels. -/
theorem maxDepth_walkAt_le_iff (v : Value) (depth : Nat) (s : Stats) :
    (visitor.walkAt (depth + 1) v s).maxDepth ≤ n ↔ s.maxDepth ≤ n ∧ depth + v.depth ≤ n := by
  induction v generalizing depth s with
  | list vs ih =>
    have henter : ((visitor.enter (depth + 1) (.list vs) s).maxDepth ≤ n) ↔
        s.maxDepth ≤ n ∧ depth + 1 ≤ n := Nat.max_le
    have hitems := maxDepth_walkItems_le_iff (fun v hv s => ih v hv (depth + 1) s)
      (visitor.enter (depth + 1) (.list vs) s)
    have hmembers : (∀ v ∈ vs, depth + 1 + v.depth ≤ n) ↔
        ∀ x ∈ (Value.list vs).members, depth + 1 + x.depth ≤ n := Iff.rfl
    rw [henter, and_assoc, hmembers, ← Value.add_depth_le_iff] at hitems
    exact hitems
  | dict es ih =>
    have henter : ((visitor.enter (depth + 1) (.dict es) s).maxDepth ≤ n) ↔
        s.maxDepth ≤ n ∧ depth + 1 ≤ n := Nat.max_le
    have hentries := maxDepth_walkEntries_le_iff (fun e he s => ih e he (depth + 1) s)
      (visitor.enter (depth + 1) (.dict es) s)
    have hmembers : (∀ e ∈ es, depth + 1 + e.2.depth ≤ n) ↔
        ∀ x ∈ (Value.dict es).members, depth + 1 + x.depth ≤ n := by
      rw [Value.members, List.forall_mem_map]
    rw [henter, and_assoc, hmembers, ← Value.add_depth_le_iff] at hentries
    exact hentries
  | _ => exact Nat.max_le

theorem maxDepth_collect (v : Value) : (collect v).maxDepth = v.depth := by
  apply eq_of_forall_ge_iff
  intro n
  have hwalk : (collect v).maxDepth ≤ n ↔ 0 ≤ n ∧ 0 + v.depth ≤ n := maxDepth_walkAt_le_iff v 0 {}
  rw [hwalk, Nat.zero_add, and_iff_right (Nat.zero_le n)]

end Stats

end Bencode
