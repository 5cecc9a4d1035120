import Mathlib.Algebra.GroupWithZero.Nat
import Bencode.Proofs.Entries
import Bencode.Proofs.Value
import Bencode.Stats

/-! # The nodes of a tree

`nodes` lists a tree with everything below it, in the order in which a walk comes by. What a walk adds up
is the sum over this list, and with sorted keys its members are the ends of the paths into the tree.
-/
namespace Bencode

namespace Value

mutual

/-- The tree itself, then the nodes of its children in their order. -/
def nodes : Value → List Value
  | .list items => .list items :: nodesItems items
  | .dict entries => .dict entries :: nodesEntries entries
  | .integer n => [.integer n]
  | .bytes b => [.bytes b]
  | .hole => [.hole]

def nodesItems : List Value → List Value
  | [] => []
  | v :: vs => v.nodes ++ nodesItems vs

def nodesEntries : List (Bytes × Value) → List Value
  | [] => []
  | (_, v) :: es => v.nodes ++ nodesEntries es

end

theorem mem_nodesItems {vs : List Value} {w : Value} :
    w ∈ nodesItems vs ↔ ∃ v ∈ vs, w ∈ v.nodes := by
  induction vs with
  | nil => simp [nodesItems]
  | cons v vs ih => simp [nodesItems, ih]

theorem mem_nodesEntries {es : List (Bytes × Value)} {w : Value} :
    w ∈ nodesEntries es ↔ ∃ e ∈ es, w ∈ e.2.nodes := by
  induction es with
  | nil => simp [nodesEntries]
  | cons e es ih => simp [nodesEntries, ih]

theorem mem_nodes_list {vs : List Value} {w : Value} :
    w ∈ (list vs).nodes ↔ w = .list vs ∨ ∃ v ∈ vs, w ∈ v.nodes := by
  rw [nodes, List.mem_cons, mem_nodesItems]

theorem mem_nodes_dict {es : List (Bytes × Value)} {w : Value} :
    w ∈ (dict es).nodes ↔ w = .dict es ∨ ∃ e ∈ es, w ∈ e.2.nodes := by
  rw [nodes, List.mem_cons, mem_nodesEntries]

theorem self_mem_nodes (v : Value) : v ∈ v.nodes := by
  cases v <;> simp [nodes]

theorem holeFree_iff_notMem_nodes {v : Value} : v.HoleFree ↔ .hole ∉ v.nodes := by
  induction v with
  | integer n => simp [HoleFree, nodes]
  | bytes b => simp [HoleFree, nodes]
  | list vs ih =>
    rw [holeFree_list, mem_nodes_list, not_or, not_exists]
    simp only [reduceCtorEq, not_false_iff, true_and, not_and]
    exact forall₂_congr ih
  | dict es ih =>
    rw [holeFree_dict, mem_nodes_dict, not_or, not_exists]
    simp only [reduceCtorEq, not_false_iff, true_and, not_and]
    exact forall₂_congr ih
  | hole => simp [HoleFree, nodes]

@[simp] theorem child?_list_index (vs : List Value) (i : Nat) :
    (list vs).child? (.index i) = vs[i]? := rfl

@[simp] theorem child?_list_key (vs : List Value) (k : Bytes) :
    (list vs).child? (.key k) = none := rfl

@[simp] theorem child?_dict_key (es : List (Bytes × Value)) (k : Bytes) :
    (dict es).child? (.key k) = Entries.get? k es := rfl

@[simp] theorem child?_dict_index (es : List (Bytes × Value)) (i : Nat) :
    (dict es).child? (.index i) = none := rfl

@[simp] theorem child?_hole (s : Segment) : hole.child? s = none := by
  cases s <;> rfl

/-- A child is an item of a list or the value of an entry. -/
theorem child?_eq_some {v w : Value} {s : Segment} (h : v.child? s = some w) :
    (∃ vs i, v = .list vs ∧ s = .index i ∧ vs[i]? = some w) ∨
      ∃ es k, v = .dict es ∧ s = .key k ∧ Entries.get? k es = some w := by
  cases v with
  | list vs =>
    cases s with
    | key k => cases h
    | index i => exact .inl ⟨vs, i, rfl, rfl, h⟩
  | dict es =>
    cases s with
    | key k => exact .inr ⟨es, k, rfl, rfl, h⟩
    | index i => cases h
  | _ => cases s <;> cases h

theorem follow?_cons_eq_some {v w : Value} {s : Segment} {p : Path} :
    v.follow? (s :: p) = some w ↔ ∃ c, v.child? s = some c ∧ c.follow? p = some w := by
  rw [follow?_cons, Option.bind_eq_some_iff]

theorem mem_nodes_of_child? {v c w : Value} {s : Segment} (h : v.child? s = some c)
    (hw : w ∈ c.nodes) : w ∈ v.nodes := by
  rcases child?_eq_some h with ⟨vs, i, rfl, rfl, hc⟩ | ⟨es, k, rfl, rfl, hc⟩
  · exact mem_nodes_list.2 (.inr ⟨c, List.mem_of_getElem? hc, hw⟩)
  · exact mem_nodes_dict.2 (.inr ⟨(k, c), Entries.mem_of_get?_eq_some hc, hw⟩)

/-- Every path into a tree ends at one of its nodes. -/
theorem mem_nodes_of_follow? {v w : Value} {p : Path} (h : v.follow? p = some w) :
    w ∈ v.nodes := by
  induction p generalizing v with
  | nil =>
    cases h
    exact self_mem_nodes _
  | cons s p ih =>
    obtain ⟨c, hc, h⟩ := follow?_cons_eq_some.1 h
    exact mem_nodes_of_child? hc (ih h)

/-- With sorted keys every node is the end of a path. -/
theorem exists_follow?_of_mem_nodes {v w : Value} (hv : v.Sorted) (h : w ∈ v.nodes) :
    ∃ p, v.follow? p = some w := by
  induction v with
  | list vs ih =>
    rcases mem_nodes_list.1 h with rfl | ⟨c, hc, h⟩
    · exact ⟨[], rfl⟩
    · obtain ⟨i, hi⟩ := List.mem_iff_getElem?.1 hc
      obtain ⟨p, hp⟩ := ih c hc (sorted_list.1 hv c hc) h
      exact ⟨.index i :: p, follow?_cons_eq_some.2 ⟨c, hi, hp⟩⟩
  | dict es ih =>
    obtain ⟨hes, hvs⟩ := sorted_dict.1 hv
    rcases mem_nodes_dict.1 h with rfl | ⟨⟨k, c⟩, hc, h⟩
    · exact ⟨[], rfl⟩
    · obtain ⟨p, hp⟩ := ih (k, c) hc (hvs (k, c) hc) h
      exact ⟨.key k :: p, follow?_cons_eq_some.2 ⟨c, hes.get?_of_mem hc, hp⟩⟩
  | _ =>
    rw [nodes, List.mem_singleton] at h
    exact ⟨[], congrArg some h.symm⟩

theorem Sorted.child? {v c : Value} {s : Segment} (hv : v.Sorted) (h : v.child? s = some c) :
    c.Sorted := by
  rcases child?_eq_some h with ⟨vs, i, rfl, rfl, hc⟩ | ⟨es, k, rfl, rfl, hc⟩
  · exact sorted_list.1 hv c (List.mem_of_getElem? hc)
  · exact (sorted_dict.1 hv).2 (k, c) (Entries.mem_of_get?_eq_some hc)

theorem Sorted.follow? {v w : Value} {p : Path} (hv : v.Sorted) (h : v.follow? p = some w) :
    w.Sorted := by
  induction p generalizing v with
  | nil =>
    cases h
    exact hv
  | cons s p ih =>
    obtain ⟨c, hc, h⟩ := follow?_cons_eq_some.1 h
    exact ih (hv.child? hc) h

theorem Sorted.of_mem_nodes {v w : Value} (hv : v.Sorted) (h : w ∈ v.nodes) : w.Sorted := by
  obtain ⟨p, hp⟩ := exists_follow?_of_mem_nodes hv h
  exact hv.follow? hp

/-- With sorted keys a tree is without holes just if no path leads to one. -/
theorem holeFree_iff_follow? {v : Value} (hv : v.Sorted) :
    v.HoleFree ↔ ∀ p, v.follow? p ≠ some .hole := by
  rw [holeFree_iff_notMem_nodes]
  constructor
  · intro h p hp
    exact h (mem_nodes_of_follow? hp)
  · intro h hm
    obtain ⟨p, hp⟩ := exists_follow?_of_mem_nodes hv hm
    exact h p hp

end Value

namespace Visitor

variable {σ : Type}

/-- The hooks that are called at a node before its children are walked. -/
def enter (visitor : Visitor σ) (depth : Nat) (v : Value) (s : σ) : σ :=
  match v with
  | .integer n => visitor.onInteger n (visitor.onNode (.integer n) depth s)
  | .bytes b => visitor.onBytes b (visitor.onNode (.bytes b) depth s)
  | .list items => visitor.onList items (visitor.onNode (.list items) depth s)
  | .dict entries => visitor.onDict entries (visitor.onNode (.dict entries) depth s)
  | .hole => visitor.onNode .hole depth s

end Visitor

/-- The sum of a measure over the keys of a node. -/
def Value.keySum (ofKey : Bytes → Nat) : Value → Nat
  | .dict entries => (entries.map fun e => ofKey e.1).sum
  | _ => 0

namespace Visitor

variable {σ : Type} {visitor : Visitor σ} {measure : σ → Nat} {ofNode : Value → Nat}
  {ofKey : Bytes → Nat}

theorem measure_walkItems {vs : List Value}
    (h : ∀ v ∈ vs, ∀ depth s,
      measure (visitor.walkAt depth v s) = measure s + (v.nodes.map ofNode).sum)
    (depth : Nat) (s : σ) :
    measure (visitor.walkItems depth vs s) =
      measure s + ((Value.nodesItems vs).map ofNode).sum := by
  induction vs generalizing s with
  | nil => simp [walkItems, Value.nodesItems]
  | cons v vs ih =>
    obtain ⟨hv, hvs⟩ := List.forall_mem_cons.1 h
    rw [walkItems, ih hvs, hv, Value.nodesItems, List.map_append, List.sum_append, Nat.add_assoc]

theorem measure_walkEntries (hkey : ∀ k s, measure (visitor.onKey k s) = measure s + ofKey k)
    {es : List (Bytes × Value)}
    (h : ∀ e ∈ es, ∀ depth s,
      measure (visitor.walkAt depth e.2 s) = measure s + (e.2.nodes.map ofNode).sum)
    (depth : Nat) (s : σ) :
    measure (visitor.walkEntries depth es s) =
      measure s + (es.map fun e => ofKey e.1).sum + ((Value.nodesEntries es).map ofNode).sum := by
  induction es generalizing s with
  | nil => simp [walkEntries, Value.nodesEntries]
  | cons e es ih =>
    obtain ⟨he, hes⟩ := List.forall_mem_cons.1 h
    rw [walkEntries, ih hes, he, hkey, Value.nodesEntries, List.map_append, List.sum_append,
      List.map_cons, List.sum_cons]
    omega

/-- If the hooks at a node, its keys counted in, add a number to a measure of the state, then a walk
adds the sum of these numbers over all nodes. -/
theorem measure_walkAt
    (hnode : ∀ depth v s,
      measure (visitor.enter depth v s) + v.keySum ofKey = measure s + ofNode v)
    (hkey : ∀ k s, measure (visitor.onKey k s) = measure s + ofKey k)
    (v : Value) (depth : Nat) (s : σ) :
    measure (visitor.walkAt depth v s) = measure s + (v.nodes.map ofNode).sum := by
  induction v generalizing depth s with
  | integer n =>
    have henter : measure (visitor.enter depth (.integer n) s) = measure s + ofNode (.integer n) :=
      hnode depth (.integer n) s
    rwa [Value.nodes, List.map_singleton, List.sum_singleton]
  | bytes b =>
    have henter : measure (visitor.enter depth (.bytes b) s) = measure s + ofNode (.bytes b) :=
      hnode depth (.bytes b) s
    rwa [Value.nodes, List.map_singleton, List.sum_singleton]
  | list items ih =>
    have henter : measure (visitor.enter depth (.list items) s) =
        measure s + ofNode (.list items) := hnode depth (.list items) s
    have hitems := measure_walkItems ih (depth + 1) (visitor.enter depth (.list items) s)
    rw [henter] at hitems
    rw [Value.nodes, List.map_cons, List.sum_cons, ← Nat.add_assoc]
    exact hitems
  | dict entries ih =>
    have henter : measure (visitor.enter depth (.dict entries) s) +
        (entries.map fun e => ofKey e.1).sum = measure s + ofNode (.dict entries) :=
      hnode depth (.dict entries) s
    have hentries :=
      measure_walkEntries hkey ih (depth + 1) (visitor.enter depth (.dict entries) s)
    rw [henter] at hentries
    rw [Value.nodes, List.map_cons, List.sum_cons, ← Nat.add_assoc]
    exact hentries
  | hole =>
    have henter : measure (visitor.enter depth .hole s) = measure s + ofNode .hole :=
      hnode depth .hole s
    rwa [Value.nodes, List.map_singleton, List.sum_singleton]

end Visitor

namespace Stats

theorem sum_map_toNat {α : Type} (p : α → Bool) (l : List α) :
    (l.map fun a => (p a).toNat).sum = l.countP p := by
  induction l with
  | nil => rfl
  | cons a l ih =>
    rw [List.map_cons, List.sum_cons, ih, List.countP_cons]
    cases p a <;> simp [Nat.add_comm]

/-- A measure that is zero at the start is in the end the sum of what the nodes and their keys add. -/
theorem measure_collect (measure : Stats → Nat) {ofNode : Value → Nat} {ofKey : Bytes → Nat}
    (hzero : measure {} = 0)
    (hnode : ∀ depth v s,
      measure (visitor.enter depth v s) + v.keySum ofKey = measure s + ofNode v)
    (hkey : ∀ k s, measure (visitor.onKey k s) = measure s + ofKey k) (v : Value) :
    measure (collect v) = (v.nodes.map ofNode).sum := by
  rw [collect, Visitor.walk, Visitor.measure_walkAt hnode hkey, hzero, Nat.zero_add]

/-- How many nodes of a kind have been counted. -/
def count (s : Stats) : Kind → Nat
  | .integer => s.integers
  | .bytes => s.strings
  | .list => s.lists
  | .dict => s.dicts
  | .hole => s.holes

/-- For each kind the nodes of that kind are counted, each once. -/
theorem count_collect (v : Value) (kind : Kind) :
    (collect v).count kind = v.nodes.countP (·.kind = kind) := by
  have hzero : count {} kind = 0 := by cases kind <;> rfl
  have hnode (depth : Nat) (v : Value) (s : Stats) :
      (visitor.enter depth v s).count kind + v.keySum (fun _ => 0) =
        s.count kind + (decide (v.kind = kind)).toNat := by
    cases v <;> cases kind <;>
      simp [Visitor.enter, visitor, count, Value.keySum, Value.kind, Value.isHole, List.map_const']
  have hkey (k : Bytes) (s : Stats) : (visitor.onKey k s).count kind = s.count kind + 0 := by
    cases kind <;> rfl
  rw [← sum_map_toNat]
  exact measure_collect (·.count kind) hzero hnode hkey v

theorem holes_collect_eq_zero_iff {v : Value} : (collect v).holes = 0 ↔ v.HoleFree := by
  have hcount : (collect v).holes = v.nodes.countP (·.kind = .hole) := count_collect v .hole
  rw [hcount, List.countP_eq_zero, Value.holeFree_iff_notMem_nodes]
  constructor
  · intro h hm
    exact h .hole hm (by decide)
  · intro h w hw hhole
    cases w with
    | hole => exact h hw
    | _ => simp [Value.kind] at hhole

end Stats

end Bencode
