import Bencode.Proofs.Build.Leaves
import Bencode.Proofs.FirstHole

/-! # The places of a tree in the order of a walk

The children of a node are the items of a list under their indices or the values of a dictionary under their
keys. `preorder` puts a node in front of all that is below it and goes through the children in their order.
In a sorted tree it lists every path that leads somewhere, once, each path before its extensions.
-/
namespace Bencode

/-- The first path leads to a node above the other one, or comes before it. -/
def Path.Precedes (p q : Path) : Prop := (∃ s r, q = p ++ s :: r) ∨ Path.Before p q

theorem Path.Precedes.cons {p q : Path} (h : Precedes p q) (s : Segment) :
    Precedes (s :: p) (s :: q) := by
  rcases h with ⟨t, r, rfl⟩ | h
  · exact .inl ⟨t, r, rfl⟩
  · exact .inr (h.cons s)

namespace Value

def itemsFrom (i : Nat) : List Value → List (Segment × Value)
  | [] => []
  | v :: vs => (.index i, v) :: itemsFrom (i + 1) vs

/-- The children of a node, each with the segment that leads to it. -/
def children : Value → List (Segment × Value)
  | .list items => itemsFrom 0 items
  | .dict entries => entries.map fun e => (.key e.1, e.2)
  | .integer _ | .bytes _ | .hole => []

mutual

/-- All nodes with their paths, a node before its children and these in their order. -/
def preorder : Value → List (Path × Value)
  | .integer n => [([], .integer n)]
  | .bytes b => [([], .bytes b)]
  | .list items => ([], .list items) :: preorderItems 0 items
  | .dict entries => ([], .dict entries) :: preorderEntries entries
  | .hole => [([], .hole)]

def preorderItems (i : Nat) : List Value → List (Path × Value)
  | [] => []
  | v :: vs => under (.index i) v.preorder ++ preorderItems (i + 1) vs

def preorderEntries : List (Bytes × Value) → List (Path × Value)
  | [] => []
  | (k, v) :: es => under (.key k) v.preorder ++ preorderEntries es

end

variable {v x c : Value} {p : Path} {s : Segment}

theorem mem_itemsFrom {vs : List Value} {i : Nat} :
    (s, c) ∈ itemsFrom i vs ↔ ∃ j, s = .index (i + j) ∧ vs[j]? = some c := by
  induction vs generalizing i with
  | nil => simp [itemsFrom]
  | cons v vs ih =>
    rw [itemsFrom, List.mem_cons, ih]
    constructor
    · rintro (h | ⟨j, rfl, hc⟩)
      · cases h
        exact ⟨0, rfl, rfl⟩
      · exact ⟨j + 1, by rw [Nat.add_assoc, Nat.add_comm 1 j], hc⟩
    · rintro ⟨_ | j, rfl, hc⟩
      · cases hc
        exact .inl rfl
      · exact .inr ⟨j, by rw [Nat.add_assoc, Nat.add_comm 1 j], hc⟩

theorem snd_mem_of_mem_children (h : (s, c) ∈ v.children) :
    (∃ vs, v = .list vs ∧ c ∈ vs) ∨ ∃ es k, v = .dict es ∧ (k, c) ∈ es := by
  cases v with
  | list vs =>
    obtain ⟨j, -, hc⟩ := mem_itemsFrom.1 h
    exact .inl ⟨vs, rfl, List.mem_of_getElem? hc⟩
  | dict es =>
    obtain ⟨⟨k, u⟩, he, heq⟩ := List.mem_map.1 h
    cases heq
    exact .inr ⟨es, k, rfl, he⟩
  | _ => cases h

/-- Induction with a hypothesis for every child, whatever the container. -/
theorem inductOnChildren {motive : Value → Prop}
    (step : ∀ v, (∀ e ∈ v.children, motive e.2) → motive v) (v : Value) : motive v := by
  induction v with
  | list vs ih =>
    refine step _ fun e he => ?_
    rcases snd_mem_of_mem_children he with ⟨us, heq, hu⟩ | ⟨es, k, heq, -⟩
    · cases heq
      exact ih e.2 hu
    · cases heq
  | dict es ih =>
    refine step _ fun e he => ?_
    rcases snd_mem_of_mem_children he with ⟨us, heq, -⟩ | ⟨fs, k, heq, hu⟩
    · cases heq
    · cases heq
      exact ih (k, e.2) hu
  | _ => exact step _ (List.forall_mem_nil _)

/-- The segments lead to the children; of a dictionary only its own keys need be sorted. -/
theorem child?_of_mem_children (hkeys : ∀ es, v = .dict es → Entries.Sorted es)
    (h : (s, c) ∈ v.children) : v.child? s = some c := by
  cases v with
  | list vs =>
    obtain ⟨j, rfl, hc⟩ := mem_itemsFrom.1 h
    rwa [Nat.zero_add]
  | dict es =>
    obtain ⟨⟨k, u⟩, he, heq⟩ := List.mem_map.1 h
    cases heq
    exact (hkeys es rfl).get?_of_mem he
  | _ => cases h

/-- In a sorted tree the children are what the segments lead to. -/
theorem mem_children_iff (hv : v.Sorted) : (s, c) ∈ v.children ↔ v.child? s = some c := by
  constructor
  · refine child?_of_mem_children ?_
    rintro es rfl
    exact (sorted_dict.1 hv).1
  · intro h
    rcases child?_eq_some h with ⟨vs, i, rfl, rfl, hc⟩ | ⟨es, k, rfl, rfl, hc⟩
    · exact mem_itemsFrom.2 ⟨i, by rw [Nat.zero_add], hc⟩
    · exact List.mem_map.2 ⟨(k, c), Entries.mem_of_get?_eq_some hc, rfl⟩

theorem pairwise_before_itemsFrom (vs : List Value) (i : Nat) :
    (itemsFrom i vs).Pairwise fun a b => a.1.Before b.1 := by
  induction vs generalizing i with
  | nil => exact .nil
  | cons v vs ih =>
    refine List.pairwise_cons.2 ⟨fun b hb => ?_, ih (i + 1)⟩
    obtain ⟨j, hj, -⟩ := mem_itemsFrom.1 hb
    rw [hj]
    exact show i < i + 1 + j by omega

theorem pairwise_before_children (hv : v.Sorted) :
    v.children.Pairwise fun a b => a.1.Before b.1 := by
  cases v with
  | list vs => exact pairwise_before_itemsFrom vs 0
  | dict es =>
    have hkeys : es.Pairwise fun a b => a.1 < b.1 := List.pairwise_map.1 (sorted_dict.1 hv).1
    exact List.pairwise_map.2 hkeys
  | _ => exact .nil

theorem preorderItems_eq_flatMap (vs : List Value) (i : Nat) :
    preorderItems i vs = (itemsFrom i vs).flatMap fun e => under e.1 e.2.preorder := by
  induction vs generalizing i with
  | nil => rfl
  | cons v vs ih => rw [preorderItems, itemsFrom, List.flatMap_cons, ih]

theorem preorderEntries_eq_flatMap (es : List (Bytes × Value)) :
    preorderEntries es = es.flatMap fun e => under (.key e.1) e.2.preorder := by
  induction es with
  | nil => rfl
  | cons e es ih => rw [preorderEntries, List.flatMap_cons, ih]

theorem preorder_eq_cons (v : Value) :
    v.preorder = ([], v) :: v.children.flatMap fun e => under e.1 e.2.preorder := by
  cases v with
  | list vs => rw [preorder, preorderItems_eq_flatMap, children]
  | dict es => rw [preorder, preorderEntries_eq_flatMap, children, List.flatMap_map]
  | _ => rfl

theorem mem_preorder : (p, x) ∈ v.preorder ↔
    (p = [] ∧ x = v) ∨ ∃ s c q, (s, c) ∈ v.children ∧ (q, x) ∈ c.preorder ∧ p = s :: q := by
  rw [preorder_eq_cons, List.mem_cons, List.mem_flatMap, Prod.mk.injEq]
  refine or_congr_right ⟨?_, ?_⟩
  · rintro ⟨⟨s, c⟩, he, h⟩
    obtain ⟨q, hq, rfl⟩ := mem_under.1 h
    exact ⟨s, c, q, he, hq, rfl⟩
  · rintro ⟨s, c, q, he, hq, rfl⟩
    exact ⟨(s, c), he, mem_under.2 ⟨q, hq, rfl⟩⟩

/-- In a sorted tree the places are the ends of the paths. -/
theorem mem_preorder_iff (hv : v.Sorted) : (p, x) ∈ v.preorder ↔ v.follow? p = some x := by
  induction v using inductOnChildren generalizing p with
  | step v ih =>
    have hchild {s c q} (hc : v.child? s = some c) :
        (q, x) ∈ c.preorder ↔ c.follow? q = some x :=
      ih (s, c) ((mem_children_iff hv).2 hc) (hv.child? hc)
    rw [mem_preorder]
    simp only [mem_children_iff hv]
    constructor
    · rintro (⟨rfl, rfl⟩ | ⟨s, c, q, hc, hq, rfl⟩)
      · rfl
      · exact follow?_cons_eq_some.2 ⟨c, hc, (hchild hc).1 hq⟩
    · intro h
      cases p with
      | nil => exact .inl ⟨rfl, (Option.some.inj h).symm⟩
      | cons s q =>
        obtain ⟨c, hc, hq⟩ := follow?_cons_eq_some.1 h
        exact .inr ⟨s, c, q, hc, (hchild hc).2 hq, rfl⟩

/-- In a sorted tree a place precedes all places after it. -/
theorem pairwise_precedes_preorder (hv : v.Sorted) :
    v.preorder.Pairwise fun a b => Path.Precedes a.1 b.1 := by
  induction v using inductOnChildren with
  | step v ih =>
    rw [preorder_eq_cons]
    refine List.pairwise_cons.2 ⟨?_, List.pairwise_flatMap.2 ⟨?_, ?_⟩⟩
    · rintro ⟨p, x⟩ hp
      obtain ⟨⟨s, c⟩, -, h⟩ := List.mem_flatMap.1 hp
      obtain ⟨q, -, rfl⟩ := mem_under.1 h
      exact .inl ⟨s, q, rfl⟩
    · rintro ⟨s, c⟩ he
      have hc := ih (s, c) he (hv.child? ((mem_children_iff hv).1 he))
      exact List.pairwise_map.2 (hc.imp fun h => h.cons s)
    · refine (pairwise_before_children hv).imp fun {a b} hab => ?_
      rintro ⟨p, x⟩ hp ⟨q, y⟩ hq
      obtain ⟨p, -, rfl⟩ := mem_under.1 hp
      obtain ⟨q, -, rfl⟩ := mem_under.1 hq
      exact .inr (Path.before_of_segment hab p q)

end Value

end Bencode
