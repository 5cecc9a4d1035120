import Bencode.Proofs.Build.Independent

/-! # Rebuilding a tree from its leaves

The leaves of a tree are its scalars, its holes and its empty containers, each at the end of a path. No
such path begins another, so the leaves can be written in any order. Written from left to right they fill
one container after the other, and what starts as a hole is in the end the tree they were taken from.
-/
namespace Bencode

/-- The writes into a child, as writes into the node it belongs to. -/
def under (s : Segment) (writes : List (Path × Value)) : List (Path × Value) :=
  writes.map fun a => (s :: a.1, a.2)

theorem mem_under {s : Segment} {writes : List (Path × Value)} {p : Path} {x : Value} :
    (p, x) ∈ under s writes ↔ ∃ q, (q, x) ∈ writes ∧ p = s :: q := by
  constructor
  · intro h
    obtain ⟨⟨q, y⟩, hq, heq⟩ := List.mem_map.1 h
    cases heq
    exact ⟨q, hq, rfl⟩
  · rintro ⟨q, hq, rfl⟩
    exact List.mem_map.2 ⟨(q, x), hq, rfl⟩

namespace Value

/-- Nothing lies below the node. -/
def IsLeaf : Value → Prop
  | .list items => items = []
  | .dict entries => entries = []
  | .integer _ | .bytes _ | .hole => True

mutual

/-- The nodes with nothing below them, each with its path. -/
def leaves : Value → List (Path × Value)
  | .integer n => [([], .integer n)]
  | .bytes b => [([], .bytes b)]
  | .list [] => [([], .list [])]
  | .list (v :: vs) => leavesItems 0 (v :: vs)
  | .dict [] => [([], .dict [])]
  | .dict (e :: es) => leavesEntries (e :: es)
  | .hole => [([], .hole)]

/-- The leaves of items, the first of which has the given index. -/
def leavesItems (i : Nat) : List Value → List (Path × Value)
  | [] => []
  | v :: vs => under (.index i) v.leaves ++ leavesItems (i + 1) vs

def leavesEntries : List (Bytes × Value) → List (Path × Value)
  | [] => []
  | (k, v) :: es => under (.key k) v.leaves ++ leavesEntries es

end

/-- No list in the tree is too long for a list to grow to its length. -/
def Allocatable [Growth] (v : Value) : Prop :=
  ∀ items, .list items ∈ v.nodes → Growth.allows items.length

variable {v w x : Value} {p : Path} {s : Segment}

theorem mem_leavesItems {vs : List Value} {i : Nat} : (p, x) ∈ leavesItems i vs ↔
    ∃ j v q, vs[j]? = some v ∧ (q, x) ∈ v.leaves ∧ p = .index (i + j) :: q := by
  induction vs generalizing i with
  | nil => simp [leavesItems]
  | cons v vs ih =>
    rw [leavesItems, List.mem_append, mem_under, ih]
    constructor
    · rintro (⟨q, hq, rfl⟩ | ⟨j, w, q, hw, hq, rfl⟩)
      · exact ⟨0, v, q, rfl, hq, rfl⟩
      · exact ⟨j + 1, w, q, hw, hq, by rw [Nat.add_assoc, Nat.add_comm 1 j]⟩
    · rintro ⟨_ | j, w, q, hw, hq, rfl⟩
      · cases hw
        exact .inl ⟨q, hq, rfl⟩
      · exact .inr ⟨j, w, q, hw, hq, by rw [Nat.add_assoc, Nat.add_comm 1 j]⟩

theorem mem_leavesEntries {es : List (Bytes × Value)} : (p, x) ∈ leavesEntries es ↔
    ∃ k v q, (k, v) ∈ es ∧ (q, x) ∈ v.leaves ∧ p = .key k :: q := by
  induction es with
  | nil => simp [leavesEntries]
  | cons e es ih =>
    obtain ⟨k, v⟩ := e
    rw [leavesEntries, List.mem_append, mem_under, ih]
    constructor
    · rintro (⟨q, hq, rfl⟩ | ⟨l, w, q, hw, hq, rfl⟩)
      · exact ⟨k, v, q, List.mem_cons_self, hq, rfl⟩
      · exact ⟨l, w, q, List.mem_cons_of_mem _ hw, hq, rfl⟩
    · rintro ⟨l, w, q, hw, hq, rfl⟩
      rcases List.mem_cons.1 hw with he | hw
      · cases he
        exact .inl ⟨q, hq, rfl⟩
      · exact .inr ⟨l, w, q, hw, hq, rfl⟩

/-- A node without children is its only leaf. -/
theorem mem_singleton_leaf_iff (hleaf : v.IsLeaf) (hchild : ∀ s, v.child? s = none) :
    (p, x) ∈ [(([], v) : Path × Value)] ↔ v.follow? p = some x ∧ x.IsLeaf := by
  rw [List.mem_singleton, Prod.mk.injEq]
  constructor
  · rintro ⟨rfl, rfl⟩
    exact ⟨rfl, hleaf⟩
  · rintro ⟨hp, -⟩
    cases p with
    | nil => exact ⟨rfl, (Option.some.inj hp).symm⟩
    | cons s p =>
      rw [follow?_cons, hchild] at hp
      cases hp

/-- The leaves of a node with children are those of its children. -/
theorem mem_container_leaf_iff (hnot : ¬ v.IsLeaf)
    (hmem : (p, x) ∈ v.leaves ↔ ∃ s c q, v.child? s = some c ∧ (q, x) ∈ c.leaves ∧ p = s :: q)
    (ih : ∀ s c q, v.child? s = some c → ((q, x) ∈ c.leaves ↔ c.follow? q = some x ∧ x.IsLeaf)) :
    (p, x) ∈ v.leaves ↔ v.follow? p = some x ∧ x.IsLeaf := by
  rw [hmem]
  constructor
  · rintro ⟨s, c, q, hc, hq, rfl⟩
    obtain ⟨hfollow, hleaf⟩ := (ih s c q hc).1 hq
    exact ⟨follow?_cons_eq_some.2 ⟨c, hc, hfollow⟩, hleaf⟩
  · rintro ⟨hfollow, hleaf⟩
    cases p with
    | nil =>
      cases hfollow
      exact absurd hleaf hnot
    | cons s q =>
      obtain ⟨c, hc, hq⟩ := follow?_cons_eq_some.1 hfollow
      exact ⟨s, c, q, hc, (ih s c q hc).2 ⟨hq, hleaf⟩, rfl⟩

theorem mem_leaves_list {vs : List Value} (hne : vs ≠ []) : (p, x) ∈ (list vs).leaves ↔
    ∃ s c q, (list vs).child? s = some c ∧ (q, x) ∈ c.leaves ∧ p = s :: q := by
  obtain ⟨u, us, rfl⟩ := List.exists_cons_of_ne_nil hne
  rw [leaves, mem_leavesItems]
  constructor
  · rintro ⟨j, c, q, hc, hq, rfl⟩
    exact ⟨.index j, c, q, hc, hq, by rw [Nat.zero_add]⟩
  · rintro ⟨s, c, q, hc, hq, rfl⟩
    cases s with
    | key k => cases hc
    | index j => exact ⟨j, c, q, hc, hq, by rw [Nat.zero_add]⟩

theorem mem_leaves_dict {es : List (Bytes × Value)} (hs : Entries.Sorted es) (hne : es ≠ []) :
    (p, x) ∈ (dict es).leaves ↔
      ∃ s c q, (dict es).child? s = some c ∧ (q, x) ∈ c.leaves ∧ p = s :: q := by
  have hmem : (p, x) ∈ (dict es).leaves ↔ (p, x) ∈ leavesEntries es := by
    obtain ⟨e, fs, rfl⟩ := List.exists_cons_of_ne_nil hne
    rw [leaves]
  rw [hmem, mem_leavesEntries]
  constructor
  · rintro ⟨k, c, q, hc, hq, rfl⟩
    exact ⟨.key k, c, q, hs.get?_of_mem hc, hq, rfl⟩
  · rintro ⟨s, c, q, hc, hq, rfl⟩
    cases s with
    | key k => exact ⟨k, c, q, Entries.mem_of_get?_eq_some hc, hq, rfl⟩
    | index j => cases hc

theorem mem_leaves_iff (hv : v.Sorted) : (p, x) ∈ v.leaves ↔ v.follow? p = some x ∧ x.IsLeaf := by
  induction v generalizing p x with
  | integer n => exact mem_singleton_leaf_iff trivial fun s => by cases s <;> rfl
  | bytes b => exact mem_singleton_leaf_iff trivial fun s => by cases s <;> rfl
  | hole => exact mem_singleton_leaf_iff trivial child?_hole
  | list vs ih =>
    by_cases hne : vs = []
    · subst hne
      exact mem_singleton_leaf_iff rfl fun s => by cases s <;> rfl
    refine mem_container_leaf_iff hne (mem_leaves_list hne) fun s c q hc => ?_
    cases s with
    | key k => cases hc
    | index j => exact ih c (List.mem_of_getElem? hc) (hv.child? hc)
  | dict es ih =>
    by_cases hne : es = []
    · subst hne
      exact mem_singleton_leaf_iff rfl fun s => by cases s <;> rfl
    have hkeys := (sorted_dict.1 hv).1
    refine mem_container_leaf_iff hne (mem_leaves_dict hkeys hne) fun s c q hc => ?_
    cases s with
    | key k => exact ih (k, c) (Entries.mem_of_get?_eq_some hc) (hv.child? hc)
    | index j => cases hc

theorem pairwise_apart_under {writes : List (Path × Value)}
    (h : writes.Pairwise fun a b => a.1.Apart b.1) (s : Segment) :
    (under s writes).Pairwise fun a b => a.1.Apart b.1 :=
  List.pairwise_map.2 (h.imp Path.apart_cons_cons.2)

theorem pairwise_apart_leavesItems {vs : List Value} {i : Nat}
    (h : ∀ v ∈ vs, v.leaves.Pairwise fun a b => a.1.Apart b.1) :
    (leavesItems i vs).Pairwise fun a b => a.1.Apart b.1 := by
  induction vs generalizing i with
  | nil => exact .nil
  | cons v vs ih =>
    obtain ⟨hv, hvs⟩ := List.forall_mem_cons.1 h
    rw [leavesItems, List.pairwise_append]
    refine ⟨pairwise_apart_under hv _, ih hvs, ?_⟩
    rintro ⟨p, x⟩ hp ⟨q, y⟩ hq
    obtain ⟨p, -, rfl⟩ := mem_under.1 hp
    obtain ⟨j, w, q, -, -, rfl⟩ := mem_leavesItems.1 hq
    refine Path.apart_cons_of_ne ?_ p q
    rw [Ne, Segment.index.injEq]
    omega

theorem pairwise_apart_leavesEntries {es : List (Bytes × Value)} (hs : Entries.Sorted es)
    (h : ∀ e ∈ es, e.2.leaves.Pairwise fun a b => a.1.Apart b.1) :
    (leavesEntries es).Pairwise fun a b => a.1.Apart b.1 := by
  induction es with
  | nil => exact .nil
  | cons e es ih =>
    obtain ⟨k, v⟩ := e
    obtain ⟨hv, hvs⟩ := List.forall_mem_cons.1 h
    obtain ⟨hk, hes⟩ := List.pairwise_cons.1 hs
    rw [leavesEntries, List.pairwise_append]
    refine ⟨pairwise_apart_under hv _, ih hes hvs, ?_⟩
    rintro ⟨p, x⟩ hp ⟨q, y⟩ hq
    obtain ⟨p, -, rfl⟩ := mem_under.1 hp
    obtain ⟨l, w, q, hl, -, rfl⟩ := mem_leavesEntries.1 hq
    refine Path.apart_cons_of_ne ?_ p q
    rintro heq
    cases heq
    exact List.lt_irrefl k (hk k (List.mem_map_of_mem hl))

theorem pairwise_apart_leaves (hv : v.Sorted) : v.leaves.Pairwise fun a b => a.1.Apart b.1 := by
  induction v with
  | list vs ih =>
    obtain _ | ⟨u, us⟩ := vs
    · exact List.pairwise_singleton _ _
    · have hvs := sorted_list.1 hv
      exact pairwise_apart_leavesItems fun v hmem => ih v hmem (hvs v hmem)
  | dict es ih =>
    obtain _ | ⟨e, fs⟩ := es
    · exact List.pairwise_singleton _ _
    · obtain ⟨hkeys, hvs⟩ := sorted_dict.1 hv
      exact pairwise_apart_leavesEntries hkeys fun e hmem => ih e hmem (hvs e hmem)
  | _ => exact List.pairwise_singleton _ _

theorem nodup_leaves (hv : v.Sorted) : v.leaves.Nodup := by
  refine (pairwise_apart_leaves hv).imp ?_
  rintro a b hapart rfl
  exact hapart.1 List.prefix_rfl

theorem leaves_ne_nil (v : Value) : v.leaves ≠ [] := by
  induction v with
  | list vs ih =>
    obtain _ | ⟨u, us⟩ := vs
    · exact List.cons_ne_nil _ _
    · rw [leaves, leavesItems, under]
      simp [ih u List.mem_cons_self]
  | dict es ih =>
    obtain _ | ⟨⟨k, u⟩, fs⟩ := es
    · exact List.cons_ne_nil _ _
    · rw [leaves, leavesEntries, under]
      simp [ih (k, u) List.mem_cons_self]
  | _ => exact List.cons_ne_nil _ _

theorem putItem_length (items : List Value) (w : Value) :
    putItem items items.length w = items ++ [w] := by
  unfold putItem
  rw [Nat.add_sub_cancel_left]
  simp

variable [Growth]

/-- What leads the child to a value leads the node to the put of this value. -/
theorem Leads.under {writes : List (Path × Value)} (hs : v.Takes s) (hne : writes ≠ [])
    (h : (v.childAt s).Leads writes w) : v.Leads (under s writes) (v.put s w) := by
  induction writes generalizing v with
  | nil => exact absurd rfl hne
  | cons a more ih =>
    obtain ⟨p, x⟩ := a
    obtain ⟨hp, h⟩ := h
    refine ⟨⟨hs, hp⟩, ?_⟩
    rw [putAt]
    obtain _ | ⟨b, more⟩ := more
    · cases h
      rfl
    · have hs' : (v.put s ((v.childAt s).putAt p x)).Takes s := hs.put _
      rw [← put_put hs ((v.childAt s).putAt p x) w]
      refine ih hs' (List.cons_ne_nil _ _) ?_
      rw [childAt_put_self hs]
      exact h

theorem leads_leavesItems (done : List Value) {vs : List Value}
    (hlen : Growth.allows (done.length + vs.length))
    (h : ∀ v ∈ vs, hole.Leads v.leaves v) :
    (list done).Leads (leavesItems done.length vs) (.list (done ++ vs)) := by
  induction vs generalizing done with
  | nil =>
    rw [List.append_nil]
    rfl
  | cons v vs ih =>
    obtain ⟨hv, hvs⟩ := List.forall_mem_cons.1 h
    rw [List.length_cons] at hlen
    have hgrow : Growth.allows (done.length + 1) := Growth.allows_of_le (by omega) hlen
    have htakes : (list done).Takes (.index done.length) :=
      .item rfl (Growth.le_maxListLength hgrow) (.inr hgrow)
    have hchild : (list done).childAt (.index done.length) = .hole := by
      rw [childAt, child?_list_index, List.getElem?_eq_none (Nat.le_refl _)]
      rfl
    have hfirst := Leads.under htakes v.leaves_ne_nil (hchild ▸ hv)
    rw [put_index rfl, putItem_length] at hfirst
    have hnext : (done ++ [v]).length = done.length + 1 := by
      rw [List.length_append, List.length_singleton]
    rw [← Nat.add_assoc, Nat.add_right_comm, ← hnext] at hlen
    have hrest := ih (done ++ [v]) hlen hvs
    rw [hnext, List.append_assoc] at hrest
    exact leads_append.2 ⟨_, hfirst, hrest⟩

theorem leads_leavesEntries (done : List (Bytes × Value)) {es : List (Bytes × Value)}
    (hs : Entries.Sorted (done ++ es)) (h : ∀ e ∈ es, hole.Leads e.2.leaves e.2) :
    (dict done).Leads (leavesEntries es) (.dict (done ++ es)) := by
  induction es generalizing done with
  | nil =>
    rw [List.append_nil]
    rfl
  | cons e es ih =>
    obtain ⟨k, v⟩ := e
    obtain ⟨hv, hvs⟩ := List.forall_mem_cons.1 h
    have hlast : ∀ l ∈ Entries.keys done, l < k := by
      rw [Entries.Sorted, Entries.keys, List.map_append, List.pairwise_append] at hs
      exact fun l hl => hs.2.2 l hl k List.mem_cons_self
    have htakes : (dict done).Takes (.key k) := .entry rfl
    have hchild : (dict done).childAt (.key k) = .hole := by
      rw [childAt, child?_dict_key, Entries.get?_eq_none fun hk => List.lt_irrefl k (hlast k hk)]
      rfl
    have hfirst := Leads.under htakes v.leaves_ne_nil (hchild ▸ hv)
    rw [put_key rfl, Entries.insert_of_lt v hlast] at hfirst
    have hrest := ih (done ++ [(k, v)]) (by rwa [List.append_assoc]) hvs
    rw [List.append_assoc] at hrest
    exact leads_append.2 ⟨_, hfirst, hrest⟩

/-- The leaves written in their order lead from a hole to the tree. -/
theorem leads_leaves (hv : v.Sorted) (hlen : v.Allocatable) : hole.Leads v.leaves v := by
  induction v with
  | list vs ih =>
    have hvs := sorted_list.1 hv
    have hitems (w : Value) (hw : w ∈ vs) : hole.Leads w.leaves w := by
      refine ih w hw (hvs w hw) fun items hitems => hlen items ?_
      exact mem_nodes_list.2 (.inr ⟨w, hw, hitems⟩)
    have hlength : Growth.allows vs.length := hlen vs (self_mem_nodes _)
    obtain _ | ⟨u, us⟩ := vs
    · exact ⟨trivial, rfl⟩
    obtain ⟨hu, hus⟩ := List.forall_mem_cons.1 hitems
    rw [List.length_cons, Nat.add_comm] at hlength
    have hgrow : Growth.allows (0 + 1) := Growth.allows_of_le (Nat.le_add_right 1 us.length) hlength
    have htakes : hole.Takes (.index 0) := .item rfl (by decide) (.inr hgrow)
    have hfirst : hole.Leads (under (.index 0) u.leaves) (.list [u]) :=
      Leads.under htakes u.leaves_ne_nil hu
    exact leads_append.2 ⟨_, hfirst, leads_leavesItems [u] hlength hus⟩
  | dict es ih =>
    obtain ⟨hkeys, hvs⟩ := sorted_dict.1 hv
    have hentries (e : Bytes × Value) (he : e ∈ es) : hole.Leads e.2.leaves e.2 := by
      refine ih e he (hvs e he) fun items hitems => hlen items ?_
      exact mem_nodes_dict.2 (.inr ⟨e, he, hitems⟩)
    obtain _ | ⟨⟨k, u⟩, fs⟩ := es
    · exact ⟨trivial, rfl⟩
    obtain ⟨hu, hfs⟩ := List.forall_mem_cons.1 hentries
    have hfirst : hole.Leads (under (.key k) u.leaves) (.dict [(k, u)]) :=
      Leads.under (.entry rfl) u.leaves_ne_nil hu
    exact leads_append.2 ⟨_, hfirst, leads_leavesEntries [(k, u)] hkeys hfs⟩
  | _ => exact ⟨trivial, rfl⟩

end Value

open Value TreeStep

/-- A tree is determined by its leaves: written into a hole in any order they all find their places, and
the tree is there again. -/
theorem rebuilt_from_leaves [Growth] {v : Value} (hv : v.Sorted) (hlen : v.Allocatable) :
    (∀ p x, (p, x) ∈ v.leaves ↔ v.follow? p = some x ∧ x.IsLeaf) ∧ v.leaves.Nodup ∧
      ∀ as, as.Perm v.leaves →
        (∀ r ∈ Script.run TreeStep.apply (writes as) .hole, r.1 = .done) ∧
          Script.final TreeStep.apply (writes as) .hole = v := by
  refine ⟨fun p x => mem_leaves_iff hv, nodup_leaves hv, fun as hperm => ?_⟩
  have hleads : hole.Leads v.leaves v := leads_leaves hv hlen
  exact leads_iff_run_writes.1 (hleads.perm hperm.symm (pairwise_apart_leaves hv))

/-- The second item of the list comes first, and the empty dictionary is a leaf. -/
theorem rebuilt_from_leaves_backward :
    (Value.dict [([97], .list [.hole, .dict []])]).Sorted ∧
      (Value.dict [([97], .list [.hole, .dict []])]).Allocatable ∧
      Script.final TreeStep.apply
          (writes [([.key [97], .index 1], .dict []), ([.key [97], .index 0], .hole)]) .hole =
        .dict [([97], .list [.hole, .dict []])] := by
  have hsorted : (Value.dict [([97], .list [.hole, .dict []])]).Sorted := by
    simp [Value.Sorted, SortedEntries, SortedItems, Entries.Sorted, Entries.keys]
  have hlen : (Value.dict [([97], .list [.hole, .dict []])]).Allocatable := by
    simp [Allocatable, nodes, nodesEntries, nodesItems, Growth.allows, growthLimit]
  exact ⟨hsorted, hlen, ((rebuilt_from_leaves hsorted hlen).2.2 _ (.swap _ _ _)).2⟩

end Bencode
