import Bencode.Proofs.Json
import Bencode.Proofs.Nodes
import Bencode.Proofs.Writing

/-! # The first hole of a tree

The search for a hole, the count of holes in a walk and both formats agree on whether a tree has one. If
it has, the search answers the path that comes before all other paths to holes.
-/
namespace Bencode

/-- Of two children the one with the smaller index or key. -/
def Segment.Before : Segment → Segment → Prop
  | .key k, .key l => k < l
  | .index i, .index j => i < j
  | .key _, .index _ | .index _, .key _ => False

namespace Path

/-- Where the paths first differ, the first one has the smaller index or key. -/
def Before (p q : Path) : Prop :=
  ∃ r s t p' q', p = r ++ s :: p' ∧ q = r ++ t :: q' ∧ s.Before t

theorem before_of_segment {s t : Segment} (h : s.Before t) (p q : Path) :
    Before (s :: p) (t :: q) :=
  ⟨[], s, t, p, q, rfl, rfl, h⟩

theorem Before.cons {p q : Path} (h : Before p q) (s : Segment) : Before (s :: p) (s :: q) := by
  obtain ⟨r, t, u, p', q', hp, hq, htu⟩ := h
  exact ⟨s :: r, t, u, p', q', by rw [hp, List.cons_append], by rw [hq, List.cons_append], htu⟩

end Path

namespace Value

theorem not_holeFree_of_follow? {v : Value} {p : Path} (h : v.follow? p = some .hole) :
    ¬ v.HoleFree := by
  rw [holeFree_iff_notMem_nodes, not_not]
  exact mem_nodes_of_follow? h

/-- Among items the search stops in the first that has a hole. -/
theorem firstHoleItems_eq_some {vs : List Value} {i : Nat} {p : Path}
    (h : firstHoleItems i vs = some p) :
    ∃ before v after q, vs = before ++ v :: after ∧ (∀ w ∈ before, w.HoleFree) ∧
      v.firstHole = some q ∧ p = .index (i + before.length) :: q := by
  induction vs generalizing i with
  | nil => cases h
  | cons v vs ih =>
    rw [firstHoleItems] at h
    cases hv : v.firstHole with
    | some q =>
      rw [hv] at h
      exact ⟨[], v, vs, q, rfl, by simp, hv, (Option.some.inj h).symm⟩
    | none =>
      rw [hv] at h
      obtain ⟨before, w, after, q, hvs, hfree, hw, hp⟩ := ih h
      refine ⟨v :: before, w, after, q, by rw [hvs, List.cons_append], ?_, hw, ?_⟩
      · exact List.forall_mem_cons.2 ⟨firstHole_eq_none_iff.1 hv, hfree⟩
      · rw [hp, List.length_cons, Nat.add_right_comm, Nat.add_assoc]

theorem firstHoleEntries_eq_some {es : List (Bytes × Value)} {p : Path}
    (h : firstHoleEntries es = some p) :
    ∃ before k v after q, es = before ++ (k, v) :: after ∧ (∀ e ∈ before, e.2.HoleFree) ∧
      v.firstHole = some q ∧ p = .key k :: q := by
  induction es with
  | nil => cases h
  | cons e es ih =>
    obtain ⟨k, v⟩ := e
    rw [firstHoleEntries] at h
    cases hv : v.firstHole with
    | some q =>
      rw [hv] at h
      exact ⟨[], k, v, es, q, rfl, by simp, hv, (Option.some.inj h).symm⟩
    | none =>
      rw [hv] at h
      obtain ⟨before, l, w, after, q, hes, hfree, hw, hp⟩ := ih h
      refine ⟨(k, v) :: before, l, w, after, q, by rw [hes, List.cons_append], ?_, hw, hp⟩
      exact List.forall_mem_cons.2 ⟨firstHole_eq_none_iff.1 hv, hfree⟩

/-- What the search answers leads to a hole, and every other path to a hole comes later. -/
theorem findHole_eq_some {v : Value} (hv : v.Sorted) {p : Path} (h : v.findHole = some p) :
    v.follow? p = some .hole ∧ ∀ q, v.follow? q = some .hole → q = p ∨ Path.Before p q := by
  rw [findHole_eq_firstHole] at h
  induction v generalizing p with
  | integer n => cases h
  | bytes b => cases h
  | hole =>
    rw [firstHole, Option.some.injEq] at h
    subst h
    refine ⟨rfl, fun q hq => ?_⟩
    cases q with
    | nil => exact .inl rfl
    | cons s q =>
      rw [follow?_cons, child?_hole] at hq
      cases hq
  | list vs ih =>
    obtain ⟨before, v, after, p', hvs, hfree, hp', rfl⟩ := firstHoleItems_eq_some h
    rw [Nat.zero_add]
    have hmem : v ∈ vs := by simp [hvs]
    have hget : vs[before.length]? = some v := by simp [hvs]
    obtain ⟨hhole, hfirst⟩ := ih v hmem (sorted_list.1 hv v hmem) hp'
    refine ⟨follow?_cons_eq_some.2 ⟨v, hget, hhole⟩, fun q hq => ?_⟩
    cases q with
    | nil => cases hq
    | cons s q =>
      obtain ⟨c, hc, hrest⟩ := follow?_cons_eq_some.1 hq
      cases s with
      | key k => cases hc
      | index j =>
        rw [child?_list_index] at hc
        rcases Nat.lt_trichotomy j before.length with hlt | rfl | hgt
        · have hb : c ∈ before := by
            rw [hvs, List.getElem?_append_left hlt] at hc
            exact List.mem_of_getElem? hc
          exact absurd (hfree c hb) (not_holeFree_of_follow? hrest)
        · rw [hget, Option.some.injEq] at hc
          subst hc
          rcases hfirst q hrest with rfl | hbefore
          · exact .inl rfl
          · exact .inr (hbefore.cons _)
        · have hs : Segment.Before (.index before.length) (.index j) := hgt
          exact .inr (Path.before_of_segment hs _ _)
  | dict es ih =>
    obtain ⟨before, k, v, after, p', hes, hfree, hp', rfl⟩ := firstHoleEntries_eq_some h
    obtain ⟨hsorted, hvs⟩ := sorted_dict.1 hv
    have hmem : (k, v) ∈ es := by simp [hes]
    obtain ⟨hhole, hfirst⟩ := ih (k, v) hmem (hvs (k, v) hmem) hp'
    have hget : Entries.get? k es = some v := hsorted.get?_of_mem hmem
    refine ⟨follow?_cons_eq_some.2 ⟨v, hget, hhole⟩, fun q hq => ?_⟩
    cases q with
    | nil => cases hq
    | cons s q =>
      obtain ⟨c, hc, hrest⟩ := follow?_cons_eq_some.1 hq
      cases s with
      | index j => cases hc
      | key l =>
        have hl : (l, c) ∈ before ++ (k, v) :: after := hes ▸ Entries.mem_of_get?_eq_some hc
        rcases List.mem_append.1 hl with hl | hl
        · exact absurd (hfree (l, c) hl) (not_holeFree_of_follow? hrest)
        rcases List.mem_cons.1 hl with he | hl
        · cases he
          rcases hfirst q hrest with rfl | hbefore
          · exact .inl rfl
          · exact .inr (hbefore.cons _)
        · have hs : Segment.Before (.key k) (.key l) := by
            rw [hes, Entries.Sorted, Entries.keys, List.map_append, List.map_cons,
              List.pairwise_append, List.pairwise_cons] at hsorted
            exact hsorted.2.1.1 l (List.mem_map_of_mem hl)
          exact .inr (Path.before_of_segment hs _ _)

end Value

theorem encode_of_findHole {v : Value} {p : Path} (h : v.findHole = some p) :
    encode v = .error (.unassigned p) := by
  unfold encode
  rw [Value.assigned_of_findHole h]
  rfl

theorem jsonText_of_findHole {v : Value} {p : Path} (h : v.findHole = some p)
    (layout : Json.Layout) : jsonText layout v = .error (.unassigned p) := by
  unfold jsonText
  rw [Value.assigned_of_findHole h]
  rfl

theorem exists_jsonText_iff {v : Value} {layout : Json.Layout} :
    (∃ text, jsonText layout v = .ok text) ↔ v.HoleFree := by
  constructor
  · rintro ⟨text, h⟩
    by_contra hv
    obtain ⟨p, hp⟩ := Value.exists_findHole hv
    rw [jsonText_of_findHole hp] at h
    cases h
  · intro hv
    exact ⟨_, jsonText_of_holeFree hv layout⟩

/-- A byte string refuses nothing, so that a writing to it fails for a hole only. -/
theorem write_bytes_eq_ok_iff {v : Value} {format : Format} {s : Bytes} :
    (format.write v s).1 = .ok () ↔ v.HoleFree := by
  constructor
  · intro h
    by_contra hv
    obtain ⟨p, hp⟩ := Value.exists_findHole hv
    rw [Format.write_of_findHole hp] at h
    cases h
  · intro hv
    rw [Format.write_of_holeFree hv]
    rcases Sink.appends_bytes.write trivial (format.chunks v) with
      ⟨s', hw, -⟩ | ⟨lead, chunk, rest, s', e, -, -, -, -, he⟩
    · rw [hw]
    · cases he

/-- Holes are found exactly, and the first one first. -/
theorem findHole_exact_and_first {v : Value} (hv : v.Sorted) :
    (v.findHole = none ↔ v.HoleFree) ∧ ((∀ q, v.follow? q ≠ some .hole) ↔ v.HoleFree) ∧
      ((Stats.collect v).holes = 0 ↔ v.HoleFree) ∧ ((∃ b, encode v = .ok b) ↔ v.HoleFree) ∧
      (∀ layout, (∃ text, jsonText layout v = .ok text) ↔ v.HoleFree) ∧
      (∀ format : Format, (format.write v ([] : Bytes)).1 = .ok () ↔ v.HoleFree) ∧
      (∀ p, v.findHole = some p → v.follow? p = some .hole ∧
        (∀ q, v.follow? q = some .hole → q ≠ p → Path.Before p q) ∧
        encode v = .error (.unassigned p) ∧
        (∀ layout, jsonText layout v = .error (.unassigned p)) ∧
        (∀ {σ : Type} [Sink σ] (format : Format) (s : σ),
          format.write v s = (.error (.unassigned p), s)) ∧
        (Error.unassigned p).message = "unassigned placeholder at " ++ Path.text p) ∧
      ∀ w, v.assigned = .ok w → w = v ∧ .hole ∉ w.nodes ∧ w.toJson.NullFree := by
  refine ⟨Value.findHole_eq_none_iff, (Value.holeFree_iff_follow? hv).symm,
    Stats.holes_collect_eq_zero_iff, ?_, fun _ => exists_jsonText_iff,
    fun _ => write_bytes_eq_ok_iff, fun p hp => ?_, fun w hw => ?_⟩
  · simp only [encode_eq_ok_iff, exists_and_left, exists_eq', and_true]
  · obtain ⟨hhole, hfirst⟩ := Value.findHole_eq_some hv hp
    refine ⟨hhole, fun q hq hne => (hfirst q hq).resolve_left hne, encode_of_findHole hp,
      jsonText_of_findHole hp, fun format s => Format.write_of_findHole hp format s, ?_⟩
    rfl
  · have hfree : v.HoleFree := by
      by_contra h
      obtain ⟨p, hp⟩ := Value.exists_findHole h
      rw [Value.assigned_of_findHole hp] at hw
      cases hw
    rw [Value.assigned_of_holeFree hfree, Except.ok.injEq] at hw
    subst hw
    exact ⟨rfl, Value.holeFree_iff_notMem_nodes.1 hfree, Value.nullFree_toJson hfree⟩

/-- Of the two holes in a dictionary the one in the list under the smaller key is found. -/
theorem findHole_exact_and_first_nested :
    (Value.dict [([97], .list [.integer 1, .hole]), ([98], .hole)]).Sorted ∧
      Path.Before [.key [97], .index 1] [.key [98]] ∧
      encode (.dict [([97], .list [.integer 1, .hole]), ([98], .hole)]) =
        .error (.unassigned [.key [97], .index 1]) := by
  have hkeys : ([97] : Bytes) < [98] := by decide
  have hsorted : (Value.dict [([97], .list [.integer 1, .hole]), ([98], .hole)]).Sorted := by
    simp [Value.Sorted, Value.SortedEntries, Value.SortedItems, Entries.Sorted, Entries.keys, hkeys]
  have h := (findHole_exact_and_first hsorted).2.2.2.2.2.2.1 [.key [97], .index 1] rfl
  exact ⟨hsorted, h.2.1 [.key [98]] rfl (by decide), h.2.2.1⟩

end Bencode
