import Bencode.Build
import Bencode.Proofs.Nodes

/-! # One segment of a path that is built

A node refuses a segment for one of four causes, or it takes it. If it does, the step behind the segment
sees `childAt`, and what that step leaves is `put` back into the node. So all that is known about building
along paths follows from the laws of `put`; those of a list follow from the look-ups in a padded one.
-/
namespace Bencode

/-- The kind of the container that a segment leads into. -/
def Segment.container : Segment → Kind
  | .key _ => .dict
  | .index _ => .list

namespace Value

/-- The value behind a segment, a hole if there is none. -/
def childAt (v : Value) (s : Segment) : Value := (v.child? s).getD .hole

/-- A hole as the empty container that a segment asks for; any other value as it is. -/
def opened : Value → Segment → Value
  | .hole, .key _ => .dict []
  | .hole, .index _ => .list []
  | v, _ => v

/-- The items with a value at an index; if there are too few, holes come in between. -/
def putItem (items : List Value) (i : Nat) (w : Value) : List Value :=
  (items ++ List.replicate (i + 1 - items.length) Value.hole).set i w

/-- The node with a value behind a segment, in place of the one that may be there. -/
def put (v : Value) (s : Segment) (w : Value) : Value :=
  match v.opened s, s with
  | .dict entries, .key k => .dict (Entries.insert k w entries)
  | .list items, .index i => .list (putItem items i w)
  | u, _ => u

/-- The causes for which a node refuses a segment. No list is long enough for an index at the end of the
range, which is refused by every node; the others are refused for the kind of the node or, by a list or
a hole, because a list that must grow cannot. -/
inductive Refuses [Growth] : Value → Segment → Error → Prop
  | key {v : Value} {k : Bytes} (hd : v.kind ≠ .dict) (hh : v.kind ≠ .hole) :
    Refuses v (.key k) (.kindMismatch .dict v.kind)
  | uncounted {v : Value} {i : Nat} (hi : maxListLength ≤ i) :
    Refuses v (.index i) (.indexOutOfRange i)
  | index {v : Value} {i : Nat} (hi : i < maxListLength) (hl : v.kind ≠ .list)
    (hh : v.kind ≠ .hole) : Refuses v (.index i) (.kindMismatch .list v.kind)
  | growth {v : Value} {i : Nat} {items : List Value} (hi : i < maxListLength)
    (hv : v.opened (.index i) = .list items) (hlen : items.length ≤ i)
    (hgrow : ¬ Growth.allows (i + 1)) : Refuses v (.index i) (.indexOutOfRange i)

/-- What a node that takes a segment has for it: entries, or items that are long enough or can grow. -/
inductive Takes [Growth] : Value → Segment → Prop
  | entry {v : Value} {k : Bytes} {entries : List (Bytes × Value)}
    (hv : v.opened (.key k) = .dict entries) : Takes v (.key k)
  | item {v : Value} {i : Nat} {items : List Value} (hv : v.opened (.index i) = .list items)
    (hi : i < maxListLength) (hgrow : i < items.length ∨ Growth.allows (i + 1)) : Takes v (.index i)

/-- What a node is after it has refused a segment. The list that could not grow is there, if it was a
hole before. -/
def afterRefusal (v : Value) : Segment → Value
  | .key _ => v
  | .index i => if i < maxListLength then v.opened (.index i) else v

variable {v w : Value} {s c : Segment} {e : Error}

theorem opened_of_kind (h : v.kind ≠ .hole) (s : Segment) : v.opened s = v := by
  cases v with
  | hole => exact absurd rfl h
  | _ => cases s <;> rfl

/-- An empty container has no more children than a hole. -/
theorem child?_opened (v : Value) (s c : Segment) : (v.opened s).child? c = v.child? c := by
  cases v <;> cases s <;> cases c <;> rfl

/-- A hole is opened in the same way for all segments into the same kind of container. -/
theorem opened_eq (h : s.container = c.container) (v : Value) : v.opened s = v.opened c := by
  cases s with
  | key k =>
    cases c with
    | key l => cases v <;> rfl
    | index j => cases h
  | index i =>
    cases c with
    | key l => cases h
    | index j => cases v <;> rfl

theorem kind_of_opened (h : v.opened s = w) : v.kind = w.kind ∨ v.kind = .hole := by
  by_cases hh : v.kind = .hole
  · exact .inr hh
  · rw [← h, opened_of_kind hh]
    exact .inl rfl

theorem getElem?_putItem (items : List Value) (i j : Nat) (w : Value) :
    (putItem items i w)[j]? =
      if j = i then some w
      else if j < items.length then items[j]?
      else if j < i then some .hole else none := by
  unfold putItem
  rw [List.getElem?_set, List.getElem?_append, List.getElem?_replicate, List.length_append,
    List.length_replicate]
  by_cases hj : j = i
  · rw [if_pos hj.symm, if_pos (by omega), if_pos hj]
  · rw [if_neg (Ne.symm hj), if_neg hj]
    by_cases hlen : j < items.length
    · rw [if_pos hlen, if_pos hlen]
    · rw [if_neg hlen, if_neg hlen]
      by_cases hi : j < i
      · rw [if_pos (by omega), if_pos hi]
      · rw [if_neg (by omega), if_neg hi]

theorem length_putItem (items : List Value) (i : Nat) (w : Value) :
    (putItem items i w).length = max items.length (i + 1) := by
  rw [putItem, List.length_set, List.length_append, List.length_replicate]
  omega

theorem putItem_putItem (items : List Value) (i : Nat) (w w' : Value) :
    putItem (putItem items i w) i w' = putItem items i w' := by
  apply List.ext_getElem?
  intro j
  rw [getElem?_putItem (putItem items i w), getElem?_putItem items i j w', length_putItem,
    getElem?_putItem items i j w]
  by_cases hj : j = i
  · rw [if_pos hj, if_pos hj]
  · rw [if_neg hj, if_neg hj, if_neg hj]
    by_cases hlen : j < max items.length (i + 1)
    · rw [if_pos hlen]
    · rw [if_neg hlen, if_neg (show ¬ j < i by omega), if_neg (show ¬ j < items.length by omega)]

theorem putItem_of_getElem? {items : List Value} {i : Nat} (h : items[i]? = some w) :
    putItem items i w = items := by
  have hi : i < items.length := (List.getElem?_eq_some_iff.1 h).1
  apply List.ext_getElem?
  intro j
  rw [getElem?_putItem]
  by_cases hj : j = i
  · rw [if_pos hj, hj, h]
  · rw [if_neg hj]
    by_cases hlen : j < items.length
    · rw [if_pos hlen]
    · rw [if_neg hlen, if_neg (by omega), List.getElem?_eq_none (by omega)]

theorem put_key {k : Bytes} {es : List (Bytes × Value)} (h : v.opened (.key k) = .dict es)
    (w : Value) : v.put (.key k) w = .dict (Entries.insert k w es) := by
  unfold put
  rw [h]

theorem put_index {i : Nat} {items : List Value} (h : v.opened (.index i) = .list items)
    (w : Value) : v.put (.index i) w = .list (putItem items i w) := by
  unfold put
  rw [h]

/-- Putting back what is there changes nothing, unless keys are out of order. -/
theorem put_of_child? (hv : v.Sorted) (h : v.child? s = some w) : v.put s w = v := by
  rcases child?_eq_some h with ⟨vs, i, rfl, rfl, hw⟩ | ⟨es, k, rfl, rfl, hw⟩
  · rw [put_index rfl, putItem_of_getElem? hw]
  · rw [put_key rfl, (sorted_dict.1 hv).1.insert_of_get? hw]

/-- The segment `c` leads to an element that a list lacks in front of the index `s`. -/
def LacksBefore (v : Value) (s c : Segment) : Prop :=
  ∃ i j items, s = .index i ∧ c = .index j ∧ v.opened s = .list items ∧ items.length ≤ j ∧ j < i

theorem LacksBefore.child?_eq_none {c : Segment} (h : v.LacksBefore s c) : v.child? c = none := by
  obtain ⟨i, j, items, rfl, rfl, hv, hlen, -⟩ := h
  rw [← child?_opened v (.index i), hv]
  exact List.getElem?_eq_none hlen

variable [Growth]

theorem Takes.kind (h : v.Takes s) : v.kind = s.container ∨ v.kind = .hole := by
  cases h with
  | entry hv => exact kind_of_opened hv
  | item hv => exact kind_of_opened hv

theorem Takes.not_refuses (h : v.Takes s) (e : Error) : ¬ v.Refuses s e := by
  intro hr
  cases hr with
  | key hd hh =>
    rcases h.kind with hk | hk
    · exact hd hk
    · exact hh hk
  | uncounted hn =>
    cases h with
    | item hv hi => exact absurd hi (Nat.not_lt.2 hn)
  | index _ hl hh =>
    rcases h.kind with hk | hk
    · exact hl hk
    · exact hh hk
  | growth _ hv' hlen hno =>
    cases h with
    | item hv hi hgrow =>
      rw [hv, Value.list.injEq] at hv'
      subst hv'
      exact hgrow.elim (Nat.not_lt.2 hlen) hno

theorem refuses_or_takes (v : Value) (s : Segment) : (∃ e, v.Refuses s e) ∨ v.Takes s := by
  cases s with
  | key k =>
    cases v with
    | dict es => exact .inr (.entry rfl)
    | hole => exact .inr (.entry rfl)
    | _ => exact .inl ⟨_, .key (by simp [kind]) (by simp [kind])⟩
  | index i =>
    rcases Nat.lt_or_ge i maxListLength with hi | hi
    · have hlist {items : List Value} (hv : v.opened (.index i) = .list items) :
          (∃ e, v.Refuses (.index i) e) ∨ v.Takes (.index i) := by
        by_cases hgrow : i < items.length ∨ Growth.allows (i + 1)
        · exact .inr (.item hv hi hgrow)
        · rw [not_or, Nat.not_lt] at hgrow
          exact .inl ⟨_, .growth hi hv hgrow.1 hgrow.2⟩
      cases v with
      | list items => exact hlist rfl
      | hole => exact hlist rfl
      | _ => exact .inl ⟨_, .index hi (by simp [kind]) (by simp [kind])⟩
    · exact .inl ⟨_, .uncounted hi⟩

theorem child?_put_self (h : v.Takes s) (w : Value) : (v.put s w).child? s = some w := by
  cases h with
  | entry hv => rw [put_key hv, child?_dict_key, Entries.get?_insert_self]
  | item hv => rw [put_index hv, child?_list_index, getElem?_putItem, if_pos rfl]

theorem childAt_put_self (h : v.Takes s) (w : Value) : (v.put s w).childAt s = w := by
  rw [childAt, child?_put_self h, Option.getD_some]

theorem put_put (h : v.Takes s) (w w' : Value) : (v.put s w).put s w' = v.put s w' := by
  cases h with
  | entry hv => rw [put_key hv, put_key hv, put_key rfl, Entries.insert_insert]
  | item hv => rw [put_index hv, put_index hv, put_index rfl, putItem_putItem]

/-- A put elsewhere in the container leaves a segment as good as it was. -/
theorem Takes.put_of_container (hs : v.Takes s) (hc : v.Takes c)
    (hcont : s.container = c.container) (u : Value) : (v.put c u).Takes s := by
  cases hs with
  | entry hv =>
    cases hc with
    | item => cases hcont
    | entry hv' =>
      rw [put_key hv']
      exact .entry rfl
  | item hv hi hgrow =>
    cases hc with
    | entry => cases hcont
    | item hv' hj hgrow' =>
      rw [opened_eq hcont, hv', Value.list.injEq] at hv
      subst hv
      rw [put_index hv']
      refine .item rfl hi (hgrow.imp_left fun hlen => ?_)
      rw [length_putItem]
      omega

theorem Takes.put (h : v.Takes s) (w : Value) : (v.put s w).Takes s := h.put_of_container h rfl w

/-- Elsewhere `put` changes nothing, except that a list gains the holes before an index. -/
theorem child?_put_of_ne {c : Segment} (h : v.Takes s) (hc : c ≠ s) (w : Value) :
    v.LacksBefore s c ∧ (v.put s w).child? c = some .hole ∨
      (v.put s w).child? c = v.child? c := by
  cases h with
  | @entry k es hv =>
    rw [put_key hv, ← child?_opened v (.key k), hv]
    cases c with
    | key l =>
      have hl : l ≠ k := fun hl => hc (congrArg _ hl)
      exact .inr (Entries.get?_insert_of_ne hl w es)
    | index j => exact .inr rfl
  | @item i items hv =>
    rw [put_index hv, ← child?_opened v (.index i), hv]
    cases c with
    | key l => exact .inr rfl
    | index j =>
      have hj : j ≠ i := fun hj => hc (congrArg _ hj)
      rw [child?_list_index, child?_list_index, getElem?_putItem, if_neg hj]
      by_cases hlen : j < items.length
      · exact .inr (if_pos hlen)
      rw [if_neg hlen]
      by_cases hi : j < i
      · exact .inl ⟨⟨i, j, items, rfl, rfl, hv, Nat.not_lt.1 hlen, hi⟩, if_pos hi⟩
      · rw [if_neg hi, List.getElem?_eq_none (Nat.not_lt.1 hlen)]
        exact .inr rfl

theorem isSome_child?_put {c : Segment} (h : v.Takes s) (hc : (v.child? c).isSome) (w : Value) :
    ((v.put s w).child? c).isSome := by
  by_cases hcs : c = s
  · rw [hcs, child?_put_self h]
    rfl
  · rcases child?_put_of_ne h hcs w with ⟨-, hp⟩ | hp
    · rw [hp]
      rfl
    · rw [hp]
      exact hc

theorem kind_put (h : v.Takes s) (w : Value) : (v.put s w).kind = s.container := by
  cases h with
  | entry hv =>
    rw [put_key hv]
    rfl
  | item hv =>
    rw [put_index hv]
    rfl

end Value

namespace Build

open Value

theorem getD_append_replicate (items : List Value) (n i : Nat) :
    (items ++ List.replicate n Value.hole).getD i .hole = items[i]?.getD .hole := by
  rw [List.getD_eq_getElem?_getD, List.getElem?_append, List.getElem?_replicate]
  split
  · rfl
  · next hlen =>
    rw [List.getElem?_eq_none (Nat.not_lt.1 hlen)]
    split <;> rfl

variable [Growth] {α : Type} {v : Value} {s : Segment} {e : Error}

theorem padded_eq_ok {items : List Value} {n : Nat} (h : n ≤ items.length ∨ Growth.allows n) :
    padded items n = .ok (items ++ List.replicate (n - items.length) .hole) := by
  unfold padded
  by_cases hle : n ≤ items.length
  · rw [if_pos hle, Nat.sub_eq_zero_of_le hle, List.replicate_zero, List.append_nil]
  · rw [if_neg hle, if_pos (h.resolve_left hle)]

theorem padded_eq_error {items : List Value} {n : Nat} (hlen : items.length < n)
    (hgrow : ¬ Growth.allows n) : padded items n = .error (.indexOutOfRange (n - 1)) := by
  unfold padded
  rw [if_neg (Nat.not_le.2 hlen), if_neg hgrow]

theorem ensureLength_of_opened {i n : Nat} {items : List Value}
    (h : v.opened (.index i) = .list items) :
    ensureLength n v =
      match padded items n with
      | .ok items' => (.ok items', .list items')
      | .error e => (.error e, .list items) := by
  cases v with
  | list vs =>
    cases h
    rfl
  | hole =>
    cases h
    rfl
  | _ => cases h

theorem atIndex_of_lt {i : Nat} (hi : i < maxListLength) (step : Build α) (v : Value) :
    atIndex i step v =
      match ensureLength (i + 1) v with
      | (.ok items, _) =>
        ((step (items.getD i .hole)).1, .list (items.set i (step (items.getD i .hole)).2))
      | (.error e, v') => (.error e, v') :=
  if_neg (Nat.not_lt.2 hi)

theorem atIndex_of_le {i : Nat} (hi : maxListLength ≤ i) (step : Build α) (v : Value) :
    atIndex i step v = (.error (.indexOutOfRange i), v) :=
  if_pos (Nat.lt_succ_of_le hi)

/-- A node that takes a segment hands its child to the step and puts back what the step leaves. -/
theorem atSegment_of_takes (h : v.Takes s) (step : Build α) :
    atSegment s step v = ((step (v.childAt s)).1, v.put s (step (v.childAt s)).2) := by
  cases h with
  | entry hv =>
    rw [put_key hv]
    cases v with
    | dict es =>
      cases hv
      rfl
    | hole =>
      cases hv
      rfl
    | _ => cases hv
  | @item i items hv hi hgrow =>
    have hchild : v.childAt (.index i) = items[i]?.getD .hole := by
      rw [childAt, ← child?_opened v (.index i), hv, child?_list_index]
    change atIndex i step v = _
    rw [atIndex_of_lt hi, ensureLength_of_opened hv, padded_eq_ok hgrow, put_index hv, hchild]
    dsimp only
    rw [getD_append_replicate]
    rfl

/-- A node that refuses a segment answers the cause, whatever the step would do. -/
theorem atSegment_of_refuses (h : v.Refuses s e) (step : Build α) :
    atSegment s step v = (.error e, v.afterRefusal s) := by
  cases h with
  | key hd hh =>
    cases v with
    | dict es => exact absurd rfl hd
    | hole => exact absurd rfl hh
    | _ => rfl
  | uncounted hi =>
    change atIndex _ step v = _
    rw [atIndex_of_le hi, afterRefusal, if_neg (Nat.not_lt.2 hi)]
  | index hi hl hh =>
    change atIndex _ step v = _
    rw [atIndex_of_lt hi, afterRefusal, if_pos hi, opened_of_kind hh]
    cases v with
    | list vs => exact absurd rfl hl
    | hole => exact absurd rfl hh
    | _ => rfl
  | growth hi hv hlen hgrow =>
    change atIndex _ step v = _
    rw [atIndex_of_lt hi, ensureLength_of_opened hv,
      padded_eq_error (Nat.lt_succ_of_le hlen) hgrow, afterRefusal, if_pos hi, hv]
    rfl

end Build

end Bencode
