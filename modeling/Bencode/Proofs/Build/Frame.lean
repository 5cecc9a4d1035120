import Bencode.Proofs.Build.Path

/-! # A write along a path changes one place

What a successful write leaves is the tree with the value put at the end of the path, so that its frame
is what the laws of `putAt` say.
-/
namespace Bencode.Build

open Value

section

variable [Growth] {t t' w x : Value} {p : Path}

theorem set_of_takesAll (h : t.TakesAll p) (w : Value) : set p w t = (.ok (), t.putAt p w) :=
  atPath_of_takesAll h (assign w)

theorem slot_of_takesAll (h : t.TakesAll p) :
    slot p t = (.ok (t.nodeAt p), t.putAt p (t.nodeAt p)) :=
  atPath_of_takesAll h look

theorem set_eq_ok_iff : set p w t = (.ok (), t') ↔ t.TakesAll p ∧ t' = t.putAt p w := by
  constructor
  · intro h
    have hp : t.TakesAll p := takesAll_of_atPath_eq_ok h
    rw [set_of_takesAll hp, Prod.mk.injEq] at h
    exact ⟨hp, h.2.symm⟩
  · rintro ⟨hp, rfl⟩
    exact set_of_takesAll hp w

/-- The slot of a value that is there is this value, and asking for it changes nothing. -/
theorem slot_of_follow? (hs : t.Sorted) (hc : t.Counted) (h : t.follow? p = some x) :
    slot p t = (.ok x, t) := by
  rw [slot_of_takesAll (hc.takesAll h), nodeAt_of_follow? h, putAt_of_follow? hs h]

/-- A write changes the place at the end of its path, and no other except by the holes that it puts in
front of an index. -/
theorem set_writes_one_place (t : Value) (p : Path) :
    (∀ w t', set p w t = (.ok (), t') →
      (t'.follow? p = some w ∧ ∀ r, t'.follow? (p ++ r) = w.follow? r) ∧
      (∀ q, ¬ p <+: q → ¬ q <+: p →
        (∀ x, t.follow? q = some x → t'.follow? q = some x) ∧
        (t.follow? q = none →
          t'.follow? q = none ∨ t'.follow? q = some .hole ∧ t.IsPadding p q)) ∧
      (∀ q s, q ++ [s] <+: p → ∃ u, t'.follow? q = some u ∧ u.kind = s.container ∧
        ∀ c, (t.follow? (q ++ [c])).isSome → (t'.follow? (q ++ [c])).isSome) ∧
      ∀ w', set p w' t' = set p w' t) ∧
    (t.Sorted → t.Counted → ∀ x, t.follow? p = some x → slot p t = (.ok x, t)) := by
  refine ⟨fun w t' h => ?_, fun hs hc x hx => slot_of_follow? hs hc hx⟩
  obtain ⟨hp, rfl⟩ := set_eq_ok_iff.1 h
  refine ⟨⟨follow?_putAt hp w, follow?_putAt_append hp w⟩, fun q hpq hqp => ?_,
    fun q s hq => exists_follow?_putAt_of_prefix hp hq w, fun w' => ?_⟩
  · rcases follow?_putAt_of_not_prefix hp hpq hqp w with ⟨hpad, hhole⟩ | heq
    · have hnone : t.follow? q = none := hpad.follow?_eq_none
      refine ⟨fun x hx => ?_, fun _ => .inr ⟨hhole, hpad⟩⟩
      rw [hnone] at hx
      cases hx
    · rw [heq]
      exact ⟨fun x hx => hx, fun hnone => .inl hnone⟩
  · rw [set_of_takesAll (hp.putAt w), set_of_takesAll hp, putAt_putAt hp]

end

/-- A list of one item is padded up to the index 2, and its item is where it was. -/
theorem set_writes_one_place_padded :
    set [.key [97], .index 2] (.bytes [120]) (.dict [([97], .list [.integer 1])]) =
        (.ok (), .dict [([97], .list [.integer 1, .hole, .bytes [120]])]) ∧
      (Value.dict [([97], .list [.integer 1, .hole, .bytes [120]])]).follow?
        [.key [97], .index 0] = some (.integer 1) ∧
      (Value.dict [([97], .list [.integer 1])]).Sorted ∧
      (Value.dict [([97], .list [.integer 1])]).Counted ∧
      slot [.key [97], .index 0] (.dict [([97], .list [.integer 1])]) =
        (.ok (.integer 1), .dict [([97], .list [.integer 1])]) := by
  have hset : set [.key [97], .index 2] (.bytes [120]) (.dict [([97], .list [.integer 1])]) =
      (.ok (), .dict [([97], .list [.integer 1, .hole, .bytes [120]])]) := rfl
  have hsorted : (Value.dict [([97], .list [.integer 1])]).Sorted := by
    simp [Value.Sorted, SortedEntries, SortedItems, Entries.Sorted, Entries.keys]
  have hcounted : (Value.dict [([97], .list [.integer 1])]).Counted := by
    simp [Counted, nodes, nodesEntries, nodesItems, maxListLength]
  have hframe := ((set_writes_one_place _ _).1 _ _ hset).2.1 [.key [97], .index 0] (by decide)
    (by decide)
  exact ⟨hset, hframe.1 _ rfl, hsorted, hcounted,
    (set_writes_one_place _ [.key [97], .index 0]).2 hsorted hcounted _ rfl⟩

end Bencode.Build
