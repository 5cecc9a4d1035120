import Bencode.Proofs.Build.KeyOrder
import Bencode.Proofs.Build.Refusal
import Bencode.Proofs.FirstHole

/-! # Failing steps and the holes of a tree

A step that fails has put nothing into the tree but containers and holes on its way. It takes a hole away in
one case: a hole becomes a list before it is known whether the list can grow, and stays one if it cannot. All
other failures leave a tree with a hole as one with a hole.
-/
namespace Bencode

theorem Reply.eq_error_of_ofResult {α : Type} {f : α → Reply} {r : Except Error α} {e : Error}
    (hf : ∀ a, r = .ok a → f a ≠ .failed e) (h : ofResult f r = .failed e) : r = .error e := by
  cases r with
  | error e' =>
    cases h
    rfl
  | ok a => exact absurd h (hf a rfl)

/-- The length that a list must have for the segment, if there is such a length. -/
def Segment.needs? : Segment → Option Nat
  | .key _ => none
  | .index i => if i < maxListLength then some (i + 1) else none

/-- The length to which the step extends the list in its slot. -/
def SlotStep.needs? : SlotStep → Option Nat
  | .setIndex i _ | .element i => (Segment.index i).needs?
  | .ensureLength n => some n
  | _ => none

namespace TreeStep

/-- The step needs a list of `n` items at the end of `q`, on its way or in its slot. -/
inductive Needs : TreeStep → Path → Nat → Prop where
  | set {p q : Path} {v : Value} {s : Segment} {n : Nat} (hq : q ++ [s] <+: p) (hn : s.needs? = some n) :
    Needs (.set p v) q n
  | way {p q : Path} {step : SlotStep} {s : Segment} {n : Nat} (hq : q ++ [s] <+: p)
    (hn : s.needs? = some n) : Needs (.slot p step) q n
  | slot {p : Path} {step : SlotStep} {n : Nat} (hn : step.needs? = some n) : Needs (.slot p step) p n

/-- The step gets to a hole, or to where one is created, and needs a list there that cannot grow so long. -/
structure Overgrows [Growth] (step : TreeStep) (t : Value) (q : Path) (n : Nat) : Prop where
  needs : step.Needs q n
  takes : t.TakesAll q
  hole : t.nodeAt q = .hole
  refused : ¬ Growth.allows n

end TreeStep

namespace Value

variable {t v w : Value} {q r : Path} {s c : Segment} {e : Error} {n : Nat}

theorem LacksBefore.child?_put (h : v.LacksBefore s c) (w : Value) : (v.put s w).child? c = some .hole := by
  obtain ⟨i, j, items, rfl, rfl, hv, hlen, hlt⟩ := h
  rw [put_index hv, child?_list_index, getElem?_putItem, if_neg (Nat.ne_of_lt hlt),
    if_neg (Nat.not_lt.2 hlen), if_pos hlt]

variable [Growth]

theorem IsPadding.follow?_putAt (h : t.IsPadding q r) (hq : t.TakesAll q) (w : Value) :
    (t.putAt q w).follow? r = some .hole := by
  obtain ⟨front, s, c, p, rfl, rfl, hlacks⟩ := h
  rw [putAt_append, follow?_putAt_append (takesAll_append.1 hq).1, follow?_singleton, putAt,
    hlacks.child?_put]

/-- Creating what is missing on a path takes no hole away. -/
theorem not_holeFree_putAt_nodeAt (ht : t.Sorted) (hholes : ¬ t.HoleFree) (hq : t.TakesAll q) :
    ¬ (t.putAt q (t.nodeAt q)).HoleFree := by
  rw [holeFree_iff_follow? ht, not_forall_not] at hholes
  obtain ⟨r, hr⟩ := hholes
  by_cases hqr : q <+: r
  · obtain ⟨r, rfl⟩ := hqr
    rw [follow?_append, Option.bind_eq_some_iff] at hr
    obtain ⟨c, hc, hr⟩ := hr
    refine not_holeFree_of_follow? (p := q ++ r) ?_
    rw [follow?_putAt_append hq, nodeAt_of_follow? hc, hr]
  by_cases hrq : r <+: q
  · -- the path goes on behind the hole, so that a hole is at its end, too
    obtain ⟨q, rfl⟩ := hrq
    have hnode : t.nodeAt (r ++ q) = .hole := by
      rw [nodeAt_append, nodeAt_of_follow? hr, nodeAt_hole]
    refine not_holeFree_of_follow? (p := r ++ q) ?_
    rw [follow?_putAt hq, hnode]
  · rcases follow?_putAt_of_not_prefix hq hqr hrq (t.nodeAt q) with ⟨-, hhole⟩ | hsame
    · exact not_holeFree_of_follow? hhole
    · exact not_holeFree_of_follow? (hsame.trans hr)

/-- An empty list at the end of a path leaves no hole just if all holes were on the path and it creates none
beside it. -/
theorem holeFree_putAt_nil_iff (ht : t.Sorted) (hq : t.TakesAll q) (hnode : t.nodeAt q = .hole) :
    (t.putAt q (.list [])).HoleFree ↔
      (∀ r, t.follow? r = some .hole → r <+: q) ∧ ∀ r, ¬ t.IsPadding q r := by
  have hnil : (list []).Sorted := sorted_list.2 fun v hv => absurd hv List.not_mem_nil
  constructor
  · intro hfree
    refine ⟨fun r hr => ?_, fun r hpad => not_holeFree_of_follow? (hpad.follow?_putAt hq _) hfree⟩
    by_contra hrq
    have hqr : ¬ q <+: r := by
      rintro ⟨_ | ⟨s, r⟩, rfl⟩
      · rw [List.append_nil] at hrq
        exact hrq (List.prefix_refl q)
      · rw [follow?_append, Option.bind_eq_some_iff] at hr
        obtain ⟨c, hc, hr⟩ := hr
        rw [← nodeAt_of_follow? hc, hnode, follow?_hole_cons] at hr
        cases hr
    rcases follow?_putAt_of_not_prefix hq hqr hrq (.list []) with ⟨-, hhole⟩ | hsame
    · exact not_holeFree_of_follow? hhole hfree
    · exact not_holeFree_of_follow? (hsame.trans hr) hfree
  · rintro ⟨hon, hpad⟩
    rw [holeFree_iff_follow? (sorted_putAt ht hnil hq)]
    intro r hr
    by_cases hqr : q <+: r
    · obtain ⟨_ | ⟨s, r⟩, rfl⟩ := hqr
      · rw [follow?_putAt_append hq] at hr
        cases hr
      · rw [follow?_putAt_append hq, follow?_cons] at hr
        cases s <;> cases hr
    by_cases hrq : r <+: q
    · obtain ⟨_ | ⟨s, q⟩, rfl⟩ := hrq
      · exact hqr (by rw [List.append_nil])
      · have hs : r ++ [s] <+: r ++ s :: q := ⟨q, by simp⟩
        obtain ⟨u, hu, hkind, -⟩ := exists_follow?_putAt_of_prefix hq hs (.list [])
        rw [hr, Option.some.injEq] at hu
        subst hu
        cases s <;> cases hkind
    · rcases follow?_putAt_of_not_prefix hq hqr hrq (.list []) with ⟨hrpad, -⟩ | hsame
      · exact hpad r hrpad
      · exact hrq (hon r (hsame.symm.trans hr))

theorem Refuses.afterRefusal_eq_or (h : v.Refuses s e) :
    v.afterRefusal s = v ∨ v = .hole ∧ ∃ n, s.needs? = some n ∧ ¬ Growth.allows n := by
  by_cases hlist : v.BecomesList s
  · obtain ⟨rfl, i, hi, rfl⟩ := hlist
    refine .inr ⟨rfl, i + 1, if_pos hi, ?_⟩
    cases h with
    | uncounted hno => exact absurd hi (Nat.not_lt.2 hno)
    | index _ _ hh => exact absurd rfl hh
    | growth _ _ _ hgrow => exact hgrow
  · exact .inl (afterRefusal_of_not_becomesList hlist)

theorem refuses_hole (hn : s.needs? = some n) (hgrow : ¬ Growth.allows n) :
    hole.Refuses s (.indexOutOfRange (n - 1)) ∧ hole.afterRefusal s = .list [] := by
  cases s with
  | key k => cases hn
  | index i =>
    obtain ⟨hi, hn⟩ := Option.ite_none_right_eq_some.1 hn
    cases hn
    exact ⟨.growth hi rfl (Nat.zero_le i) hgrow, afterRefusal_of_becomesList ⟨rfl, i, hi, rfl⟩⟩

end Value

namespace Build

open Value

theorem map_eq_error_iff {α β : Type} {r : Except Error α} {f : α → β} {e : Error} :
    r.map f = .error e ↔ r = .error e := by
  cases r <;> simp [Except.map]

variable [Growth] {α : Type} {step : Build α} {t u v w : Value} {p q : Path} {s : Segment} {e : Error} {n : Nat}

theorem atSegment_eq_error (hstep : ∀ v, ∃ a, (step v).1 = .ok a)
    (h : atSegment s step v = (.error e, w)) :
    w = v ∨ v = .hole ∧ ∃ n, s.needs? = some n ∧ ¬ Growth.allows n := by
  rcases refuses_or_takes v s with ⟨e', he⟩ | hs
  · rw [atSegment_of_refuses he, Prod.mk.injEq] at h
    rw [← h.2]
    exact he.afterRefusal_eq_or
  · obtain ⟨a, ha⟩ := hstep (v.childAt s)
    rw [atSegment_of_takes hs, ha] at h
    cases h

theorem ensureLength_eq_error (h : ensureLength n v = (.error e, w)) :
    w = v ∨ v = .hole ∧ ¬ Growth.allows n := by
  have hpadded {items : List Value} (hv : v.opened (.index 0) = .list items) :
      w = .list items ∧ ¬ Growth.allows n := by
    rw [ensureLength_of_opened hv] at h
    by_cases hgrow : n ≤ items.length ∨ Growth.allows n
    · rw [padded_eq_ok hgrow] at h
      cases h
    · rw [not_or, Nat.not_le] at hgrow
      rw [padded_eq_error hgrow.1 hgrow.2] at h
      cases h
      exact ⟨rfl, hgrow.2⟩
  cases v with
  | hole => exact .inr ⟨rfl, (hpadded rfl).2⟩
  | list items => exact .inl (hpadded rfl).1
  | _ =>
    cases h
    exact .inl rfl

/-- Along a path a step fails at a segment that is refused or at its end. -/
theorem atPath_eq_error (h : atPath p step t = (.error e, u)) :
    (∃ q s, q ++ [s] <+: p ∧ t.TakesAll q ∧ (t.nodeAt q).Refuses s e ∧
        u = t.putAt q ((t.nodeAt q).afterRefusal s)) ∨
      t.TakesAll p ∧ ∃ w, step (t.nodeAt p) = (.error e, w) ∧ u = t.putAt p w := by
  rcases stopsAt_or_takesAll t p with ⟨q, s, e', hstop⟩ | hp
  · rw [atPath_of_stopsAt hstop] at h
    cases h
    exact .inl ⟨q, s, hstop.on_path, hstop.takesAll, hstop.refused, rfl⟩
  · rw [atPath_of_takesAll hp] at h
    obtain ⟨he, hu⟩ := Prod.mk.inj h
    exact .inr ⟨hp, _, Prod.ext he rfl, hu.symm⟩

theorem atPath_of_overgrown (hq : q ++ [s] <+: p) (htakes : t.TakesAll q) (hhole : t.nodeAt q = .hole)
    (hn : s.needs? = some n) (hgrow : ¬ Growth.allows n) (step : Build α) :
    atPath p step t = (.error (.indexOutOfRange (n - 1)), t.putAt q (.list [])) := by
  obtain ⟨hrefuses, hafter⟩ := refuses_hole hn hgrow
  have hstop : t.StopsAt p q s (.indexOutOfRange (n - 1)) :=
    ⟨hq, hhole ▸ hrefuses, takesAll_iff.1 htakes⟩
  rw [atPath_of_stopsAt hstop, hhole, hafter]

/-- What is answered along a path is what the step at its end answers. -/
theorem exists_of_atPath_eq_ok {a : α} (h : (atPath p step t).1 = .ok a) : ∃ v, (step v).1 = .ok a := by
  have hp : t.TakesAll p := takesAll_of_atPath_eq_ok (Prod.ext h rfl)
  rw [atPath_of_takesAll hp] at h
  exact ⟨_, h⟩

end Build

namespace SlotStep

open Build

variable [Growth] {step : SlotStep} {v w : Value} {e : Error} {n : Nat}

theorem apply_setKey (k : Bytes) (x v : Value) : (setKey k x).apply v =
    ((atSegment (.key k) (assign x) v).1.map fun _ => .done, (atSegment (.key k) (assign x) v).2) :=
  rfl

theorem apply_setIndex (i : Nat) (x v : Value) : (setIndex i x).apply v =
    ((atSegment (.index i) (assign x) v).1.map fun _ => .done, (atSegment (.index i) (assign x) v).2) :=
  rfl

theorem apply_ensureLength (n : Nat) (v : Value) : (ensureLength n).apply v =
    ((Build.ensureLength n v).1.map fun items => .count items.length, (Build.ensureLength n v).2) :=
  rfl

/-- In its slot a failing step leaves everything as it is but a hole that needs too long a list. -/
theorem apply_eq_error (h : step.apply v = (.error e, w)) :
    w = v ∨ v = .hole ∧ ∃ n, step.needs? = some n ∧ ¬ Growth.allows n := by
  cases step with
  | look => cases h
  | setKey k x =>
    rw [apply_setKey, Prod.mk.injEq, map_eq_error_iff] at h
    exact atSegment_eq_error (fun _ => ⟨(), rfl⟩) (Prod.ext h.1 h.2)
  | setIndex i x =>
    rw [apply_setIndex, Prod.mk.injEq, map_eq_error_iff] at h
    exact atSegment_eq_error (s := .index i) (fun _ => ⟨(), rfl⟩) (Prod.ext h.1 h.2)
  | entry k => exact atSegment_eq_error (s := .key k) (fun v => ⟨.tree (some v), rfl⟩) h
  | element i => exact atSegment_eq_error (s := .index i) (fun v => ⟨.tree (some v), rfl⟩) h
  | ensureLength n =>
    rw [apply_ensureLength, Prod.mk.injEq, map_eq_error_iff] at h
    refine (ensureLength_eq_error (Prod.ext h.1 h.2)).imp_right fun hv => ?_
    exact ⟨hv.1, n, rfl, hv.2⟩
  | invalid cause =>
    cases h
    exact .inl rfl
  | addInteger | appendBytes | pushItem | popItem | removeKey =>
    -- each works on one kind of value and leaves the others alone
    cases v <;> cases h <;> exact .inl rfl

theorem apply_hole (hn : step.needs? = some n) (hgrow : ¬ Growth.allows n) :
    step.apply .hole = (.error (.indexOutOfRange (n - 1)), .list []) := by
  have hindex {α : Type} {i : Nat} (b : Build α) (hi : (Segment.index i).needs? = some n) :
      atSegment (.index i) b .hole = (.error (.indexOutOfRange (n - 1)), .list []) :=
    atPath_of_overgrown (p := [.index i]) (q := []) (List.prefix_refl _) trivial rfl hi hgrow b
  cases step with
  | setIndex i x =>
    rw [apply_setIndex, hindex _ hn]
    rfl
  | element i => exact hindex (fun v => (.ok (Reply.tree (some v)), v)) hn
  | ensureLength m =>
    cases hn
    have hpos : ([] : List Value).length < n := by
      refine Nat.pos_of_ne_zero ?_
      rintro rfl
      exact hgrow Growth.allows_zero
    rw [apply_ensureLength, Build.ensureLength, padded_eq_error hpos hgrow]
    rfl
  | _ => cases hn

/-- A step that succeeds does not answer with a failure. -/
theorem apply_ne_failed (step : SlotStep) (v : Value) (e : Error) : (step.apply v).1 ≠ .ok (.failed e) := by
  have hmap {α : Type} {r : Except Error α} {f : α → Reply} (hf : ∀ a, f a ≠ .failed e) :
      r.map f ≠ .ok (.failed e) := by
    cases r with
    | error e' => exact fun h => by cases h
    | ok a => exact fun h => hf a (Except.ok.inj h)
  intro h
  cases step with
  | setKey k x => exact hmap (fun _ => by simp) h
  | setIndex i x => exact hmap (fun _ => by simp) h
  | ensureLength n => exact hmap (fun _ => by simp) h
  | entry k =>
    obtain ⟨w, hw⟩ := exists_of_atPath_eq_ok (p := [.key k]) h
    cases hw
  | element i =>
    obtain ⟨w, hw⟩ := exists_of_atPath_eq_ok (p := [.index i]) h
    cases hw
  | look | invalid => cases h
  | addInteger | appendBytes | pushItem | popItem | removeKey => cases v <;> cases h

end SlotStep

namespace TreeStep

open Build Value

variable [Growth] {step : TreeStep} {t u : Value} {q : Path} {e : Error} {n : Nat}

/-- A hole that needs too long a list makes the step fail and is an empty list then. -/
theorem Overgrows.apply (h : step.Overgrows t q n) :
    step.apply t = (.failed (.indexOutOfRange (n - 1)), t.putAt q (.list [])) := by
  obtain ⟨hneeds, htakes, hhole, hgrow⟩ := h
  cases hneeds with
  | set hq hn =>
    rw [TreeStep.apply, Build.set, atPath_of_overgrown hq htakes hhole hn hgrow]
    rfl
  | way hq hn =>
    rw [TreeStep.apply, atPath_of_overgrown hq htakes hhole hn hgrow]
    rfl
  | slot hn =>
    rw [TreeStep.apply, atPath_of_takesAll htakes, hhole, SlotStep.apply_hole hn hgrow]
    rfl

/-- A step that fails for any other reason leaves what is there or what it has created on its way. -/
theorem apply_eq_failed (h : step.apply t = (.failed e, u)) :
    (∃ q, t.TakesAll q ∧ u = t.putAt q (t.nodeAt q)) ∨ ∃ q n, step.Overgrows t q n := by
  have hrefused {q : Path} {s : Segment} (hq : t.TakesAll q) (hs : (t.nodeAt q).Refuses s e) :
      t.putAt q ((t.nodeAt q).afterRefusal s) = t.putAt q (t.nodeAt q) ∨
        t.nodeAt q = .hole ∧ ∃ n, s.needs? = some n ∧ ¬ Growth.allows n :=
    hs.afterRefusal_eq_or.imp_left (congrArg (t.putAt q))
  cases step with
  | set p v =>
    obtain ⟨hreply, htree⟩ := Prod.mk.inj h
    have herror := Reply.eq_error_of_ofResult (fun _ _ hdone => by cases hdone) hreply
    have hpath : atPath p (assign v) t = (.error e, u) := Prod.ext herror htree
    rcases atPath_eq_error hpath with ⟨q, s, hon, hq, hs, rfl⟩ | ⟨-, w, hw, -⟩
    · rcases hrefused hq hs with hsame | ⟨hhole, n, hn, hgrow⟩
      · exact .inl ⟨q, hq, hsame⟩
      · exact .inr ⟨q, n, .set hon hn, hq, hhole, hgrow⟩
    · cases hw
  | slot p step =>
    obtain ⟨hreply, htree⟩ := Prod.mk.inj h
    have hanswer (a : Reply) (ha : (atPath p step.apply t).1 = .ok a) : a ≠ .failed e := by
      rintro rfl
      obtain ⟨v, hv⟩ := exists_of_atPath_eq_ok ha
      exact step.apply_ne_failed v e hv
    have hpath : atPath p step.apply t = (.error e, u) :=
      Prod.ext (Reply.eq_error_of_ofResult hanswer hreply) htree
    rcases atPath_eq_error hpath with ⟨q, s, hon, hq, hs, rfl⟩ | ⟨hp, w, hw, rfl⟩
    · rcases hrefused hq hs with hsame | ⟨hhole, n, hn, hgrow⟩
      · exact .inl ⟨q, hq, hsame⟩
      · exact .inr ⟨q, n, .way hon hn, hq, hhole, hgrow⟩
    · rcases SlotStep.apply_eq_error hw with rfl | ⟨hhole, n, hn, hgrow⟩
      · exact .inl ⟨p, hp, rfl⟩
      · exact .inr ⟨p, n, .slot hn, hp, hhole, hgrow⟩
  | _ => exact .inl ⟨[], trivial, (Prod.mk.inj h).2.symm⟩

end TreeStep

/-- A failing step makes a tree with holes one without in one case only: it has got to a hole that needs too
long a list, all holes of the tree were on the path there, and the path has created none beside it. What is
left then is the tree with an empty list at the end of this path; any other tree it leaves has no encoding. -/
theorem failure_completes_by_overgrowth_only [Growth] {step : TreeStep} {t u : Value} {e : Error} (ht : t.Sorted)
    (hholes : ¬ t.HoleFree) (h : step.apply t = (.failed e, u)) :
    (¬ u.HoleFree ↔ ∃ p, encode u = .error (.unassigned p)) ∧
      (u.HoleFree ↔ ∃ q n, step.Overgrows t q n ∧ (∀ r, t.follow? r = some .hole → r <+: q) ∧
        ∀ r, ¬ t.IsPadding q r) ∧
      ∀ q n, step.Overgrows t q n → e = .indexOutOfRange (n - 1) ∧ u = (Build.set q (.list []) t).2 := by
  have hovergrown {q : Path} {n : Nat} (ho : step.Overgrows t q n) :
      e = .indexOutOfRange (n - 1) ∧ u = t.putAt q (.list []) := by
    rw [ho.apply, Prod.mk.injEq, Reply.failed.injEq] at h
    exact ⟨h.1.symm, h.2.symm⟩
  have hfree {q : Path} {n : Nat} (ho : step.Overgrows t q n) : u.HoleFree ↔
      (∀ r, t.follow? r = some .hole → r <+: q) ∧ ∀ r, ¬ t.IsPadding q r := by
    rw [(hovergrown ho).2]
    exact Value.holeFree_putAt_nil_iff ht ho.takes ho.hole
  refine ⟨⟨fun hu => ?_, fun ⟨p, hp⟩ hu => ?_⟩,
    ⟨fun hu => ?_, fun ⟨q, n, ho, hon⟩ => (hfree ho).2 hon⟩, fun q n ho => ?_⟩
  · obtain ⟨p, hp⟩ := Value.exists_findHole hu
    exact ⟨p, encode_of_findHole hp⟩
  · rw [encode_eq_ok_iff.2 ⟨hu, rfl⟩] at hp
    cases hp
  · rcases TreeStep.apply_eq_failed h with ⟨q, hq, rfl⟩ | ⟨q, n, ho⟩
    · exact absurd hu (Value.not_holeFree_putAt_nodeAt ht hholes hq)
    · exact ⟨q, n, ho, (hfree ho).1 hu⟩
  · rw [Build.set_of_takesAll ho.takes]
    exact hovergrown ho

/-- A value of the wrong kind on the path makes the step fail, and the hole beside it is still there. -/
theorem failure_completes_by_overgrowth_only_mismatch :
    (Value.dict [([97], .integer 5), ([98], .hole)]).Sorted ∧
      ¬ (Value.dict [([97], .integer 5), ([98], .hole)]).HoleFree ∧
      (TreeStep.set [.key [97], .index 2] (.integer 1)).apply
          (.dict [([97], .integer 5), ([98], .hole)]) =
        (.failed (.kindMismatch .list .integer), .dict [([97], .integer 5), ([98], .hole)]) ∧
      ∃ p, encode (.dict [([97], .integer 5), ([98], .hole)]) = .error (.unassigned p) := by
  have hkeys : ([97] : Bytes) < [98] := by decide
  have hsorted : (Value.dict [([97], .integer 5), ([98], .hole)]).Sorted := by
    simp [Value.Sorted, Value.SortedEntries, Entries.Sorted, Entries.keys, hkeys]
  have hholes : ¬ (Value.dict [([97], .integer 5), ([98], .hole)]).HoleFree := by
    simp [Value.HoleFree, Value.HoleFreeEntries]
  have hfails : (TreeStep.set [.key [97], .index 2] (.integer 1)).apply
      (.dict [([97], .integer 5), ([98], .hole)]) =
        (.failed (.kindMismatch .list .integer), .dict [([97], .integer 5), ([98], .hole)]) := rfl
  obtain ⟨hencode, hfree, hovergrown⟩ := failure_completes_by_overgrowth_only hsorted hholes hfails
  refine ⟨hsorted, hholes, hfails, hencode.1 fun hu => ?_⟩
  obtain ⟨q, n, ho, -⟩ := hfree.1 hu
  cases (hovergrown q n ho).1

/-- The one hole of a tree becomes an empty list and the tree complete, although the step fails. -/
theorem overgrown_hole_completes :
    (TreeStep.slot [] (.ensureLength growthLimit)).apply .hole =
        (.failed (.indexOutOfRange (growthLimit - 1)), .list []) ∧
      encode .hole = .error (.unassigned []) ∧ encode (.list []) = .ok [108, 101] :=
  ⟨rfl, rfl, rfl⟩

end Bencode
