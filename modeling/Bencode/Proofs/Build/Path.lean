import Bencode.Proofs.Build.Segment

/-! # Building along a path

A tree takes a path up to the first segment that is refused. Along a path that it takes as a whole, a
build step works on `nodeAt` and what it leaves is put in by `putAt`; otherwise the tree is left as it is
after the refusal. The laws of `putAt` say where such a tree differs from the one before.
-/
namespace Bencode

namespace Value

/-- The node at the end of a path, a hole if the path leads nowhere. -/
def nodeAt (v : Value) (p : Path) : Value := (v.follow? p).getD .hole

/-- The tree with a value at the end of a path, with all that is missing on the way to it. -/
def putAt (v : Value) : Path → Value → Value
  | [], w => w
  | s :: p, w => v.put s ((v.childAt s).putAt p w)

variable {v w x : Value} {p q r : Path} {s : Segment} {e : Error}

@[simp] theorem nodeAt_nil (v : Value) : v.nodeAt [] = v := rfl

theorem nodeAt_of_follow? (h : v.follow? p = some x) : v.nodeAt p = x := by
  rw [nodeAt, h, Option.getD_some]

theorem follow?_hole_cons (s : Segment) (p : Path) : hole.follow? (s :: p) = none := by
  rw [follow?_cons, child?_hole, Option.bind_none]

theorem nodeAt_hole (p : Path) : hole.nodeAt p = .hole := by
  cases p with
  | nil => rfl
  | cons s p => rw [nodeAt, follow?_hole_cons, Option.getD_none]

theorem nodeAt_append (v : Value) (p q : Path) : v.nodeAt (p ++ q) = (v.nodeAt p).nodeAt q := by
  unfold nodeAt
  rw [follow?_append]
  cases v.follow? p with
  | none => exact (nodeAt_hole q).symm
  | some u => rfl

theorem nodeAt_cons (v : Value) (s : Segment) (p : Path) :
    v.nodeAt (s :: p) = (v.childAt s).nodeAt p := by
  have hs : v.nodeAt [s] = v.childAt s := by
    rw [nodeAt, childAt, follow?_cons]
    cases v.child? s <;> rfl
  rw [← hs, ← nodeAt_append, List.singleton_append]

theorem follow?_singleton (v : Value) (s : Segment) : v.follow? [s] = v.child? s :=
  Option.bind_fun_some _

/-- A hole has no children, so that it makes no difference whether `p` leads anywhere. -/
theorem follow?_concat (v : Value) (p : Path) (s : Segment) :
    v.follow? (p ++ [s]) = (v.nodeAt p).child? s := by
  rw [follow?_append, nodeAt]
  cases v.follow? p with
  | none => exact (child?_hole s).symm
  | some u => exact follow?_singleton u s

theorem follow?_cons_childAt (v : Value) (s : Segment) (hq : q ≠ []) :
    v.follow? (s :: q) = (v.childAt s).follow? q := by
  rw [follow?_cons, childAt]
  cases v.child? s with
  | some c => rfl
  | none =>
    obtain ⟨t, q, rfl⟩ := List.exists_cons_of_ne_nil hq
    rw [Option.bind_none, Option.getD_none, follow?_hole_cons]

theorem putAt_append (v : Value) (p q : Path) (w : Value) :
    v.putAt (p ++ q) w = v.putAt p ((v.nodeAt p).putAt q w) := by
  induction p generalizing v with
  | nil => rfl
  | cons s p ih => rw [List.cons_append, putAt, putAt, ih, nodeAt_cons]

theorem putAt_of_follow? (hv : v.Sorted) (h : v.follow? p = some w) : v.putAt p w = v := by
  induction p generalizing v with
  | nil => exact (Option.some.inj h).symm
  | cons s p ih =>
    obtain ⟨c, hc, h⟩ := follow?_cons_eq_some.1 h
    have hchild : v.childAt s = c := by rw [childAt, hc, Option.getD_some]
    rw [putAt, hchild, ih (hv.child? hc) h, put_of_child? hv hc]

/-- No list in the tree is longer than can be counted. -/
def Counted (v : Value) : Prop := ∀ items, .list items ∈ v.nodes → items.length ≤ maxListLength

/-- Behind `r`, where the path `p` goes on to an index, the path `q` goes on to a smaller one that the
list there lacks: an element of its padding. -/
def IsPadding (v : Value) (p q : Path) : Prop :=
  ∃ r s c p', p = r ++ s :: p' ∧ q = r ++ [c] ∧ (v.nodeAt r).LacksBefore s c

theorem IsPadding.follow?_eq_none (h : v.IsPadding p q) : v.follow? q = none := by
  obtain ⟨r, s, c, p', rfl, rfl, hlacks⟩ := h
  rw [follow?_append]
  cases hr : v.follow? r with
  | none => rfl
  | some u =>
    rw [nodeAt_of_follow? hr] at hlacks
    rw [Option.bind_some, follow?_cons, hlacks.child?_eq_none, Option.bind_none]

theorem IsPadding.cons (h : (v.childAt s).IsPadding p q) : v.IsPadding (s :: p) (s :: q) := by
  obtain ⟨r, t, c, p', rfl, rfl, hlacks⟩ := h
  rw [← nodeAt_cons] at hlacks
  exact ⟨s :: r, t, c, p', rfl, rfl, hlacks⟩

variable [Growth]

/-- Every segment of the path is taken by the node that it starts from. -/
def TakesAll (v : Value) : Path → Prop
  | [] => True
  | s :: p => v.Takes s ∧ (v.childAt s).TakesAll p

theorem takesAll_append : v.TakesAll (p ++ q) ↔ v.TakesAll p ∧ (v.nodeAt p).TakesAll q := by
  induction p generalizing v with
  | nil => simp [TakesAll]
  | cons s p ih => rw [List.cons_append, TakesAll, TakesAll, ih, nodeAt_cons, and_assoc]

/-- The segment `s` behind `q` is the first one on the path `p` that is refused. -/
structure StopsAt (v : Value) (p q : Path) (s : Segment) (e : Error) : Prop where
  on_path : q ++ [s] <+: p
  refused : (v.nodeAt q).Refuses s e
  first : ∀ q' s' e', q' ++ [s'] <+: q → ¬ (v.nodeAt q').Refuses s' e'

theorem takesAll_iff :
    v.TakesAll p ↔ ∀ q s e, q ++ [s] <+: p → ¬ (v.nodeAt q).Refuses s e := by
  constructor
  · rintro h q s e ⟨r, rfl⟩
    rw [List.append_assoc, takesAll_append] at h
    exact h.2.1.not_refuses e
  · intro h
    induction p generalizing v with
    | nil => trivial
    | cons s p ih =>
      have hs : v.Takes s := by
        rcases refuses_or_takes v s with ⟨e, he⟩ | hs
        · exact absurd he (h [] s e ⟨p, rfl⟩)
        · exact hs
      refine ⟨hs, ih fun q t e hq he => ?_⟩
      rw [← nodeAt_cons] at he
      exact h (s :: q) t e (List.cons_prefix_cons.2 ⟨rfl, hq⟩) he

theorem StopsAt.takesAll (h : v.StopsAt p q s e) : v.TakesAll q := takesAll_iff.2 h.first

theorem stopsAt_or_takesAll (v : Value) (p : Path) :
    (∃ q s e, v.StopsAt p q s e) ∨ v.TakesAll p := by
  induction p generalizing v with
  | nil => exact .inr trivial
  | cons s p ih =>
    rcases refuses_or_takes v s with ⟨e, he⟩ | hs
    · refine .inl ⟨[], s, e, ⟨p, rfl⟩, he, fun q' s' e' hq => ?_⟩
      have hnil := List.prefix_nil.1 hq
      simp at hnil
    · rcases ih (v.childAt s) with ⟨q, t, e, hon, hrefused, hfirst⟩ | hp
      · rw [← nodeAt_cons] at hrefused
        refine .inl ⟨s :: q, t, e, List.cons_prefix_cons.2 ⟨rfl, hon⟩, hrefused, ?_⟩
        intro q' s' e' hq
        have htakes : v.TakesAll (s :: q) := ⟨hs, takesAll_iff.2 hfirst⟩
        exact takesAll_iff.1 htakes q' s' e' hq
      · exact .inr ⟨hs, hp⟩

/-- What was put at the end of a path is found there. -/
theorem follow?_putAt_append (h : v.TakesAll p) (w : Value) (r : Path) :
    (v.putAt p w).follow? (p ++ r) = w.follow? r := by
  induction p generalizing v with
  | nil => rfl
  | cons s p ih =>
    rw [putAt, List.cons_append, follow?_cons, child?_put_self h.1, Option.bind_some]
    exact ih h.2

theorem follow?_putAt (h : v.TakesAll p) (w : Value) : (v.putAt p w).follow? p = some w := by
  have hp := follow?_putAt_append h w []
  rwa [List.append_nil] at hp

theorem putAt_putAt (h : v.TakesAll p) (w w' : Value) :
    (v.putAt p w).putAt p w' = v.putAt p w' := by
  induction p generalizing v with
  | nil => rfl
  | cons s p ih =>
    obtain ⟨hs, hp⟩ := h
    rw [putAt, putAt, putAt, childAt_put_self hs, ih hp, put_put hs]

theorem TakesAll.putAt (h : v.TakesAll p) (w : Value) : (v.putAt p w).TakesAll p := by
  induction p generalizing v with
  | nil => trivial
  | cons s p ih =>
    obtain ⟨hs, hp⟩ := h
    rw [Value.putAt]
    refine ⟨hs.put _, ?_⟩
    rw [childAt_put_self hs]
    exact ih hp

theorem Counted.takes {c : Value} (hv : v.Counted) (h : v.child? s = some c) : v.Takes s := by
  rcases child?_eq_some h with ⟨vs, i, rfl, rfl, hc⟩ | ⟨es, k, rfl, rfl, -⟩
  · have hi : i < vs.length := (List.getElem?_eq_some_iff.1 hc).1
    have hlen : vs.length ≤ maxListLength := hv vs (self_mem_nodes _)
    exact .item rfl (Nat.lt_of_lt_of_le hi hlen) (.inl hi)
  · exact .entry rfl

/-- A path into a tree is taken. -/
theorem Counted.takesAll (hv : v.Counted) (h : v.follow? p = some x) : v.TakesAll p := by
  induction p generalizing v with
  | nil => trivial
  | cons s p ih =>
    obtain ⟨c, hc, h⟩ := follow?_cons_eq_some.1 h
    have hchild : v.childAt s = c := by rw [childAt, hc, Option.getD_some]
    refine ⟨hv.takes hc, ?_⟩
    rw [hchild]
    exact ih (fun items hitems => hv items (mem_nodes_of_child? hc hitems)) h

/-- Away from the path the tree changes only by the padding of lists that the path makes longer. -/
theorem follow?_putAt_of_not_prefix (h : v.TakesAll p) (hpq : ¬ p <+: q) (hqp : ¬ q <+: p)
    (w : Value) :
    v.IsPadding p q ∧ (v.putAt p w).follow? q = some .hole ∨
      (v.putAt p w).follow? q = v.follow? q := by
  induction p generalizing v q with
  | nil => exact absurd List.nil_prefix hpq
  | cons s p ih =>
    obtain _ | ⟨c, q⟩ := q
    · exact absurd List.nil_prefix hqp
    obtain ⟨hs, hp⟩ := h
    rw [putAt]
    by_cases hc : c = s
    · -- the paths part further down
      subst hc
      rw [List.cons_prefix_cons, and_iff_right rfl] at hpq hqp
      have hq : q ≠ [] := by
        rintro rfl
        exact hqp List.nil_prefix
      rw [follow?_cons_childAt _ c hq, follow?_cons_childAt _ c hq, childAt_put_self hs]
      rcases ih hp hpq hqp with ⟨hpad, hq⟩ | hq
      · exact .inl ⟨hpad.cons, hq⟩
      · exact .inr hq
    · -- the paths part here, and the padding is no more than holes, with nothing behind them
      rcases child?_put_of_ne hs hc ((v.childAt s).putAt p w) with ⟨hlacks, hchild⟩ | hchild
      · rw [follow?_cons, follow?_cons, hchild, hlacks.child?_eq_none]
        cases q with
        | nil => exact .inl ⟨⟨[], s, c, p, rfl, rfl, hlacks⟩, rfl⟩
        | cons t q => exact .inr (follow?_hole_cons t q)
      · rw [follow?_cons, follow?_cons, hchild]
        exact .inr rfl

/-- Before the end of the path there are the containers that its segments ask for, with all children
that they had. -/
theorem exists_follow?_putAt_of_prefix (h : v.TakesAll p) (hq : q ++ [s] <+: p) (w : Value) :
    ∃ u, (v.putAt p w).follow? q = some u ∧ u.kind = s.container ∧
      ∀ c, (v.follow? (q ++ [c])).isSome → ((v.putAt p w).follow? (q ++ [c])).isSome := by
  obtain ⟨r, rfl⟩ := hq
  rw [List.append_assoc] at h ⊢
  obtain ⟨hq, hs, -⟩ := takesAll_append.1 h
  rw [putAt_append, List.singleton_append, putAt]
  refine ⟨_, follow?_putAt hq _, kind_put hs _, fun c hc => ?_⟩
  rw [follow?_concat] at hc ⊢
  rw [nodeAt_of_follow? (follow?_putAt hq _)]
  exact isSome_child?_put hs hc _

end Value

namespace Build

open Value

variable [Growth] {α : Type} {v : Value} {p q : Path} {s : Segment} {e : Error}

theorem atPath_of_takesAll (h : v.TakesAll p) (step : Build α) :
    atPath p step v = ((step (v.nodeAt p)).1, v.putAt p (step (v.nodeAt p)).2) := by
  induction p generalizing v with
  | nil => rfl
  | cons s p ih =>
    obtain ⟨hs, hp⟩ := h
    rw [atPath_cons, atSegment_of_takes hs, ih hp, nodeAt_cons, putAt]

theorem atPath_of_stopsAt (h : v.StopsAt p q s e) (step : Build α) :
    atPath p step v = (.error e, v.putAt q ((v.nodeAt q).afterRefusal s)) := by
  obtain ⟨r, hr⟩ := h.on_path
  rw [← hr, List.append_assoc, atPath_append, atPath_of_takesAll h.takesAll,
    List.singleton_append, atPath_cons, atSegment_of_refuses h.refused]

/-- A step that succeeded at the end of a path found the whole path taken. -/
theorem takesAll_of_atPath_eq_ok {step : Build α} {a : α} {v' : Value}
    (h : atPath p step v = (.ok a, v')) : v.TakesAll p := by
  rcases stopsAt_or_takesAll v p with ⟨q, s, e, hstop⟩ | hp
  · rw [atPath_of_stopsAt hstop] at h
    cases h
  · exact hp

end Build

end Bencode
