import Bencode.Proofs.Build.Frame

/-! # Paths that are refused

A path fails just if one of its segments is refused. What the first refusal leaves is what the path in
front of it leaves, with one exception: a hole that is asked for an element is a list before it is known
whether the list can grow, and stays one if it cannot.
-/
namespace Bencode

namespace Value

/-- A hole that is asked for an element becomes a list first, at any index that can be counted. -/
def BecomesList (v : Value) (s : Segment) : Prop := v = .hole ∧ ∃ i < maxListLength, s = .index i

variable {v w x : Value} {q r : Path} {s : Segment}

theorem kind_ne_hole (h : v ≠ .hole) : v.kind ≠ .hole := by
  cases v with
  | hole => exact absurd rfl h
  | _ => simp [kind]

theorem afterRefusal_of_becomesList (h : v.BecomesList s) : v.afterRefusal s = .list [] := by
  obtain ⟨rfl, i, hi, rfl⟩ := h
  rw [afterRefusal, if_pos hi]
  rfl

theorem afterRefusal_of_not_becomesList (h : ¬ v.BecomesList s) : v.afterRefusal s = v := by
  cases s with
  | key k => rfl
  | index i =>
    by_cases hi : i < maxListLength
    · have hv : v ≠ .hole := fun hv => h ⟨hv, i, hi, rfl⟩
      rw [afterRefusal, if_pos hi, opened_of_kind (kind_ne_hole hv)]
    · rw [afterRefusal, if_neg hi]

/-- If only a hole is replaced at the end of a path, nothing but holes is lost. -/
theorem follow?_putAt_of_ne_hole [Growth] (h : v.TakesAll q) (hw : v.nodeAt q ≠ .hole → w = v.nodeAt q)
    (hr : v.follow? r = some x) (hx : x ≠ .hole) :
    ∃ y, (v.putAt q w).follow? r = some y ∧ y.kind = x.kind ∧ ((r <+: q → r = q) → y = x) := by
  by_cases hqr : q <+: r
  · -- at the end of `q` or behind it: the node there has `x` below it, so it is no hole and is kept
    obtain ⟨r, rfl⟩ := hqr
    refine ⟨x, ?_, rfl, fun _ => rfl⟩
    rw [follow?_append, Option.bind_eq_some_iff] at hr
    obtain ⟨c, hc, hr⟩ := hr
    have hnode : v.nodeAt q = c := nodeAt_of_follow? hc
    have hne : c ≠ .hole := by
      rintro rfl
      cases r with
      | nil => exact hx (Option.some.inj hr).symm
      | cons s r =>
        rw [follow?_hole_cons] at hr
        cases hr
    rw [follow?_putAt_append h, hw (hnode ▸ hne), hnode, hr]
  by_cases hrq : r <+: q
  · -- in front of the end of `q`: a container that takes the next segment, then and now
    obtain ⟨_ | ⟨s, r'⟩, rfl⟩ := hrq
    · exact absurd ⟨[], by rw [List.append_nil, List.append_nil]⟩ hqr
    have hs : r ++ [s] <+: r ++ s :: r' := ⟨r', by simp⟩
    obtain ⟨y, hy, hkind, -⟩ := exists_follow?_putAt_of_prefix h hs w
    have htakes : x.Takes s := by
      rw [← nodeAt_of_follow? hr]
      exact (takesAll_append.1 h).2.1
    refine ⟨y, hy, ?_, fun hproper => absurd (hproper ⟨_, rfl⟩) ?_⟩
    · rw [hkind, htakes.kind.resolve_right (kind_ne_hole hx)]
    · simp
  · rcases follow?_putAt_of_not_prefix h hqr hrq w with ⟨hpad, -⟩ | heq
    · rw [hpad.follow?_eq_none] at hr
      cases hr
    · exact ⟨x, heq.trans hr, rfl, fun _ => rfl⟩

end Value

namespace Build

open Value

section

variable [Growth] {α : Type} {t : Value} {p q : Path}

/-- A step that never fails by itself fails along a path just if a segment is refused. -/
theorem atPath_fails_iff {step : Build α} (hstep : ∀ v, ∃ a, (step v).1 = .ok a) :
    (∃ e, (atPath p step t).1 = .error e) ↔ ∃ q s e, t.StopsAt p q s e := by
  constructor
  · rintro ⟨e, he⟩
    rcases stopsAt_or_takesAll t p with hstop | hp
    · exact hstop
    · obtain ⟨a, ha⟩ := hstep (t.nodeAt p)
      rw [atPath_of_takesAll hp, ha] at he
      cases he
  · rintro ⟨q, s, e, hstop⟩
    exact ⟨e, by rw [atPath_of_stopsAt hstop]⟩

/-- The first refused segment of a path decides the error and, with the path in front of it, the tree
that is left. -/
theorem path_stops_at_first_refusal (t : Value) (p : Path) :
    ((∃ e, (slot p t).1 = .error e) ↔ ∃ q s e, t.StopsAt p q s e) ∧
    (∀ w, (∃ e, (set p w t).1 = .error e) ↔ ∃ q s e, t.StopsAt p q s e) ∧
    ∀ q s e, t.StopsAt p q s e → ∃ u, slot p t = (.error e, u) ∧
      (∀ w, set p w t = (.error e, u)) ∧ (slot q t).1 = .ok (t.nodeAt q) ∧
      (¬ (t.nodeAt q).BecomesList s → u = (slot q t).2) ∧
      ((t.nodeAt q).BecomesList s → u = (set q (.list []) t).2) ∧
      ∀ r x, t.follow? r = some x → x ≠ .hole →
        ∃ y, u.follow? r = some y ∧ y.kind = x.kind ∧ ((r <+: q → r = q) → y = x) := by
  refine ⟨atPath_fails_iff fun v => ⟨v, rfl⟩, fun w => atPath_fails_iff fun v => ⟨(), rfl⟩,
    fun q s e h => ?_⟩
  have hq : t.TakesAll q := h.takesAll
  refine ⟨_, atPath_of_stopsAt h look, fun w => atPath_of_stopsAt h (assign w), ?_, ?_, ?_, ?_⟩
  · rw [slot_of_takesAll hq]
  · intro hno
    rw [afterRefusal_of_not_becomesList hno, slot_of_takesAll hq]
  · intro hlist
    rw [afterRefusal_of_becomesList hlist, set_of_takesAll hq]
  · intro r x hr hx
    refine follow?_putAt_of_ne_hole hq (fun hne => ?_) hr hx
    exact afterRefusal_of_not_becomesList fun hlist => hne hlist.1

end

/-- What the earlier segments of a path have created stays, and the integer next to it. -/
theorem path_stops_at_first_refusal_created :
    (Value.dict [([97], .integer 1)]).StopsAt [.key [98], .index 1, .index maxListLength]
        [.key [98], .index 1] (.index maxListLength) (.indexOutOfRange maxListLength) ∧
      set [.key [98], .index 1, .index maxListLength] (.integer 2) (.dict [([97], .integer 1)]) =
        (.error (.indexOutOfRange maxListLength),
          .dict [([97], .integer 1), ([98], .list [.hole, .hole])]) := by
  have hstop : (Value.dict [([97], .integer 1)]).StopsAt
      [.key [98], .index 1, .index maxListLength] [.key [98], .index 1] (.index maxListLength)
      (.indexOutOfRange maxListLength) := by
    have hitem : (Value.hole).Takes (.index 1) := .item rfl (by decide) (.inr (by decide))
    exact ⟨⟨[], rfl⟩, .uncounted (Nat.le_refl _), takesAll_iff.1 ⟨.entry rfl, hitem, trivial⟩⟩
  obtain ⟨u, -, hset, -, hslot, -⟩ := (path_stops_at_first_refusal _ _).2.2 _ _ _ hstop
  refine ⟨hstop, ?_⟩
  rw [hset, hslot]
  · rfl
  · rintro ⟨-, i, hi, heq⟩
    cases heq
    exact absurd hi (Nat.lt_irrefl _)

/-- The hole under a new key is a list after the refusal of an index, and a hole without it. -/
theorem refused_growth_leaves_list :
    Value.hole.StopsAt [.key [97], .index growthLimit] [.key [97]] (.index growthLimit)
        (.indexOutOfRange growthLimit) ∧
      (set [.key [97], .index growthLimit] (.integer 1) .hole).2 = .dict [([97], .list [])] ∧
      (slot [.key [97]] .hole).2 = .dict [([97], .hole)] ∧
      (set [.key [97], .index growthLimit] (.integer 1) .hole).2 ≠ (slot [.key [97]] .hole).2 := by
  have hstop : Value.hole.StopsAt [.key [97], .index growthLimit] [.key [97]]
      (.index growthLimit) (.indexOutOfRange growthLimit) := by
    refine ⟨⟨[], rfl⟩, .growth ?_ rfl (Nat.zero_le _) ?_, takesAll_iff.1 ⟨.entry rfl, trivial⟩⟩
    · decide
    · decide
  have hset : (set [.key [97], .index growthLimit] (.integer 1) .hole).2 =
      .dict [([97], .list [])] := by
    rw [set, atPath_of_stopsAt hstop]
    rfl
  refine ⟨hstop, hset, rfl, ?_⟩
  rw [hset]
  intro h
  cases h

end Build

end Bencode
