import Bencode.Proofs.Build.Frame
import Bencode.Script.Tree

/-! # Writes that may come in any order

Two paths are apart if neither begins with the other. Two writes along such paths can change places: they
meet at a node where they part, and there they are puts behind two segments, which commute. So the order
of a script of such writes decides neither whether all of them succeed nor what tree they leave.
-/
namespace Bencode

/-- Neither path begins with the other. -/
def Path.Apart (p q : Path) : Prop := ¬ p <+: q ∧ ¬ q <+: p

theorem Path.Apart.symm {p q : Path} (h : p.Apart q) : q.Apart p := And.symm h

theorem Path.not_apart_nil (p : Path) : ¬ Path.Apart [] p := fun h => h.1 List.nil_prefix

theorem Path.apart_cons_cons {s : Segment} {p q : Path} :
    Path.Apart (s :: p) (s :: q) ↔ p.Apart q := by
  unfold Path.Apart
  rw [List.cons_prefix_cons, List.cons_prefix_cons, and_iff_right rfl, and_iff_right rfl]

theorem Path.apart_cons_of_ne {s c : Segment} (h : s ≠ c) (p q : Path) :
    Path.Apart (s :: p) (c :: q) := by
  constructor
  · intro hpq
    exact h (List.cons_prefix_cons.1 hpq).1
  · intro hqp
    exact h (List.cons_prefix_cons.1 hqp).1.symm

namespace Value

variable {t t' v w : Value} {p q : Path} {s c : Segment} {as bs : List (Path × Value)}

theorem putItem_comm (items : List Value) {i j : Nat} (h : i ≠ j) (w u : Value) :
    putItem (putItem items i w) j u = putItem (putItem items j u) i w := by
  apply List.ext_getElem?
  intro n
  simp only [getElem?_putItem, length_putItem]
  by_cases hi : n = i
  · have hj : n ≠ j := fun hj => h (hi.symm.trans hj)
    rw [if_neg hj, if_pos hi, if_pos (by omega), if_pos hi]
  by_cases hj : n = j
  · rw [if_pos hj, if_neg hi, if_pos (by omega), if_pos hj]
  · grind

variable [Growth]

/-- A container takes segments of its own kind only. -/
theorem Takes.container_eq (hs : v.Takes s) (hc : (v.put s w).Takes c) :
    s.container = c.container := by
  have hkind := hc.kind
  rw [kind_put hs] at hkind
  rcases hkind with hkind | hkind
  · exact hkind
  · cases s <;> cases hkind

/-- What a node takes after a put it took before. A list has not become so long that more could be put
behind it. -/
theorem Takes.of_put (hs : v.Takes s) (hc : (v.put s w).Takes c) : v.Takes c := by
  have hcont := hs.container_eq hc
  have hopened := opened_eq hcont v
  cases hs with
  | @entry k es hv =>
    cases c with
    | index j => cases hcont
    | key l => exact .entry (hopened ▸ hv)
  | @item i items hv hi hgrow =>
    cases c with
    | key l => cases hcont
    | index j =>
      rw [put_index hv] at hc
      cases hc with
      | item hv' hj hgrow' =>
        cases hv'
        rw [length_putItem] at hgrow'
        have hwithin (hlen : j < max items.length (i + 1)) : j < items.length ∨ Growth.allows (j + 1) := by
          rcases Nat.lt_or_ge j items.length with hshort | hlong
          · exact .inl hshort
          · have hij : j + 1 ≤ i + 1 := by omega
            exact .inr (Growth.allows_of_le hij (hgrow.resolve_left (by omega)))
        exact .item (hopened ▸ hv) hj (hgrow'.elim hwithin .inr)

theorem put_comm (hs : v.Takes s) (hc : v.Takes c) (hcont : s.container = c.container)
    (hne : s ≠ c) (w u : Value) : (v.put s w).put c u = (v.put c u).put s w := by
  have hopened := opened_eq hcont v
  cases hs with
  | @entry k es hv =>
    cases hc with
    | item => cases hcont
    | @entry l es' hv' =>
      rw [hv, hv', Value.dict.injEq] at hopened
      subst hopened
      have hkl : l ≠ k := fun hkl => hne (congrArg _ hkl.symm)
      rw [put_key hv, put_key hv', put_key rfl, put_key rfl, Entries.insert_comm hkl]
  | @item i items hv =>
    cases hc with
    | entry => cases hcont
    | @item j items' hv' =>
      rw [hv, hv', Value.list.injEq] at hopened
      subst hopened
      have hij : i ≠ j := fun hij => hne (congrArg _ hij)
      rw [put_index hv, put_index hv', put_index rfl, put_index rfl, putItem_comm items hij]

/-- The padding that a put makes looks like what was there, which is nothing. -/
theorem childAt_put_of_ne (hs : v.Takes s) (hc : c ≠ s) (w : Value) :
    (v.put s w).childAt c = v.childAt c := by
  unfold childAt
  rcases child?_put_of_ne hs hc w with ⟨hlacks, hchild⟩ | hchild
  · rw [hchild, hlacks.child?_eq_none]
    rfl
  · rw [hchild]

/-- Of two writes along paths apart the second could as well have come first. -/
theorem putAt_comm (h : p.Apart q) (hp : v.TakesAll p) (hq : (v.putAt p w).TakesAll q) (u : Value) :
    v.TakesAll q ∧ (v.putAt q u).TakesAll p ∧
      (v.putAt p w).putAt q u = (v.putAt q u).putAt p w := by
  induction p generalizing v q with
  | nil => exact absurd h (Path.not_apart_nil q)
  | cons s p ih =>
    obtain _ | ⟨c, q⟩ := q
    · exact absurd h.symm (Path.not_apart_nil _)
    obtain ⟨hs, hp⟩ := hp
    rw [putAt] at hq ⊢
    obtain ⟨hc, hq⟩ := hq
    by_cases hsc : s = c
    · -- the paths part further down, in the child that both lead into
      subst hsc
      rw [childAt_put_self hs] at hq
      obtain ⟨hq', hp', heq⟩ := ih (Path.apart_cons_cons.1 h) hp hq
      refine ⟨⟨hs, hq'⟩, ⟨hs.put _, ?_⟩, ?_⟩
      · rw [childAt_put_self hs]
        exact hp'
      · simp only [putAt]
        rw [childAt_put_self hs, childAt_put_self hs, put_put hs, put_put hs, heq]
    · -- the paths part here
      have hcont := hs.container_eq hc
      have hc' := hs.of_put hc
      rw [childAt_put_of_ne hs (Ne.symm hsc)] at hq
      refine ⟨⟨hc', hq⟩, ⟨hs.put_of_container hc' hcont _, ?_⟩, ?_⟩
      · rw [childAt_put_of_ne hc' hsc]
        exact hp
      · simp only [putAt]
        rw [childAt_put_of_ne hs (Ne.symm hsc), childAt_put_of_ne hc' hsc, put_comm hs hc' hcont hsc]

/-- The tree takes the path of each write in turn, and in the end it is the other tree. -/
def Leads (t : Value) : List (Path × Value) → Value → Prop
  | [], t' => t = t'
  | (p, w) :: more, t' => t.TakesAll p ∧ (t.putAt p w).Leads more t'

theorem leads_append : t.Leads (as ++ bs) t' ↔ ∃ u, t.Leads as u ∧ u.Leads bs t' := by
  induction as generalizing t with
  | nil => simp [Leads]
  | cons a as ih => simp only [List.cons_append, Leads, ih, ← exists_and_left, and_assoc]

/-- Writes along paths apart from each other can be rearranged. -/
theorem Leads.perm (hperm : as.Perm bs) (hapart : as.Pairwise fun a b => a.1.Apart b.1)
    (h : t.Leads as t') : t.Leads bs t' := by
  induction hperm generalizing t with
  | nil => exact h
  | @cons a as bs _ ih =>
    obtain ⟨ha, h⟩ := h
    exact ⟨ha, ih (List.pairwise_cons.1 hapart).2 h⟩
  | swap a b as =>
    obtain ⟨hb, ha, h⟩ := h
    have hba : b.1.Apart a.1 := (List.pairwise_cons.1 hapart).1 a List.mem_cons_self
    obtain ⟨ha', hb', heq⟩ := putAt_comm hba hb ha a.2
    exact ⟨ha', hb', heq ▸ h⟩
  | @trans as bs cs hab _ ihab ihbc =>
    have hapart' : bs.Pairwise fun a b => a.1.Apart b.1 := hapart.perm hab fun h => h.symm
    exact ihbc hapart' (ihab hapart h)

end Value

open Value

namespace TreeStep

/-- The script that writes the values at their paths, one after another. -/
def writes (as : List (Path × Value)) : List TreeStep := as.map fun a => .set a.1 a.2

section

variable [Growth] {t t' : Value} {as bs : List (Path × Value)}

theorem apply_set (p : Path) (w t : Value) :
    (TreeStep.set p w).apply t =
      (.ofResult (fun _ => .done) (Build.set p w t).1, (Build.set p w t).2) := rfl

theorem apply_set_eq_done_iff {p : Path} {w : Value} :
    ((TreeStep.set p w).apply t).1 = .done ↔ t.TakesAll p := by
  rw [apply_set]
  constructor
  · intro h
    rcases stopsAt_or_takesAll t p with ⟨q, s, e, hstop⟩ | hp
    · rw [Build.set, Build.atPath_of_stopsAt hstop] at h
      cases h
    · exact hp
  · intro hp
    rw [Build.set_of_takesAll hp]
    rfl

/-- A script of writes succeeds throughout just if the tree takes every path in turn. -/
theorem leads_iff_run_writes : t.Leads as t' ↔
    (∀ r ∈ Script.run apply (writes as) t, r.1 = .done) ∧ Script.final apply (writes as) t = t' := by
  induction as generalizing t with
  | nil => simp [writes, Script.run, Script.final, Leads]
  | cons a as ih =>
    obtain ⟨p, w⟩ := a
    rw [writes, List.map_cons, Script.run, Script.final, List.forall_mem_cons, List.foldl_cons,
      apply_set_eq_done_iff, Leads, and_assoc]
    refine and_congr_right fun hp => ?_
    rw [apply_set, Build.set_of_takesAll hp]
    exact ih

/-- Writes along paths of which none begins another may come in any order. If all of them succeed in
one order, they succeed in every other, and the tree is the same in the end. -/
theorem writes_apart_in_any_order (hapart : as.Pairwise fun a b => a.1.Apart b.1)
    (hperm : as.Perm bs) (h : ∀ r ∈ Script.run apply (writes as) t, r.1 = .done) :
    (∀ r ∈ Script.run apply (writes bs) t, r.1 = .done) ∧
      Script.final apply (writes bs) t = Script.final apply (writes as) t ∧
      Bencode.encode (Script.final apply (writes bs) t) =
        Bencode.encode (Script.final apply (writes as) t) := by
  have hleads : t.Leads as (Script.final apply (writes as) t) := leads_iff_run_writes.2 ⟨h, rfl⟩
  obtain ⟨hdone, hfinal⟩ := leads_iff_run_writes.1 (hleads.perm hperm hapart)
  exact ⟨hdone, hfinal, congrArg Bencode.encode hfinal⟩

end

/-- A list is made and padded up to 2 by the first write or by the second one. -/
theorem writes_apart_in_any_order_padded :
    (∀ r ∈ Script.run apply (writes [([.key [97], .index 0], .integer 1),
      ([.key [97], .index 2, .key []], .integer 2)]) .hole, r.1 = .done) ∧
    (∀ r ∈ Script.run apply (writes [([.key [97], .index 2, .key []], .integer 2),
      ([.key [97], .index 0], .integer 1)]) .hole, r.1 = .done) ∧
    Script.final apply (writes [([.key [97], .index 2, .key []], .integer 2),
      ([.key [97], .index 0], .integer 1)]) .hole =
        .dict [([97], .list [.integer 1, .hole, .dict [([], .integer 2)]])] := by
  have hrun : ∀ r ∈ Script.run apply (writes [([.key [97], .index 0], .integer 1),
      ([.key [97], .index 2, .key []], .integer 2)]) .hole, r.1 = .done :=
    List.forall_mem_cons.2 ⟨rfl, List.forall_mem_cons.2 ⟨rfl, List.forall_mem_nil _⟩⟩
  have hapart : [(([.key [97], .index 0], .integer 1) : Path × Value),
      ([.key [97], .index 2, .key []], .integer 2)].Pairwise fun a b => a.1.Apart b.1 := by
    simp [Path.Apart, List.cons_prefix_cons]
  obtain ⟨hdone, hfinal, -⟩ := writes_apart_in_any_order hapart (.swap _ _ _) hrun
  exact ⟨hrun, hdone, hfinal⟩

end TreeStep

end Bencode
