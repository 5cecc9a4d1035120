import Bencode.Proofs.Reachable
import Bencode.Proofs.Walk.Editor

/-! # Walks that come to an end

An editor may make the tree larger as it goes, and one that keeps making it deeper never comes to an end. If
it changes the shape of the tree down to some depth only, and what it puts in has some greatest depth, then
no node ever lies deeper than the tree was or than both together allow. The bound is kept at every call, so
that as many levels are enough.
-/
namespace Bencode

namespace Value

mutual

/-- The tree with its integers and byte strings blanked. -/
def blanked : Value → Value
  | .integer _ => .integer 0
  | .bytes _ => .bytes []
  | .list items => .list (blankedItems items)
  | .dict entries => .dict (blankedEntries entries)
  | .hole => .hole

def blankedItems : List Value → List Value
  | [] => []
  | v :: vs => v.blanked :: blankedItems vs

def blankedEntries : List (Bytes × Value) → List (Bytes × Value)
  | [] => []
  | (k, v) :: es => (k, v.blanked) :: blankedEntries es

end

/-- The trees differ in integers and byte strings at most. -/
def SameShape (v w : Value) : Prop := v.blanked = w.blanked

theorem SameShape.refl (v : Value) : SameShape v v := rfl

theorem blankedItems_eq_map (vs : List Value) : blankedItems vs = vs.map blanked := by
  induction vs with
  | nil => rfl
  | cons v vs ih => rw [blankedItems, ih, List.map_cons]

theorem map_snd_blankedEntries (es : List (Bytes × Value)) :
    (blankedEntries es).map Prod.snd = (es.map Prod.snd).map blanked := by
  induction es with
  | nil => rfl
  | cons e es ih => rw [blankedEntries, List.map_cons, List.map_cons, List.map_cons, ih]

theorem depthItems_map_blanked {vs : List Value} (h : ∀ v ∈ vs, v.blanked.depth = v.depth) :
    depthItems (vs.map blanked) = depthItems vs := by
  induction vs with
  | nil => rfl
  | cons v vs ih =>
    obtain ⟨hv, hvs⟩ := List.forall_mem_cons.1 h
    rw [List.map_cons, depthItems, depthItems, hv, ih hvs]

theorem depth_blanked (v : Value) : v.blanked.depth = v.depth := by
  induction v with
  | list vs ih => rw [blanked, depth, depth, blankedItems_eq_map, depthItems_map_blanked ih]
  | dict es ih =>
    rw [blanked, depth, depth, depthEntries_eq_depthItems, map_snd_blankedEntries,
      depthItems_map_blanked (List.forall_mem_map.2 ih), depthEntries_eq_depthItems]
  | _ => rfl

theorem SameShape.depth_eq {v w : Value} (h : SameShape v w) : v.depth = w.depth := by
  rw [← depth_blanked v, h, depth_blanked]

/-- At the given depth, an edit keeps the shape; or that depth is at most `last`, and what is new is of at
most the depth `size`, be it all of the node or members of it. -/
def Moderate (last size depth : Nat) (old new : Value) : Prop :=
  SameShape new old ∨ depth ≤ last ∧
    (new.depth ≤ size ∨ ∀ x ∈ new.members, (∃ y ∈ old.members, SameShape x y) ∨ x.depth ≤ size)

theorem Moderate.depth_le {last size bound depth : Nat} {old new : Value}
    (h : Moderate last size depth old new) (hbound : last + size ≤ bound)
    (hold : depth + old.depth ≤ bound + 1) : depth + new.depth ≤ bound + 1 := by
  rcases h with hshape | ⟨hlast, hsize | hmembers⟩
  · rwa [hshape.depth_eq]
  · omega
  · have hmembers_le : ∀ x ∈ new.members, x.depth ≤ bound - depth := by
      intro x hx
      rcases hmembers x hx with ⟨y, hy, hshape⟩ | hsize
      · have hy_le := depth_le_iff_members.1 (show old.depth ≤ bound - depth + 1 by omega) y hy
        rwa [hshape.depth_eq]
      · omega
    have hnew := depth_le_iff_members.2 hmembers_le
    omega

end Value

open Value

namespace Editor

variable {σ : Type} {editor : Editor σ}

/-- In the walk over `v` from the state `s`, the hook for nodes of any kind is shown the given node, with
its depth, in the given state. The walk gets to a child when it is through with the siblings before it. -/
inductive Visits (editor : Editor σ) (v : Value) (s : σ) : Nat → Value → σ → Prop
  | root : Visits editor v s 1 v s
  | item {depth levels : Nat} {u x : Value} {t t₁ t₂ : σ} {vs before after done : List Value}
    (h : Visits editor v s depth u t) (hnode : editor.onNode u depth t = (.list vs, t₁))
    (hitems : (editor.onList vs t₁).1 = before ++ x :: after)
    (hdone : throughItems (editor.walkWithin levels (depth + 1)) before (editor.onList vs t₁).2 =
      some (done, t₂)) : Visits editor v s (depth + 1) x t₂
  | entry {depth levels : Nat} {u x : Value} {k : Bytes} {t t₁ t₂ : σ}
    {es before after done : List (Bytes × Value)}
    (h : Visits editor v s depth u t) (hnode : editor.onNode u depth t = (.dict es, t₁))
    (hentries : (editor.onDict es t₁).1 = before ++ (k, x) :: after)
    (hdone : throughEntries (editor.walkWithin levels (depth + 1)) before (editor.onDict es t₁).2 =
      some (done, t₂)) : Visits editor v s (depth + 1) x t₂

/-- The hooks edit the node, and the list or dictionary that it is then, down to the depth `last` only and
with values of at most the depth `size`. -/
structure EditsWithin (editor : Editor σ) (last size depth : Nat) (u : Value) (t : σ) : Prop where
  node : Moderate last size depth u (editor.onNode u depth t).1
  items : ∀ vs t₁, editor.onNode u depth t = (.list vs, t₁) →
    Moderate last size depth (.list vs) (.list (editor.onList vs t₁).1)
  entries : ∀ es t₁, editor.onNode u depth t = (.dict es, t₁) →
    Moderate last size depth (.dict es) (.dict (editor.onDict es t₁).1)

section
variable {last size bound depth : Nat} {u : Value} {t : σ}

/-- If the walk ends at each child it gets to, it gets through all of them. By induction on the children
still to come, with those behind generalised. -/
theorem exists_throughItems {edit : Value → σ → Option (Value × σ)} {P : Value → Prop}
    {vs : List Value}
    (h : ∀ before x after done t₂, vs = before ++ x :: after →
      throughItems edit before t = some (done, t₂) → ∃ w t₃, edit x t₂ = some (w, t₃) ∧ P w) :
    ∃ ws t₁, throughItems edit vs t = some (ws, t₁) ∧ ∀ w ∈ ws, P w := by
  have hrest (rest before done : List Value) (t₂ : σ) (hvs : vs = before ++ rest)
      (hdone : throughItems edit before t = some (done, t₂)) :
      ∃ ws t₁, throughItems edit rest t₂ = some (ws, t₁) ∧ ∀ w ∈ ws, P w := by
    induction rest generalizing before done t₂ with
    | nil => exact ⟨[], t₂, rfl, List.forall_mem_nil _⟩
    | cons x rest ih =>
      obtain ⟨w, t₃, hw, hP⟩ := h before x rest done t₂ hvs hdone
      obtain ⟨ws, t₁, hws, hPs⟩ := ih (before ++ [x]) (done ++ [w]) t₃ (by rw [hvs, List.append_assoc]; rfl)
        (throughItems_concat hdone hw)
      exact ⟨w :: ws, t₁, throughItems_cons_eq_some.2 ⟨w, t₃, ws, hw, hws, rfl⟩,
        List.forall_mem_cons.2 ⟨hP, hPs⟩⟩
  exact hrest vs [] [] t rfl rfl

theorem exists_throughEntries_members {edit : Value → σ → Option (Value × σ)} {P : Value → Prop}
    {es : List (Bytes × Value)}
    (h : ∀ before k x after done t₂, es = before ++ (k, x) :: after →
      throughEntries edit before t = some (done, t₂) → ∃ w t₃, edit x t₂ = some (w, t₃) ∧ P w) :
    ∃ fs t₁, throughEntries edit es t = some (fs, t₁) ∧ ∀ w ∈ fs.map Prod.snd, P w := by
  have hitems : ∃ ws t₁, throughItems edit (es.map Prod.snd) t = some (ws, t₁) ∧ ∀ w ∈ ws, P w := by
    refine exists_throughItems fun before x after done t₂ hsplit hdone => ?_
    obtain ⟨fs, gs, rfl, rfl, hgs⟩ := List.map_eq_append_iff.1 hsplit
    obtain ⟨⟨k, y⟩, gs, rfl, rfl, -⟩ := List.map_eq_cons_iff.1 hgs
    obtain ⟨done, hdone, -⟩ := exists_throughEntries hdone
    exact h fs k _ gs done t₂ rfl hdone
  obtain ⟨ws, t₁, hws, hP⟩ := hitems
  obtain ⟨fs, hfs, rfl⟩ := exists_throughEntries hws
  exact ⟨fs, t₁, hfs, hP⟩

/-- Wherever the walk gets to, it ends, and the bound on the depth holds of what it leaves there. By
induction on the levels, which are enough as long as the bound holds. -/
theorem exists_walkWithin {v : Value} {s : σ}
    (h : ∀ depth u t, editor.Visits v s depth u t → editor.EditsWithin last size depth u t)
    (hbound : last + size ≤ bound) (levels : Nat) (hvisit : editor.Visits v s depth u t)
    (hu : depth + u.depth ≤ bound + 1) (hlevels : bound + 1 ≤ depth + levels) :
    ∃ w t', editor.walkWithin levels depth u t = some (w, t') ∧ depth + w.depth ≤ bound + 1 := by
  induction levels generalizing depth u t with
  | zero =>
    have hpos := depth_pos u
    omega
  | succ levels ih =>
    have hedits := h depth u t hvisit
    have hdeeper : bound + 1 ≤ depth + 1 + levels := by omega
    have hmembers {x : Value} (hx : depth + x.depth ≤ bound + 1) :
        x.depth ≤ bound - depth + 1 := by omega
    obtain ⟨u', t₁, hon⟩ : ∃ u' t₁, editor.onNode u depth t = (u', t₁) := ⟨_, _, rfl⟩
    have hnode : depth + u'.depth ≤ bound + 1 := by
      have hle := hedits.node.depth_le hbound hu
      rwa [hon] at hle
    have hdepth : depth ≤ bound := by
      have hpos := depth_pos u'
      omega
    have hwhole {w : Value} (hw : ∀ x ∈ w.members, depth + 1 + x.depth ≤ bound + 1) :
        depth + w.depth ≤ bound + 1 := by
      have hle : w.depth ≤ bound - depth + 1 := depth_le_iff_members.2 fun x hx => by
        have hx := hw x hx
        omega
      omega
    -- the bound passes from the node to what its own hook leaves, and from there to the children
    cases u' with
    | integer n => exact ⟨_, _, walkWithin_of_integer hon, hnode⟩
    | bytes b => exact ⟨_, _, walkWithin_of_bytes hon, hnode⟩
    | list vs =>
      have hlist := (hedits.items vs t₁ hon).depth_le hbound hnode
      have hthrough : ∃ ws t', throughItems (editor.walkWithin levels (depth + 1))
          (editor.onList vs t₁).1 (editor.onList vs t₁).2 = some (ws, t') ∧
          ∀ w ∈ ws, depth + 1 + w.depth ≤ bound + 1 := by
        refine exists_throughItems fun before x after done t₂ hsplit hdone => ?_
        have hx := depth_le_iff_members.1 (hmembers hlist) x (by simp [Value.members, hsplit])
        exact ih (.item hvisit hon hsplit hdone) (by omega) hdeeper
      obtain ⟨ws, t', hws, hle⟩ := hthrough
      exact ⟨.list ws, t', by rw [walkWithin_of_list hon, hws]; rfl, hwhole hle⟩
    | dict es =>
      have hdict := (hedits.entries es t₁ hon).depth_le hbound hnode
      have hthrough : ∃ fs t', throughEntries (editor.walkWithin levels (depth + 1))
          (editor.onDict es t₁).1 (editor.onDict es t₁).2 = some (fs, t') ∧
          ∀ w ∈ fs.map Prod.snd, depth + 1 + w.depth ≤ bound + 1 := by
        refine exists_throughEntries_members fun before k x after done t₂ hsplit hdone => ?_
        have hx := depth_le_iff_members.1 (hmembers hdict) x (by simp [Value.members, hsplit])
        exact ih (.entry hvisit hon hsplit hdone) (by omega) hdeeper
      obtain ⟨fs, t', hfs, hle⟩ := hthrough
      exact ⟨.dict fs, t', by rw [walkWithin_of_dict hon, hfs]; rfl, hwhole hle⟩
    | hole => exact ⟨_, _, walkWithin_of_hole hon, hnode⟩

end

end Editor

namespace Rules

variable {rules : Rules} {size : Nat}

theorem depth_le_newDepth {x : Value} (hx : x ∈ rules.values) : x.depth ≤ rules.newDepth := by
  have hmax (vs : List Value) (d : Nat) :
      d ≤ vs.foldl (fun d v => max d v.depth) d ∧
        ∀ v ∈ vs, v.depth ≤ vs.foldl (fun d v => max d v.depth) d := by
    induction vs generalizing d with
    | nil => exact ⟨Nat.le_refl d, List.forall_mem_nil _⟩
    | cons v vs ih =>
      obtain ⟨hd, hvs⟩ := ih (max d v.depth)
      rw [Nat.max_le] at hd
      exact ⟨hd.1, List.forall_mem_cons.2 ⟨hd.2, hvs⟩⟩
  exact (hmax rules.values 0).2 x hx

theorem mem_editItems {items : List Value} {x : Value} (h : x ∈ rules.editItems items) :
    x ∈ items ∨ x ∈ rules.values := by
  rcases List.mem_append.1 h with hold | hnew
  · split at hold
    · exact .inl (List.dropLast_subset items hold)
    · exact .inl hold
  · exact .inr (List.mem_append_left _ (List.mem_append_right _ hnew))

theorem mem_editEntries {entries : List (Bytes × Value)} {e : Bytes × Value}
    (h : e ∈ rules.editEntries entries) : e ∈ entries ∨ e.2 ∈ rules.values := by
  have hinserted {kept : List (Bytes × Value)} {f : Bytes × Value} (hf : rules.insert = some f)
      (hkept : kept.Sublist entries) (he : e ∈ Entries.insert f.1 f.2 kept) :
      e ∈ entries ∨ e.2 ∈ rules.values := by
    rcases Entries.mem_of_mem_insert he with rfl | hold
    · exact .inr (List.mem_append_right _ (by simp [hf]))
    · exact .inl (hkept.mem hold)
  unfold editEntries at h
  cases hremove : rules.remove with
  | none =>
    cases hinsert : rules.insert with
    | none =>
      rw [hremove, hinsert] at h
      exact .inl h
    | some f =>
      rw [hremove, hinsert] at h
      exact hinserted hinsert (List.Sublist.refl entries) h
  | some k =>
    cases hinsert : rules.insert with
    | none =>
      rw [hremove, hinsert] at h
      exact .inl ((Entries.erase_sublist k entries).mem h)
    | some f =>
      rw [hremove, hinsert] at h
      exact hinserted hinsert (Entries.erase_sublist k entries) h

theorem depth_of_onNode {depth : Nat} {u w : Value} {t t₁ : State}
    (h : rules.editor.onNode u depth t = (w, t₁)) : t₁.depth = depth := by
  dsimp only [editor] at h
  split at h <;> cases h <;> rfl

/-- Editors by rules change the shape of a tree down to the last depth of their rules, and put in nothing
but the values of these. -/
theorem editsWithin (rules : Rules) (depth : Nat) (u : Value) (t : State) :
    rules.editor.EditsWithin rules.lastDepth rules.newDepth depth u t where
  node := by
    dsimp only [editor]
    split
    · next hlast =>
      cases hr : rules.replacement? u.kind with
      | none => exact .inl (.refl u)
      | some w => exact .inr ⟨hlast, .inl (depth_le_newDepth (mem_values_of_replacement? hr))⟩
    · exact .inl (.refl u)
  items vs t₁ hnode := by
    have ht₁ : t₁.depth = depth := depth_of_onNode hnode
    dsimp only [editor]
    rw [ht₁]
    split
    · next hlast =>
      refine .inr ⟨hlast, .inr fun x hx => ?_⟩
      exact (mem_editItems hx).imp (fun hold => ⟨x, hold, .refl x⟩) depth_le_newDepth
    · exact .inl (.refl _)
  entries es t₁ hnode := by
    have ht₁ : t₁.depth = depth := depth_of_onNode hnode
    dsimp only [editor]
    rw [ht₁]
    split
    · next hlast =>
      refine .inr ⟨hlast, .inr fun x hx => ?_⟩
      obtain ⟨e, he, rfl⟩ := List.mem_map.1 hx
      exact (mem_editEntries he).imp (fun hold => ⟨e.2, List.mem_map_of_mem hold, .refl _⟩)
        depth_le_newDepth
    · exact .inl (.refl _)

end Rules

namespace Editor

/-- A walk comes to an end if, wherever it gets to, the hooks change the shape of the tree down to some depth
only and put in values of some greatest depth; what it leaves is no deeper than the tree was or than both
together. Editors by rules are of this kind. -/
theorem walk_of_moderate_editor_ends :
    (∀ (σ : Type) (editor : Editor σ) (v : Value) (s : σ) (last size : Nat),
      (∀ depth u t, editor.Visits v s depth u t → editor.EditsWithin last size depth u t) →
      ∃ w s', (∀ levels, max v.depth (last + size) ≤ levels →
        editor.walk? levels v s = some (w, s')) ∧ w.depth ≤ max v.depth (last + size)) ∧
    ∀ (rules : Rules) depth u t,
      rules.editor.EditsWithin rules.lastDepth rules.newDepth depth u t := by
  refine ⟨fun σ editor v s last size h => ?_, Rules.editsWithin⟩
  obtain ⟨w, s', hwalk, hdepth⟩ := exists_walkWithin h (Nat.le_max_right v.depth (last + size))
    (max v.depth (last + size)) .root (by omega) (by omega)
  exact ⟨w, s', fun levels hlevels => walk?_of_le hlevels hwalk, by omega⟩

/-- The integer in the list becomes a list with an integer, and that one is left alone. -/
theorem walk_of_moderate_editor_ends_nested :
    ∃ s', ∀ levels, 4 ≤ levels →
      (Rules.editor { lastDepth := 2, replace := [(.integer, .list [.integer 0])] }).walk? levels
        (.list [.integer 1]) {} = some (.list [.list [.integer 0]], s') := by
  obtain ⟨hends, hrules⟩ := walk_of_moderate_editor_ends
  obtain ⟨w, s', hwalk, -⟩ := hends _ _ (.list [.integer 1]) {} 2 2 fun depth u t _ =>
    hrules { lastDepth := 2, replace := [(.integer, .list [.integer 0])] } depth u t
  obtain ⟨t, ht⟩ : ∃ t, some (w, s') = some (.list [.list [.integer 0]], t) :=
    ⟨_, (hwalk 4 (Nat.le_refl 4)).symm.trans rfl⟩
  cases ht
  exact ⟨s', hwalk⟩

/-- The editor that makes every node a list with a hole in it. -/
def wrapping : Editor Unit where
  onNode _ _ s := (.list [.hole], s)

/-- Without a last depth there may be no end, however many levels the walk is given. -/
theorem walk?_wrapping (levels : Nat) (v : Value) : wrapping.walk? levels v () = none := by
  have hstuck (depth : Nat) : wrapping.walkWithin levels depth v () = none := by
    induction levels generalizing depth v with
    | zero => rfl
    | succ levels ih =>
      rw [walkWithin_of_list (show wrapping.onNode v depth () = (.list [.hole], ()) from rfl)]
      show (throughItems (wrapping.walkWithin levels (depth + 1)) [.hole] ()).map _ = none
      rw [throughItems, ih .hole (depth + 1)]
      rfl
  exact hstuck 1

end Editor

end Bencode
