import Bencode.Editor

/-! # Steps of an editing walk

At a node the walk does what the kind of the node asks for that the first hook leaves. A walk that comes to
an end within some levels takes the same course within more, so its outcome does not depend on how many
levels it was given.
-/
namespace Bencode.Editor

variable {σ : Type} {editor : Editor σ} {levels depth : Nat} {v : Value} {s s₁ : σ}

theorem walkWithin_of_integer {n : Int64} (h : editor.onNode v depth s = (.integer n, s₁)) :
    editor.walkWithin (levels + 1) depth v s =
      some (.integer (editor.onInteger n s₁).1, (editor.onInteger n s₁).2) := by
  rw [walkWithin, h]

theorem walkWithin_of_bytes {b : Bytes} (h : editor.onNode v depth s = (.bytes b, s₁)) :
    editor.walkWithin (levels + 1) depth v s =
      some (.bytes (editor.onBytes b s₁).1, (editor.onBytes b s₁).2) := by
  rw [walkWithin, h]

theorem walkWithin_of_list {vs : List Value} (h : editor.onNode v depth s = (.list vs, s₁)) :
    editor.walkWithin (levels + 1) depth v s =
      (throughItems (editor.walkWithin levels (depth + 1)) (editor.onList vs s₁).1
        (editor.onList vs s₁).2).map fun r => (.list r.1, r.2) := by
  rw [walkWithin, h]

theorem walkWithin_of_dict {es : List (Bytes × Value)}
    (h : editor.onNode v depth s = (.dict es, s₁)) :
    editor.walkWithin (levels + 1) depth v s =
      (throughEntries (editor.walkWithin levels (depth + 1)) (editor.onDict es s₁).1
        (editor.onDict es s₁).2).map fun r => (.dict r.1, r.2) := by
  rw [walkWithin, h]

theorem walkWithin_of_hole (h : editor.onNode v depth s = (.hole, s₁)) :
    editor.walkWithin (levels + 1) depth v s = some (.hole, s₁) := by
  rw [walkWithin, h]

section
variable {edit : Value → σ → Option (Value × σ)} {s' : σ}

theorem throughItems_cons_eq_some {vs ws : List Value} :
    throughItems edit (v :: vs) s = some (ws, s') ↔ ∃ w s₁ us,
      edit v s = some (w, s₁) ∧ throughItems edit vs s₁ = some (us, s') ∧ ws = w :: us := by
  rw [throughItems]
  constructor
  · intro h
    split at h
    · cases h
    · next w s₁ hw =>
      split at h
      · cases h
      · next us s₂ hus =>
        cases h
        exact ⟨w, s₁, us, hw, hus, rfl⟩
  · rintro ⟨w, s₁, us, hw, hus, rfl⟩
    simp only [hw, hus]

/-- When the walk is through with some items, it goes on with the next one. -/
theorem throughItems_concat {vs ws : List Value} {x w : Value} {s₁ s₂ : σ}
    (hvs : throughItems edit vs s = some (ws, s₁)) (hx : edit x s₁ = some (w, s₂)) :
    throughItems edit (vs ++ [x]) s = some (ws ++ [w], s₂) := by
  induction vs generalizing s ws with
  | nil =>
    cases hvs
    exact throughItems_cons_eq_some.2 ⟨w, s₂, [], hx, rfl, rfl⟩
  | cons v vs ih =>
    obtain ⟨u, s₃, us, hu, hus, rfl⟩ := throughItems_cons_eq_some.1 hvs
    exact throughItems_cons_eq_some.2 ⟨u, s₃, us ++ [w], hu, ih hus, rfl⟩

theorem throughEntries_cons_eq_some {k : Bytes} {es fs : List (Bytes × Value)} :
    throughEntries edit ((k, v) :: es) s = some (fs, s') ↔ ∃ w s₁ gs,
      edit v s = some (w, s₁) ∧ throughEntries edit es s₁ = some (gs, s') ∧ fs = (k, w) :: gs := by
  rw [throughEntries]
  constructor
  · intro h
    split at h
    · cases h
    · next w s₁ hw =>
      split at h
      · cases h
      · next gs s₂ hgs =>
        cases h
        exact ⟨w, s₁, gs, hw, hgs, rfl⟩
  · rintro ⟨w, s₁, gs, hw, hgs, rfl⟩
    simp only [hw, hgs]

/-- The walk over a dictionary is the walk over its values; the keys stay. -/
theorem throughEntries_eq_some_iff {es fs : List (Bytes × Value)} :
    throughEntries edit es s = some (fs, s') ↔
      Entries.keys fs = Entries.keys es ∧
        throughItems edit (es.map Prod.snd) s = some (fs.map Prod.snd, s') := by
  induction es generalizing s fs with
  | nil =>
    rw [throughEntries, List.map_nil, throughItems]
    cases fs with
    | nil => simp [Entries.keys]
    | cons f fs => simp [Entries.keys]
  | cons e es ih =>
    obtain ⟨k, v⟩ := e
    rw [throughEntries_cons_eq_some, List.map_cons, throughItems_cons_eq_some]
    constructor
    · rintro ⟨w, s₁, gs, hw, hgs, rfl⟩
      obtain ⟨hkeys, hgs⟩ := ih.1 hgs
      exact ⟨congrArg (k :: ·) hkeys, w, s₁, _, hw, hgs, rfl⟩
    · rintro ⟨hkeys, w, s₁, us, hw, hus, heq⟩
      cases fs with
      | nil => cases heq
      | cons f fs =>
        obtain ⟨l, u⟩ := f
        rw [List.map_cons, List.cons.injEq] at heq
        obtain ⟨rfl, rfl⟩ := heq
        obtain ⟨rfl, hrest⟩ := List.cons.inj hkeys
        exact ⟨_, s₁, fs, hw, ih.2 ⟨hrest, hus⟩, rfl⟩

/-- A walk over values is the walk over the dictionary that holds them. -/
theorem exists_throughEntries {es : List (Bytes × Value)} {ws : List Value}
    (h : throughItems edit (es.map Prod.snd) s = some (ws, s')) :
    ∃ fs, throughEntries edit es s = some (fs, s') ∧ fs.map Prod.snd = ws := by
  induction es generalizing s ws with
  | nil =>
    cases h
    exact ⟨[], rfl, rfl⟩
  | cons e es ih =>
    obtain ⟨k, v⟩ := e
    obtain ⟨w, s₁, us, hw, hus, rfl⟩ := throughItems_cons_eq_some.1 h
    obtain ⟨fs, hfs, rfl⟩ := ih hus
    exact ⟨(k, w) :: fs, throughEntries_cons_eq_some.2 ⟨w, s₁, fs, hw, hfs, rfl⟩, rfl⟩

end

/-- The second walk ends as the first one does wherever that ends. -/
def Extends (edit edit' : Value → σ → Option (Value × σ)) : Prop :=
  ∀ v s r, edit v s = some r → edit' v s = some r

section
variable {edit edit' : Value → σ → Option (Value × σ)} {s' : σ}

theorem Extends.throughItems (h : Extends edit edit') {vs ws : List Value}
    (hws : throughItems edit vs s = some (ws, s')) :
    Editor.throughItems edit' vs s = some (ws, s') := by
  induction vs generalizing s ws with
  | nil => exact hws
  | cons v vs ih =>
    obtain ⟨w, s₁, us, hw, hus, rfl⟩ := throughItems_cons_eq_some.1 hws
    exact throughItems_cons_eq_some.2 ⟨w, s₁, us, h _ _ _ hw, ih hus, rfl⟩

theorem Extends.throughEntries (h : Extends edit edit') {es fs : List (Bytes × Value)}
    (hfs : throughEntries edit es s = some (fs, s')) :
    Editor.throughEntries edit' es s = some (fs, s') := by
  obtain ⟨hkeys, hfs⟩ := throughEntries_eq_some_iff.1 hfs
  exact throughEntries_eq_some_iff.2 ⟨hkeys, h.throughItems hfs⟩

end

theorem extends_walkWithin_succ (editor : Editor σ) (levels depth : Nat) :
    Extends (editor.walkWithin levels depth) (editor.walkWithin (levels + 1) depth) := by
  induction levels generalizing depth with
  | zero =>
    intro v s r h
    cases h
  | succ levels ih =>
    intro v s r h
    obtain ⟨u, s₁, hon⟩ : ∃ u s₁, editor.onNode v depth s = (u, s₁) := ⟨_, _, rfl⟩
    cases u with
    | integer n => rwa [walkWithin_of_integer hon] at h ⊢
    | bytes b => rwa [walkWithin_of_bytes hon] at h ⊢
    | list vs =>
      rw [walkWithin_of_list hon] at h ⊢
      obtain ⟨ws, hws, rfl⟩ := Option.map_eq_some_iff.1 h
      rw [(ih (depth + 1)).throughItems hws, Option.map_some]
    | dict es =>
      rw [walkWithin_of_dict hon] at h ⊢
      obtain ⟨fs, hfs, rfl⟩ := Option.map_eq_some_iff.1 h
      rw [(ih (depth + 1)).throughEntries hfs, Option.map_some]
    | hole => rwa [walkWithin_of_hole hon] at h ⊢

/-- More levels than needed change nothing. -/
theorem walk?_of_le {levels more : Nat} (hle : levels ≤ more) {r : Value × σ}
    (h : editor.walk? levels v s = some r) : editor.walk? more v s = some r := by
  induction hle with
  | refl => exact h
  | step _ ih => exact extends_walkWithin_succ editor _ 1 v s r ih

end Bencode.Editor
