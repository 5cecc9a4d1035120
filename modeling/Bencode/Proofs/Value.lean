import Bencode.Format

/-! # Trees without holes and the byte strings in a tree

The recursions over trees are stated here once more by membership, the form in which induction over a
tree gives its hypotheses. `HoleFree` is the condition under which a tree has an encoding. The search for a
hole answers what `firstHole` does, which needs no path to search with.
-/
namespace Bencode

namespace Value

mutual

/-- No slot of the tree is left unassigned. -/
def HoleFree : Value → Prop
  | .list items => HoleFreeItems items
  | .dict entries => HoleFreeEntries entries
  | .integer _ | .bytes _ => True
  | .hole => False

def HoleFreeItems : List Value → Prop
  | [] => True
  | v :: vs => v.HoleFree ∧ HoleFreeItems vs

def HoleFreeEntries : List (Bytes × Value) → Prop
  | [] => True
  | (_, v) :: es => v.HoleFree ∧ HoleFreeEntries es

end

mutual

/-- All byte strings of a tree, keys included. -/
def strings : Value → List Bytes
  | .bytes b => [b]
  | .list items => stringsItems items
  | .dict entries => stringsEntries entries
  | .integer _ | .hole => []

def stringsItems : List Value → List Bytes
  | [] => []
  | v :: vs => v.strings ++ stringsItems vs

def stringsEntries : List (Bytes × Value) → List Bytes
  | [] => []
  | (k, v) :: es => k :: (v.strings ++ stringsEntries es)

end

theorem holeFree_list {vs : List Value} : (list vs).HoleFree ↔ ∀ v ∈ vs, v.HoleFree := by
  rw [HoleFree]
  induction vs with
  | nil => simp [HoleFreeItems]
  | cons v vs ih => simp [HoleFreeItems, ih]

theorem holeFree_dict {es : List (Bytes × Value)} :
    (dict es).HoleFree ↔ ∀ e ∈ es, e.2.HoleFree := by
  rw [HoleFree]
  induction es with
  | nil => simp [HoleFreeEntries]
  | cons e es ih => rw [HoleFreeEntries, ih, List.forall_mem_cons]

theorem sorted_list {vs : List Value} : (list vs).Sorted ↔ ∀ v ∈ vs, v.Sorted := by
  rw [Sorted]
  induction vs with
  | nil => simp [SortedItems]
  | cons v vs ih => simp [SortedItems, ih]

theorem sorted_dict {es : List (Bytes × Value)} :
    (dict es).Sorted ↔ Entries.Sorted es ∧ ∀ e ∈ es, e.2.Sorted := by
  rw [Sorted]
  refine and_congr_right' ?_
  induction es with
  | nil => simp [SortedEntries]
  | cons e es ih => rw [SortedEntries, ih, List.forall_mem_cons]

theorem depthItems_le_iff {vs : List Value} {n : Nat} :
    depthItems vs ≤ n ↔ ∀ v ∈ vs, v.depth ≤ n := by
  induction vs with
  | nil => simp [depthItems]
  | cons v vs ih => rw [depthItems, Nat.max_le, ih, List.forall_mem_cons]

theorem depthEntries_le_iff {es : List (Bytes × Value)} {n : Nat} :
    depthEntries es ≤ n ↔ ∀ e ∈ es, e.2.depth ≤ n := by
  induction es with
  | nil => simp [depthEntries]
  | cons e es ih => rw [depthEntries, Nat.max_le, ih, List.forall_mem_cons]

theorem mem_stringsItems {vs : List Value} {s : Bytes} :
    s ∈ stringsItems vs ↔ ∃ v ∈ vs, s ∈ v.strings := by
  induction vs with
  | nil => simp [stringsItems]
  | cons v vs ih => simp [stringsItems, ih]

theorem mem_stringsEntries {es : List (Bytes × Value)} {s : Bytes} :
    s ∈ stringsEntries es ↔ ∃ e ∈ es, s = e.1 ∨ s ∈ e.2.strings := by
  induction es with
  | nil => simp [stringsEntries]
  | cons e es ih => simp [stringsEntries, ih, or_assoc]

theorem mem_strings_list {vs : List Value} {s : Bytes} :
    s ∈ (list vs).strings ↔ ∃ v ∈ vs, s ∈ v.strings := by
  rw [strings, mem_stringsItems]

theorem mem_strings_dict {es : List (Bytes × Value)} {s : Bytes} :
    s ∈ (dict es).strings ↔ ∃ e ∈ es, s = e.1 ∨ s ∈ e.2.strings := by
  rw [strings, mem_stringsEntries]

/-- What a container holds. -/
def members : Value → List Value
  | .list items => items
  | .dict entries => entries.map Prod.snd
  | .integer _ | .bytes _ | .hole => []

theorem depthEntries_eq_depthItems (es : List (Bytes × Value)) :
    depthEntries es = depthItems (es.map Prod.snd) := by
  induction es with
  | nil => rfl
  | cons e es ih => rw [depthEntries, List.map_cons, depthItems, ih]

theorem depth_eq_depthItems_members (v : Value) : v.depth = depthItems v.members + 1 := by
  cases v with
  | list vs => rfl
  | dict es => rw [depth, members, depthEntries_eq_depthItems]
  | _ => rfl

theorem depth_le_iff_members {v : Value} {n : Nat} :
    v.depth ≤ n + 1 ↔ ∀ x ∈ v.members, x.depth ≤ n := by
  rw [depth_eq_depthItems_members, Nat.add_le_add_iff_right, depthItems_le_iff]

/-- A tree that lies at some depth reaches down as far as its members do. -/
theorem add_depth_le_iff {d n : Nat} (v : Value) :
    d + v.depth ≤ n ↔ d + 1 ≤ n ∧ ∀ x ∈ v.members, d + 1 + x.depth ≤ n := by
  rw [depth_eq_depthItems_members]
  constructor
  · intro h
    refine ⟨by omega, fun x hx => ?_⟩
    have hx : x.depth ≤ depthItems v.members := depthItems_le_iff.1 (Nat.le_refl _) x hx
    omega
  · rintro ⟨hd, h⟩
    have hitems : depthItems v.members ≤ n - (d + 1) := depthItems_le_iff.2 fun x hx => by
      have hx := h x hx
      omega
    omega

mutual

/-- The path of the first hole, as it comes together on the way back from there. -/
def firstHole : Value → Option Path
  | .integer _ | .bytes _ => none
  | .list items => firstHoleItems 0 items
  | .dict entries => firstHoleEntries entries
  | .hole => some []

/-- The first hole of items, the first of which has the given index. -/
def firstHoleItems (i : Nat) : List Value → Option Path
  | [] => none
  | v :: vs =>
    match v.firstHole with
    | some p => some (.index i :: p)
    | none => firstHoleItems (i + 1) vs

def firstHoleEntries : List (Bytes × Value) → Option Path
  | [] => none
  | (k, v) :: es =>
    match v.firstHole with
    | some p => some (.key k :: p)
    | none => firstHoleEntries es

end

/-- How a search ends that began at the end of a path: behind a hole, or where it began. -/
def searched (path : Path) : Option Path → Bool × Path
  | some p => (true, path ++ p)
  | none => (false, path)

theorem findHoleAmongItems_eq {vs : List Value}
    (h : ∀ v ∈ vs, ∀ path, v.findHoleAt path = searched path v.firstHole) (i : Nat) (path : Path) :
    findHoleAmongItems i vs path = searched path (firstHoleItems i vs) := by
  induction vs generalizing i with
  | nil => rfl
  | cons v vs ih =>
    obtain ⟨hv, hvs⟩ := List.forall_mem_cons.1 h
    rw [findHoleAmongItems, firstHoleItems, hv]
    cases v.firstHole with
    | none =>
      dsimp only [searched]
      rw [List.dropLast_concat]
      exact ih hvs (i + 1)
    | some p => rw [searched, searched, List.append_assoc, List.singleton_append]

theorem findHoleAmongEntries_eq {es : List (Bytes × Value)}
    (h : ∀ e ∈ es, ∀ path, e.2.findHoleAt path = searched path e.2.firstHole) (path : Path) :
    findHoleAmongEntries es path = searched path (firstHoleEntries es) := by
  induction es with
  | nil => rfl
  | cons e es ih =>
    obtain ⟨hv, hes⟩ := List.forall_mem_cons.1 h
    rw [findHoleAmongEntries, firstHoleEntries, hv]
    cases e.2.firstHole with
    | none =>
      dsimp only [searched]
      rw [List.dropLast_concat]
      exact ih hes
    | some p => rw [searched, searched, List.append_assoc, List.singleton_append]

/-- No search leaves a segment too many on the path or takes one too many from it. -/
theorem findHoleAt_eq (v : Value) (path : Path) : v.findHoleAt path = searched path v.firstHole := by
  induction v generalizing path with
  | integer n => rfl
  | bytes b => rfl
  | list vs ih => exact findHoleAmongItems_eq ih 0 path
  | dict es ih => exact findHoleAmongEntries_eq ih path
  | hole => rw [findHoleAt, firstHole, searched, List.append_nil]

theorem findHole_eq_firstHole (v : Value) : v.findHole = v.firstHole := by
  rw [findHole, findHoleAt_eq]
  cases v.firstHole with
  | none => rfl
  | some p => rfl

theorem firstHoleItems_eq_none_iff {vs : List Value} {i : Nat} :
    firstHoleItems i vs = none ↔ ∀ v ∈ vs, v.firstHole = none := by
  induction vs generalizing i with
  | nil => simp [firstHoleItems]
  | cons v vs ih =>
    rw [firstHoleItems, List.forall_mem_cons]
    cases v.firstHole with
    | none => simp [ih]
    | some p => simp

theorem firstHoleEntries_eq_none_iff {es : List (Bytes × Value)} :
    firstHoleEntries es = none ↔ ∀ e ∈ es, e.2.firstHole = none := by
  induction es with
  | nil => simp [firstHoleEntries]
  | cons e es ih =>
    obtain ⟨k, v⟩ := e
    rw [firstHoleEntries, List.forall_mem_cons]
    cases v.firstHole with
    | none => simp [ih]
    | some p => simp

theorem firstHole_eq_none_iff {v : Value} : v.firstHole = none ↔ v.HoleFree := by
  induction v with
  | integer n => simp [firstHole, HoleFree]
  | bytes b => simp [firstHole, HoleFree]
  | list vs ih =>
    rw [firstHole, firstHoleItems_eq_none_iff, holeFree_list]
    exact forall₂_congr ih
  | dict es ih =>
    rw [firstHole, firstHoleEntries_eq_none_iff, holeFree_dict]
    exact forall₂_congr ih
  | hole => simp [firstHole, HoleFree]

/-- The search for a hole finds none just where there is none. -/
theorem findHole_eq_none_iff {v : Value} : v.findHole = none ↔ v.HoleFree := by
  rw [findHole_eq_firstHole, firstHole_eq_none_iff]

end Value

/-- Exactly the trees without holes have an encoding, and it is their wire form. -/
theorem encode_eq_ok_iff {v : Value} {b : Bytes} : encode v = .ok b ↔ v.HoleFree ∧ v.wire = b := by
  rw [← Value.findHole_eq_none_iff, encode, Value.assigned]
  cases v.findHole with
  | none => simp [Except.map]
  | some p => simp [Except.map]

end Bencode
