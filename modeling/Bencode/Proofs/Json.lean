import Bencode.Proofs.Entries
import Bencode.Proofs.Value

/-! # The JSON projection of trees without holes

Null stands for a hole and for nothing else, so a tree without holes has a projection without nulls.
-/
namespace Bencode

namespace Json

mutual

/-- No null at any level. -/
def NullFree : Json → Prop
  | .array items => NullFreeItems items
  | .object members => NullFreeMembers members
  | .number _ | .string _ => True
  | .null => False

def NullFreeItems : List Json → Prop
  | [] => True
  | j :: js => j.NullFree ∧ NullFreeItems js

def NullFreeMembers : List (String × Json) → Prop
  | [] => True
  | (_, j) :: ms => j.NullFree ∧ NullFreeMembers ms

end

theorem nullFree_array {js : List Json} : (array js).NullFree ↔ ∀ j ∈ js, j.NullFree := by
  rw [NullFree]
  induction js with
  | nil => simp [NullFreeItems]
  | cons j js ih => simp [NullFreeItems, ih]

theorem nullFree_object {ms : List (String × Json)} :
    (object ms).NullFree ↔ ∀ m ∈ ms, m.2.NullFree := by
  rw [NullFree]
  induction ms with
  | nil => simp [NullFreeMembers]
  | cons m ms ih => rw [NullFreeMembers, ih, List.forall_mem_cons]

end Json

namespace Value

theorem toJsonItems_eq_map (vs : List Value) : toJsonItems vs = vs.map toJson := by
  induction vs with
  | nil => rfl
  | cons v vs ih => rw [toJsonItems, ih, List.map_cons]

theorem toJsonEntries_eq_map (es : List (Bytes × Value)) :
    toJsonEntries es = es.map fun e => (String.ofList (Utf8.lossy e.1), e.2.toJson) := by
  induction es with
  | nil => rfl
  | cons e es ih => rw [toJsonEntries, ih, List.map_cons]

theorem nullFree_toJson {v : Value} (h : v.HoleFree) : v.toJson.NullFree := by
  induction v with
  | list vs ih =>
    rw [toJson, toJsonItems_eq_map, Json.nullFree_array]
    exact List.forall_mem_map.2 fun v hv => ih v hv (holeFree_list.1 h v hv)
  | dict es ih =>
    rw [toJson, toJsonEntries_eq_map, Json.nullFree_object]
    intro m hm
    obtain ⟨e, he, rfl⟩ := List.mem_map.1 (Entries.mem_of_mem_ofList hm)
    exact ih e he (holeFree_dict.1 h e he)
  | hole => exact h.elim
  | _ => simp [toJson, Json.NullFree]

end Value

end Bencode
