import Bencode.Proofs.Entries
import Bencode.Proofs.Value

/-! # Trees as they are written

On the wire a dictionary may have its entries in any order, and a key more than once. Such a tree
is kept here as it is written; `settled` is the tree that it stands for, in which of equal keys the
last one counts at every depth. Settling a sorted tree changes nothing, and it makes no tree deeper
and adds no byte string.
-/
namespace Bencode.Value

mutual

/-- The tree that a written tree stands for. -/
def settled : Value → Value
  | .list items => .list (settledItems items)
  | .dict entries => .ofEntries (settledEntries entries)
  | .integer n => .integer n
  | .bytes b => .bytes b
  | .hole => .hole

def settledItems : List Value → List Value
  | [] => []
  | v :: vs => v.settled :: settledItems vs

def settledEntries : List (Bytes × Value) → List (Bytes × Value)
  | [] => []
  | (k, v) :: es => (k, v.settled) :: settledEntries es

end

theorem settledItems_eq_map (vs : List Value) : settledItems vs = vs.map settled := by
  induction vs with
  | nil => rfl
  | cons v vs ih => rw [settledItems, ih, List.map_cons]

theorem settledEntries_eq_map (es : List (Bytes × Value)) :
    settledEntries es = es.map fun e => (e.1, e.2.settled) := by
  induction es with
  | nil => rfl
  | cons e es ih => rw [settledEntries, ih, List.map_cons]

theorem settled_list (vs : List Value) : (list vs).settled = .list (vs.map settled) := by
  rw [settled, settledItems_eq_map]

theorem settled_dict (es : List (Bytes × Value)) :
    (dict es).settled = .ofEntries (es.map fun e => (e.1, e.2.settled)) := by
  rw [settled, settledEntries_eq_map]

/-- If nothing below a written dictionary changes, only its own entries are put in order. -/
theorem settled_dict_of_settled {es : List (Bytes × Value)} (h : ∀ e ∈ es, e.2.settled = e.2) :
    (dict es).settled = .ofEntries es := by
  have hm : (es.map fun e => (e.1, e.2.settled)) = es.map id :=
    List.map_congr_left fun e he => Prod.ext rfl (h e he)
  rw [settled_dict, hm, List.map_id]

theorem settled_of_sorted {v : Value} (h : v.Sorted) : v.settled = v := by
  induction v with
  | list vs ih =>
    rw [settled_list, List.map_congr_left fun v hv => ih v hv (sorted_list.1 h v hv), List.map_id']
  | dict es ih =>
    rw [sorted_dict] at h
    rw [settled_dict_of_settled fun e he => ih e he (h.2 e he), ofEntries,
      Entries.ofList_of_sorted h.1]
  | _ => rw [settled]

/-- An entry of a settled dictionary comes from a written one. -/
theorem mem_ofList_settled {es : List (Bytes × Value)} {e : Bytes × Value}
    (h : e ∈ Entries.ofList (es.map fun e => (e.1, e.2.settled))) :
    ∃ f ∈ es, f.1 = e.1 ∧ f.2.settled = e.2 := by
  obtain ⟨f, hf, rfl⟩ := List.mem_map.1 (Entries.mem_of_mem_ofList h)
  exact ⟨f, hf, rfl, rfl⟩

theorem sorted_settled (v : Value) : v.settled.Sorted := by
  induction v with
  | list vs ih =>
    rw [settled_list, sorted_list]
    exact List.forall_mem_map.2 ih
  | dict es ih =>
    rw [settled_dict, ofEntries, sorted_dict]
    refine ⟨Entries.sorted_ofList _, fun e he => ?_⟩
    obtain ⟨f, hf, -, hv⟩ := mem_ofList_settled he
    exact hv ▸ ih f hf
  | _ => simp [settled, Sorted]

theorem holeFree_settled {v : Value} (h : v.HoleFree) : v.settled.HoleFree := by
  induction v with
  | list vs ih =>
    rw [settled_list, holeFree_list]
    exact List.forall_mem_map.2 fun v hv => ih v hv (holeFree_list.1 h v hv)
  | dict es ih =>
    rw [settled_dict, ofEntries, holeFree_dict]
    intro e he
    obtain ⟨f, hf, -, hv⟩ := mem_ofList_settled he
    exact hv ▸ ih f hf (holeFree_dict.1 h f hf)
  | _ => exact h

theorem depth_settled_le (v : Value) : v.settled.depth ≤ v.depth := by
  induction v with
  | list vs ih =>
    rw [settled_list, depth, depth, Nat.add_le_add_iff_right, depthItems_le_iff]
    exact List.forall_mem_map.2 fun v hv =>
      Nat.le_trans (ih v hv) (depthItems_le_iff.1 (Nat.le_refl _) v hv)
  | dict es ih =>
    rw [settled_dict, ofEntries, depth, depth, Nat.add_le_add_iff_right, depthEntries_le_iff]
    intro e he
    obtain ⟨f, hf, -, hv⟩ := mem_ofList_settled he
    exact hv ▸ Nat.le_trans (ih f hf) (depthEntries_le_iff.1 (Nat.le_refl _) f hf)
  | _ => exact Nat.le_refl _

theorem strings_settled_subset (v : Value) : v.settled.strings ⊆ v.strings := by
  induction v with
  | list vs ih =>
    intro s hs
    rw [settled_list, mem_strings_list] at hs
    obtain ⟨w, hw, hs⟩ := hs
    obtain ⟨v, hv, rfl⟩ := List.mem_map.1 hw
    exact mem_strings_list.2 ⟨v, hv, ih v hv hs⟩
  | dict es ih =>
    intro s hs
    rw [settled_dict, ofEntries, mem_strings_dict] at hs
    obtain ⟨e, he, hs⟩ := hs
    obtain ⟨f, hf, hk, hv⟩ := mem_ofList_settled he
    rw [← hk, ← hv] at hs
    exact mem_strings_dict.2 ⟨f, hf, hs.imp_right fun h => ih f hf h⟩
  | _ => exact List.Subset.refl _

end Bencode.Value
