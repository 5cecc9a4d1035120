import Bencode.Proofs.Build.Path
import Bencode.Script.Tree

/-! # Build steps keep keys in order

A build step is one of the few that work on a slot, taken to the slot along a path. What it works on and what
it leaves are sorted if the tree is, and putting a sorted value into a sorted tree enters its key by order.
A refused path has entered no key out of order either.
-/
namespace Bencode

namespace Value

variable {v w x : Value} {p : Path} {s : Segment}

theorem sorted_opened (hv : v.Sorted) (s : Segment) : (v.opened s).Sorted := by
  by_cases hh : v.kind = .hole
  · cases v with
    | hole =>
      cases s with
      | key k => exact sorted_dict.2 ⟨.nil, fun e he => absurd he List.not_mem_nil⟩
      | index i => exact sorted_list.2 fun u hu => absurd hu List.not_mem_nil
    | _ => cases hh
  · rwa [opened_of_kind hh]

theorem sorted_dict_insert {es : List (Bytes × Value)} (hes : (dict es).Sorted) (k : Bytes)
    (hw : w.Sorted) : (dict (Entries.insert k w es)).Sorted := by
  obtain ⟨hkeys, hvs⟩ := sorted_dict.1 hes
  refine sorted_dict.2 ⟨Entries.sorted_insert k w hkeys, fun e he => ?_⟩
  rcases Entries.mem_of_mem_insert he with rfl | he
  · exact hw
  · exact hvs e he

theorem sorted_dict_erase {es : List (Bytes × Value)} (hes : (dict es).Sorted) (k : Bytes) :
    (dict (Entries.erase k es)).Sorted := by
  obtain ⟨hkeys, hvs⟩ := sorted_dict.1 hes
  refine sorted_dict.2 ⟨Entries.sorted_erase k hkeys, fun e he => ?_⟩
  exact hvs e ((Entries.erase_sublist k es).subset he)

theorem sorted_list_concat {items : List Value} (hitems : (list items).Sorted) (hw : w.Sorted) :
    (list (items ++ [w])).Sorted := by
  refine sorted_list.2 fun x hx => ?_
  rcases List.mem_append.1 hx with hx | hx
  · exact sorted_list.1 hitems x hx
  · exact List.mem_singleton.1 hx ▸ hw

theorem sorted_list_of_subset {items vs : List Value} (hitems : (list items).Sorted)
    (hsub : vs ⊆ items) : (list vs).Sorted :=
  sorted_list.2 fun x hx => sorted_list.1 hitems x (hsub hx)

theorem mem_putItem {items : List Value} {i : Nat} (h : x ∈ putItem items i w) :
    x = w ∨ x ∈ items ∨ x = .hole := by
  rcases List.mem_or_eq_of_mem_set h with h | h
  · rcases List.mem_append.1 h with h | h
    · exact .inr (.inl h)
    · exact .inr (.inr (List.eq_of_mem_replicate h))
  · exact .inl h

theorem sorted_put [Growth] (hv : v.Sorted) (hw : w.Sorted) (hs : v.Takes s) : (v.put s w).Sorted := by
  cases hs with
  | @entry k es hopened =>
    have hes : (dict es).Sorted := hopened ▸ sorted_opened hv (.key k)
    rw [put_key hopened]
    exact sorted_dict_insert hes k hw
  | @item i items hopened =>
    have hitems : (list items).Sorted := hopened ▸ sorted_opened hv (.index i)
    rw [put_index hopened]
    refine sorted_list.2 fun x hx => ?_
    rcases mem_putItem hx with rfl | hx | rfl
    · exact hw
    · exact sorted_list.1 hitems x hx
    · trivial

theorem sorted_childAt (hv : v.Sorted) (s : Segment) : (v.childAt s).Sorted := by
  unfold childAt
  cases hc : v.child? s with
  | none => trivial
  | some c => exact hv.child? hc

theorem sorted_nodeAt (hv : v.Sorted) (p : Path) : (v.nodeAt p).Sorted := by
  induction p generalizing v with
  | nil => exact hv
  | cons s p ih =>
    rw [nodeAt_cons]
    exact ih (sorted_childAt hv s)

theorem sorted_putAt [Growth] (hv : v.Sorted) (hw : w.Sorted) (hp : v.TakesAll p) :
    (v.putAt p w).Sorted := by
  induction p generalizing v with
  | nil => exact hw
  | cons s p ih =>
    obtain ⟨hs, hp⟩ := hp
    exact sorted_put hv (ih (sorted_childAt hv s) hp) hs

theorem sorted_afterRefusal (hv : v.Sorted) (s : Segment) : (v.afterRefusal s).Sorted := by
  cases s with
  | key k => exact hv
  | index i =>
    rw [afterRefusal]
    split
    · exact sorted_opened hv _
    · exact hv

end Value

open Value

namespace Build

variable {α : Type} {step : Build α}

/-- A sorted tree is sorted after the step, whether the step succeeds or fails. -/
def KeepsOrder (step : Build α) : Prop := ∀ v, v.Sorted → (step v).2.Sorted

theorem keepsOrder_look : KeepsOrder look := fun _ hv => hv

theorem keepsOrder_assign {w : Value} (hw : w.Sorted) : KeepsOrder (assign w) := fun _ _ => hw

/-- A step that keeps the order in a slot keeps it in the tree around the slot. -/
theorem KeepsOrder.atPath [Growth] (h : KeepsOrder step) (p : Path) : KeepsOrder (atPath p step) := by
  intro v hv
  rcases stopsAt_or_takesAll v p with ⟨q, s, e, hstop⟩ | hp
  · rw [atPath_of_stopsAt hstop]
    exact sorted_putAt hv (sorted_afterRefusal (sorted_nodeAt hv q) s) hstop.takesAll
  · rw [atPath_of_takesAll hp]
    exact sorted_putAt hv (h _ (sorted_nodeAt hv p)) hp

theorem KeepsOrder.atKey [Growth] (h : KeepsOrder step) (k : Bytes) : KeepsOrder (atKey k step) :=
  h.atPath [.key k]

theorem KeepsOrder.atIndex [Growth] (h : KeepsOrder step) (i : Nat) : KeepsOrder (atIndex i step) :=
  h.atPath [.index i]

theorem mem_of_padded_eq_ok [Growth] {items items' : List Value} {n : Nat} {x : Value}
    (h : padded items n = .ok items') (hx : x ∈ items') : x ∈ items ∨ x = .hole := by
  unfold padded at h
  split at h
  · cases h
    exact .inl hx
  · split at h
    · cases h
      exact (List.mem_append.1 hx).imp_right List.eq_of_mem_replicate
    · cases h

theorem keepsOrder_ensureLength [Growth] (length : Nat) : KeepsOrder (ensureLength length) := by
  intro v hv
  have hlist {items : List Value} (hopened : v.opened (.index 0) = .list items) :
      (ensureLength length v).2.Sorted := by
    have hitems : (list items).Sorted := hopened ▸ sorted_opened hv (.index 0)
    rw [ensureLength_of_opened hopened]
    cases hpad : padded items length with
    | error e => exact hitems
    | ok items' =>
      refine sorted_list.2 fun x hx => ?_
      rcases mem_of_padded_eq_ok hpad hx with hx | rfl
      · exact sorted_list.1 hitems x hx
      · trivial
  cases v with
  | list items => exact hlist rfl
  | hole => exact hlist rfl
  | _ => exact hv

theorem keepsOrder_onInteger (f : Int64 → α × Int64) : KeepsOrder (onInteger f) := by
  intro v hv
  cases v with
  | integer n => trivial
  | _ => exact hv

theorem keepsOrder_onBytes (f : Bytes → α × Bytes) : KeepsOrder (onBytes f) := by
  intro v hv
  cases v with
  | bytes b => trivial
  | _ => exact hv

theorem keepsOrder_onList {f : List Value → α × List Value}
    (hf : ∀ items, (list items).Sorted → (list (f items).2).Sorted) : KeepsOrder (onList f) := by
  intro v hv
  cases v with
  | list items => exact hf items hv
  | _ => exact hv

theorem keepsOrder_onDict {f : List (Bytes × Value) → α × List (Bytes × Value)}
    (hf : ∀ es, (dict es).Sorted → (dict (f es).2).Sorted) : KeepsOrder (onDict f) := by
  intro v hv
  cases v with
  | dict es => exact hf es hv
  | _ => exact hv

end Build
open Build

namespace SlotStep

/-- The values that the step puts into the tree. -/
def values : SlotStep → List Value
  | .setKey _ v | .setIndex _ v | .pushItem v => [v]
  | _ => []

theorem keepsOrder_apply [Growth] {step : SlotStep} (h : ∀ v ∈ step.values, v.Sorted) :
    KeepsOrder step.apply := by
  cases step with
  | look => exact keepsOrder_look
  | setKey k v => exact (keepsOrder_assign (h v List.mem_cons_self)).atKey k
  | setIndex i v => exact (keepsOrder_assign (h v List.mem_cons_self)).atIndex i
  | entry k => exact KeepsOrder.atKey (fun v hv => hv) k
  | element i => exact KeepsOrder.atIndex (fun v hv => hv) i
  | ensureLength length => exact keepsOrder_ensureLength length
  | addInteger n => exact keepsOrder_onInteger _
  | appendBytes b => exact keepsOrder_onBytes _
  | pushItem v =>
    have hv : v.Sorted := h v List.mem_cons_self
    exact keepsOrder_onList fun items hitems => sorted_list_concat hitems hv
  | popItem =>
    exact keepsOrder_onList fun items hitems =>
      sorted_list_of_subset hitems (List.dropLast_sublist items).subset
  | removeKey k => exact keepsOrder_onDict fun es hes => sorted_dict_erase hes k
  | invalid cause => exact fun v hv => hv

end SlotStep

namespace TreeStep

def values : TreeStep → List Value
  | .set _ v => [v]
  | .slot _ step => step.values
  | _ => []

theorem sorted_apply [Growth] {step : TreeStep} (h : ∀ v ∈ step.values, v.Sorted) {t : Value}
    (ht : t.Sorted) : (step.apply t).2.Sorted := by
  cases step with
  | set p v => exact (keepsOrder_assign (h v List.mem_cons_self)).atPath p t ht
  | slot p step => exact (SlotStep.keepsOrder_apply h).atPath p t ht
  | _ => exact ht

end TreeStep

end Bencode
