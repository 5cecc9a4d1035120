import Bencode.Bytes

/-! # Dictionary entries in increasing key order

A dictionary is the list of its entries. `insert` places a key by order and replaces an equal one, so
that everything built by `ofList` is `Sorted`; `get?` after `insert` needs no such hypothesis.
-/
namespace Bencode

abbrev Entries (κ α : Type) := List (κ × α)

namespace Entries

variable {κ α : Type} [DecidableEq κ] [LT κ] [DecidableLT κ]

def get? (k : κ) : Entries κ α → Option α
  | [] => none
  | (k', v) :: rest => if k = k' then some v else get? k rest

def insert (k : κ) (v : α) : Entries κ α → Entries κ α
  | [] => [(k, v)]
  | (k', v') :: rest =>
    if k = k' then (k, v) :: rest
    else if k < k' then (k, v) :: (k', v') :: rest
    else (k', v') :: insert k v rest

def erase (k : κ) : Entries κ α → Entries κ α
  | [] => []
  | (k', v) :: rest => if k = k' then rest else (k', v) :: erase k rest

/-- The dictionary that holds the given entries; of equal keys the last one counts. -/
def ofList (entries : List (κ × α)) : Entries κ α :=
  entries.foldl (fun es e => insert e.1 e.2 es) []

def keys (es : Entries κ α) : List κ := es.map Prod.fst

/-- Keys strictly increase, so no key occurs twice. -/
def Sorted (es : Entries κ α) : Prop := es.keys.Pairwise (· < ·)

instance (es : Entries κ α) : Decidable es.Sorted :=
  inferInstanceAs (Decidable (List.Pairwise _ _))

omit [LT κ] [DecidableLT κ] in
@[simp] theorem get?_nil (k : κ) : get? k ([] : Entries κ α) = none := rfl

theorem get?_insert (k k' : κ) (v : α) (es : Entries κ α) :
    get? k' (insert k v es) = if k' = k then some v else get? k' es := by
  induction es with
  | nil => simp [insert, get?]
  | cons e rest ih =>
    obtain ⟨l, w⟩ := e
    rw [insert]
    split
    · next h => subst h; by_cases hk : k' = k <;> simp [get?, hk]
    · next h =>
      split
      · simp [get?]
      · simp only [get?, ih]
        by_cases hl : k' = l
        · subst hl
          simp [Ne.symm h]
        · simp [hl]

@[simp] theorem get?_insert_self (k : κ) (v : α) (es : Entries κ α) :
    get? k (insert k v es) = some v := by
  simp [get?_insert]

theorem get?_insert_of_ne {k k' : κ} (h : k' ≠ k) (v : α) (es : Entries κ α) :
    get? k' (insert k v es) = get? k' es := by
  simp [get?_insert, h]

theorem mem_keys_insert {k k' : κ} {v : α} {es : Entries κ α} (h : k' ∈ (insert k v es).keys) :
    k' = k ∨ k' ∈ es.keys := by
  induction es with
  | nil => simpa [insert, keys] using h
  | cons e rest ih =>
    obtain ⟨l, w⟩ := e
    rw [insert] at h
    simp only [keys] at h ih ⊢
    split at h
    · simp only [List.map_cons, List.mem_cons] at h ⊢
      exact h.imp_right .inr
    · split at h
      · simpa using h
      · simp only [List.map_cons, List.mem_cons] at h ⊢
        rcases h with h | h
        · exact .inr (.inl h)
        · exact (ih h).imp_right .inr

theorem sorted_insert [Std.Trichotomous (· < · : κ → κ → Prop)]
    [Trans (· < · : κ → κ → Prop) (· < ·) (· < ·)]
    (k : κ) (v : α) {es : Entries κ α} (h : es.Sorted) : (insert k v es).Sorted := by
  induction es with
  | nil => simp [insert, Sorted, keys]
  | cons e rest ih =>
    obtain ⟨l, w⟩ := e
    simp only [Sorted, keys, List.map_cons, List.pairwise_cons] at h ih ⊢
    rw [insert]
    split
    · next hk => subst hk; simpa using h
    · next hk =>
      split
      · next hlt =>
        simp only [List.map_cons, List.pairwise_cons, List.mem_cons, forall_eq_or_imp]
        exact ⟨⟨hlt, fun a ha => Trans.trans hlt (h.1 a ha)⟩, h⟩
      · next hlt =>
        simp only [List.map_cons, List.pairwise_cons]
        refine ⟨fun a ha => ?_, ih h.2⟩
        rcases mem_keys_insert ha with rfl | ha
        · exact (Std.Trichotomous.rel_or_eq_or_rel_swap (r := (· < · : κ → κ → Prop))).resolve_left hlt
            |>.resolve_left hk
        · exact h.1 a ha

theorem sorted_ofList [Std.Trichotomous (· < · : κ → κ → Prop)]
    [Trans (· < · : κ → κ → Prop) (· < ·) (· < ·)]
    (entries : List (κ × α)) : (ofList entries).Sorted := by
  have h (es : Entries κ α) (hs : es.Sorted) :
      (entries.foldl (fun es e => insert e.1 e.2 es) es).Sorted := by
    induction entries generalizing es with
    | nil => exact hs
    | cons e entries ih => exact ih _ (sorted_insert e.1 e.2 hs)
  exact h [] .nil

omit [LT κ] [DecidableLT κ] in
theorem erase_sublist (k : κ) (es : Entries κ α) : (erase k es).Sublist es := by
  induction es with
  | nil => exact .slnil
  | cons e rest ih =>
    rw [erase]
    split
    · exact List.sublist_cons_self _ _
    · exact ih.cons_cons _

omit [DecidableLT κ] in
theorem sorted_erase (k : κ) {es : Entries κ α} (h : es.Sorted) : (erase k es).Sorted :=
  List.Pairwise.sublist ((erase_sublist k es).map _) h

omit [LT κ] [DecidableLT κ] in
theorem get?_erase_of_ne {k k' : κ} (h : k' ≠ k) (es : Entries κ α) :
    get? k' (erase k es) = get? k' es := by
  induction es with
  | nil => rfl
  | cons e rest ih =>
    obtain ⟨l, w⟩ := e
    rw [erase]
    split
    · next hk => simp [get?, hk ▸ h]
    · simp [get?, ih]

end Entries

end Bencode
