import Bencode.Entries
import Mathlib.Data.Finset.Card
import Mathlib.Data.List.Induction

/-! # Dictionaries as finite maps

A sorted list of entries is determined by its look-ups, so `ofList` is characterised by two facts: its
result is sorted, and a look-up in it finds the last entry with the key. A list that is sorted
already is left as it is.
-/
namespace Bencode.Entries

variable {κ α : Type} [DecidableEq κ] [LT κ] [DecidableLT κ]

omit [LT κ] [DecidableLT κ] in
theorem get?_eq_none {k : κ} {es : Entries κ α} (h : k ∉ es.keys) : get? k es = none := by
  induction es with
  | nil => rfl
  | cons e es ih =>
    obtain ⟨l, v⟩ := e
    simp only [keys, List.map_cons, List.mem_cons, not_or] at h
    rw [get?, if_neg h.1]
    exact ih h.2

omit [LT κ] [DecidableLT κ] in
theorem mem_of_get?_eq_some {k : κ} {v : α} {es : Entries κ α} (h : get? k es = some v) :
    (k, v) ∈ es := by
  induction es with
  | nil => cases h
  | cons e es ih =>
    obtain ⟨l, w⟩ := e
    rw [get?] at h
    split at h
    · next hk =>
      cases h
      exact hk ▸ List.mem_cons_self
    · exact List.mem_cons_of_mem _ (ih h)

omit [LT κ] [DecidableLT κ] in
theorem mem_keys_iff {k : κ} {es : Entries κ α} : k ∈ es.keys ↔ ∃ v, get? k es = some v := by
  constructor
  · intro h
    cases hv : get? k es with
    | some v => exact ⟨v, rfl⟩
    | none =>
      induction es with
      | nil => cases h
      | cons e es ih =>
        obtain ⟨l, w⟩ := e
        rw [get?] at hv
        split at hv
        · cases hv
        · next hk => exact ih ((List.mem_cons.1 h).resolve_left hk) hv
  · rintro ⟨v, hv⟩
    exact List.mem_map_of_mem (mem_of_get?_eq_some hv)

theorem mem_of_mem_insert {k : κ} {v : α} {es : Entries κ α} {e : κ × α}
    (h : e ∈ insert k v es) : e = (k, v) ∨ e ∈ es := by
  induction es with
  | nil => exact .inl (List.mem_singleton.1 h)
  | cons f es ih =>
    obtain ⟨l, w⟩ := f
    rw [insert] at h
    split at h
    · exact (List.mem_cons.1 h).imp_right (List.mem_cons_of_mem _)
    · split at h
      · exact List.mem_cons.1 h
      · rcases List.mem_cons.1 h with rfl | h
        · exact .inr List.mem_cons_self
        · exact (ih h).imp_right (List.mem_cons_of_mem _)

/-- Of two values entered under one key only the second stays. -/
theorem insert_insert (k : κ) (v w : α) (es : Entries κ α) :
    insert k w (insert k v es) = insert k w es := by
  induction es with
  | nil => simp [insert]
  | cons e es ih =>
    obtain ⟨l, u⟩ := e
    by_cases hk : k = l
    · simp [insert, hk]
    · by_cases hl : k < l
      · simp [insert, hk, hl]
      · simp [insert, hk, hl, ih]

theorem ofList_concat (es : List (κ × α)) (k : κ) (v : α) :
    ofList (es ++ [(k, v)]) = insert k v (ofList es) := by
  simp [ofList]

/-- What a dictionary holds was among the entries it was made from. -/
theorem mem_of_mem_ofList {es : List (κ × α)} {e : κ × α} (h : e ∈ ofList es) : e ∈ es := by
  induction es using List.reverseRecOn with
  | nil => exact h
  | append_singleton es f ih =>
    rw [ofList_concat] at h
    rcases mem_of_mem_insert h with rfl | h
    · simp
    · exact List.mem_append_left _ (ih h)

theorem map_insert {β : Type} (f : α → β) (k : κ) (v : α) (es : Entries κ α) :
    (insert k v es).map (fun e => (e.1, f e.2)) = insert k (f v) (es.map fun e => (e.1, f e.2)) := by
  induction es with
  | nil => rfl
  | cons e es ih =>
    obtain ⟨l, w⟩ := e
    rw [List.map_cons, insert, insert]
    split
    · rfl
    · split
      · rfl
      · rw [List.map_cons, ih]

/-- Which entries stay depends on the keys only. -/
theorem map_ofList {β : Type} (f : α → β) (es : List (κ × α)) :
    (ofList es).map (fun e => (e.1, f e.2)) = ofList (es.map fun e => (e.1, f e.2)) := by
  induction es using List.reverseRecOn with
  | nil => rfl
  | append_singleton es e ih =>
    rw [ofList_concat, map_insert, ih, List.map_append, List.map_singleton, ofList_concat]

/-- A look-up finds the last entry with the key. -/
theorem get?_ofList (k : κ) (es : List (κ × α)) : get? k (ofList es) = get? k es.reverse := by
  induction es using List.reverseRecOn with
  | nil => rfl
  | append_singleton es e ih =>
    rw [ofList_concat, get?_insert, ih, List.reverse_append, List.reverse_singleton,
      List.singleton_append]
    rfl

omit [LT κ] [DecidableLT κ] in
theorem get?_append (k : κ) (es fs : Entries κ α) :
    get? k (es ++ fs) = (get? k es).or (get? k fs) := by
  induction es with
  | nil => rfl
  | cons e es ih =>
    obtain ⟨l, v⟩ := e
    rw [List.cons_append, get?, get?]
    split
    · rfl
    · exact ih

omit [LT κ] [DecidableLT κ] in
theorem get?_reverse_eq_none {k : κ} {es : List (κ × α)} (h : k ∉ keys es) :
    get? k es.reverse = none := by
  apply get?_eq_none
  rwa [keys, List.map_reverse, List.mem_reverse]

theorem mem_keys_ofList {k : κ} {es : List (κ × α)} : k ∈ (ofList es).keys ↔ k ∈ keys es := by
  rw [mem_keys_iff, get?_ofList, ← mem_keys_iff, keys, List.map_reverse, List.mem_reverse, keys]

/-- The last entry with a key is the one that counts. -/
theorem get?_ofList_last {k : κ} {after : List (κ × α)} (h : k ∉ keys after)
    (before : List (κ × α)) (v : α) : get? k (ofList (before ++ (k, v) :: after)) = some v := by
  rw [get?_ofList, List.reverse_append, List.reverse_cons, get?_append, get?_append,
    get?_reverse_eq_none h]
  simp [get?]

section Ordered
variable [Std.Irrefl (· < · : κ → κ → Prop)] [Trans (· < · : κ → κ → Prop) (· < ·) (· < ·)]

/-- A key above all others goes to the end. -/
theorem insert_of_lt {k : κ} (v : α) {es : Entries κ α} (h : ∀ l ∈ es.keys, l < k) :
    insert k v es = es ++ [(k, v)] := by
  induction es with
  | nil => rfl
  | cons e es ih =>
    obtain ⟨l, w⟩ := e
    simp only [keys, List.map_cons, List.mem_cons, forall_eq_or_imp] at h
    have hne : k ≠ l := fun he => Std.Irrefl.irrefl (r := (· < ·)) l (he ▸ h.1)
    have hlt : ¬ k < l := fun hkl => Std.Irrefl.irrefl (r := (· < ·)) l (Trans.trans h.1 hkl)
    rw [insert, if_neg hne, if_neg hlt, ih h.2, List.cons_append]

theorem ofList_of_sorted {es : Entries κ α} (h : es.Sorted) : ofList es = es := by
  induction es using List.reverseRecOn with
  | nil => rfl
  | append_singleton es e ih =>
    obtain ⟨k, v⟩ := e
    simp only [Sorted, keys, List.map_append, List.map_cons, List.map_nil, List.pairwise_append,
      List.mem_singleton, forall_eq] at h
    rw [ofList_concat, ih h.1]
    exact insert_of_lt v h.2.2

omit [DecidableLT κ] [Trans (· < · : κ → κ → Prop) (· < ·) (· < ·)] in
theorem Sorted.get?_head {k : κ} {v : α} {es : Entries κ α} (h : Sorted ((k, v) :: es)) :
    get? k es = none :=
  get?_eq_none fun hk => Std.Irrefl.irrefl (r := (· < ·)) k ((List.pairwise_cons.1 h).1 k hk)

omit [DecidableLT κ] [Trans (· < · : κ → κ → Prop) (· < ·) (· < ·)] in
/-- In sorted entries every entry is found under its key. -/
theorem Sorted.get?_of_mem {k : κ} {v : α} {es : Entries κ α} (hs : es.Sorted) (h : (k, v) ∈ es) :
    get? k es = some v := by
  induction es with
  | nil => cases h
  | cons e es ih =>
    obtain ⟨l, w⟩ := e
    rcases List.mem_cons.1 h with he | h
    · cases he
      simp [get?]
    · have hl : l < k := (List.pairwise_cons.1 hs).1 k (List.mem_map_of_mem h)
      have hne : k ≠ l := fun he => Std.Irrefl.irrefl (r := (· < ·)) l (he ▸ hl)
      rw [get?, if_neg hne]
      exact ih (List.pairwise_cons.1 hs).2 h

omit [DecidableLT κ] in
/-- A key below the first one occurs nowhere. -/
theorem Sorted.get?_of_lt {k l : κ} {v : α} {es : Entries κ α} (h : Sorted ((l, v) :: es))
    (hk : k < l) : get? k ((l, v) :: es) = none := by
  refine get?_eq_none fun hm => ?_
  simp only [keys, List.map_cons, List.mem_cons] at hm
  rcases hm with rfl | hm
  · exact Std.Irrefl.irrefl (r := (· < ·)) k hk
  · exact Std.Irrefl.irrefl (r := (· < ·)) k (Trans.trans hk ((List.pairwise_cons.1 h).1 k hm))

variable [Std.Trichotomous (· < · : κ → κ → Prop)]

omit [DecidableLT κ] in
/-- Sorted entries with the same look-ups are the same. -/
theorem Sorted.ext {es fs : Entries κ α} (he : es.Sorted) (hf : fs.Sorted)
    (h : ∀ k, get? k es = get? k fs) : es = fs := by
  induction es generalizing fs with
  | nil =>
    obtain _ | ⟨⟨l, w⟩, fs⟩ := fs
    · rfl
    · simpa [get?] using h l
  | cons e es ih =>
    obtain ⟨k, v⟩ := e
    obtain _ | ⟨⟨l, w⟩, fs⟩ := fs
    · simpa [get?] using h k
    · rcases Std.Trichotomous.rel_or_eq_or_rel_swap (r := (· < ·)) (a := k) (b := l) with
        hlt | rfl | hlt
      · have hk := h k
        rw [hf.get?_of_lt hlt] at hk
        simp [get?] at hk
      · have hv : v = w := by simpa [get?] using h k
        subst hv
        refine congrArg _ (ih (List.pairwise_cons.1 he).2 (List.pairwise_cons.1 hf).2 fun x => ?_)
        by_cases hx : x = k
        · rw [hx, he.get?_head, hf.get?_head]
        · simpa [get?, hx] using h x
      · have hl := h l
        rw [he.get?_of_lt hlt] at hl
        simp [get?] at hl

/-- Entering what is there changes nothing. -/
theorem Sorted.insert_of_get? {k : κ} {v : α} {es : Entries κ α} (hs : es.Sorted)
    (h : get? k es = some v) : insert k v es = es := by
  refine (sorted_insert k v hs).ext hs fun l => ?_
  rw [get?_insert]
  split
  · next hl => rw [hl, h]
  · rfl

/-- Values under different keys can be entered in either order. -/
theorem insert_comm {k l : κ} (h : k ≠ l) (v w : α) (es : Entries κ α) :
    insert k v (insert l w es) = insert l w (insert k v es) := by
  have hirrefl (a : κ) : ¬ a < a := Std.Irrefl.irrefl (r := (· < ·)) a
  have htrans {a b c : κ} (hab : a < b) (hbc : b < c) : a < c := Trans.trans hab hbc
  have htotal (a b : κ) : a < b ∨ a = b ∨ b < a :=
    Std.Trichotomous.rel_or_eq_or_rel_swap (r := (· < ·))
  induction es with
  | nil => grind [insert]
  | cons e es ih => grind [insert]

/-- The dictionary of some entries is the sorted one in which every key has its last value. -/
theorem ofList_eq_iff {es : List (κ × α)} {fs : Entries κ α} :
    ofList es = fs ↔ fs.Sorted ∧ ∀ k, get? k fs = get? k es.reverse := by
  constructor
  · rintro rfl
    exact ⟨sorted_ofList es, fun k => get?_ofList k es⟩
  · rintro ⟨hs, hk⟩
    exact (sorted_ofList es).ext hs fun k => (get?_ofList k es).trans (hk k).symm

omit [DecidableEq κ] [DecidableLT κ] [Trans (· < · : κ → κ → Prop) (· < ·) (· < ·)]
  [Std.Trichotomous (· < · : κ → κ → Prop)] in
theorem Sorted.nodup {es : Entries κ α} (h : es.Sorted) : es.keys.Nodup := by
  refine List.Pairwise.imp (S := (· ≠ ·)) (fun {k l} hkl => ?_) h
  rintro rfl
  exact Std.Irrefl.irrefl (r := (· < ·)) k hkl

/-- A dictionary is as long as the list that it was made from if no key occurs twice there. -/
theorem length_ofList_eq_iff {es : List (κ × α)} : (ofList es).length = es.length ↔ (keys es).Nodup := by
  have hkeys : (ofList es).keys.toFinset = (keys es).toFinset := by
    ext k
    rw [List.mem_toFinset, List.mem_toFinset, mem_keys_ofList]
  have hcard : (ofList es).length = (keys es).toFinset.card := by
    rw [← hkeys, List.toFinset_card_of_nodup (sorted_ofList es).nodup, keys, List.length_map]
  have hlength : es.length = (keys es : Multiset κ).card := by
    rw [Multiset.coe_card, keys, List.length_map]
  rw [hcard, hlength]
  exact Multiset.toFinset_card_eq_card_iff_nodup

end Ordered

section
variable {κ' β : Type} {name : κ → κ'} {es : Entries κ α} {k l : κ}

omit [DecidableEq κ] [DecidableLT κ] in
/-- The key is one of the dictionary, and no greater one has the same name. -/
def IsLast (name : κ → κ') (es : Entries κ α) (k : κ) : Prop :=
  k ∈ es.keys ∧ ∀ l ∈ es.keys, name l = name k → ¬ k < l

variable [Std.Asymm (· < · : κ → κ → Prop)]

omit [DecidableEq κ] [DecidableLT κ] in
theorem isLast_concat (hk : ∀ l ∈ es.keys, l < k) (v : α) :
    IsLast name (es ++ [(k, v)]) l ↔ l = k ∨ IsLast name es l ∧ name l ≠ name k := by
  have hasymm (a b : κ) (h : a < b) : ¬ b < a := Std.Asymm.asymm a b h
  have hkeys : keys (es ++ [(k, v)]) = es.keys ++ [k] := List.map_append
  rw [IsLast, IsLast, hkeys]
  simp only [List.mem_append, List.mem_singleton]
  grind

variable [DecidableEq κ'] [LT κ'] [DecidableLT κ']

omit [DecidableLT κ] in
/-- If the keys of a dictionary are given names, of the values under one name that of the greatest key
counts. By induction on the entries from behind, since the last one has the greatest key. -/
theorem get?_ofList_map (hs : es.Sorted) (f : α → β) {n : κ'} {b : β} :
    get? n (ofList (es.map fun e => (name e.1, f e.2))) = some b ↔
      ∃ k v, IsLast name es k ∧ get? k es = some v ∧ name k = n ∧ f v = b := by
  induction es using List.reverseRecOn with
  | nil => simp [ofList]
  | append_singleton es e ih =>
    obtain ⟨k, v⟩ := e
    rw [Sorted, keys, List.map_append, List.pairwise_append] at hs
    obtain ⟨hes, -, hlast⟩ := hs
    have hlt (l : κ) (hl : l ∈ keys es) : l < k := hlast l hl k List.mem_cons_self
    have hself : get? k (es ++ [(k, v)]) = some v := by
      rw [get?_append, get?_eq_none fun hk => Std.Asymm.asymm k k (hlt k hk) (hlt k hk)]
      exact if_pos rfl
    have hother {l : κ} (hl : l ∈ keys es) : get? l (es ++ [(k, v)]) = get? l es := by
      obtain ⟨w, hw⟩ := mem_keys_iff.1 hl
      rw [get?_append, hw, Option.some_or]
    rw [List.map_append, List.map_singleton, ofList_concat, get?_insert]
    simp only [isLast_concat hlt]
    split
    · next hn =>
      constructor
      · intro hv
        exact ⟨k, v, .inl rfl, hself, hn.symm, Option.some.inj hv⟩
      · rintro ⟨l, w, rfl | ⟨-, hl⟩, hw, hname, hf⟩
        · rw [hself] at hw
          rw [Option.some.inj hw, hf]
        · exact absurd (hname.trans hn) hl
    · next hn =>
      rw [ih hes]
      constructor
      · rintro ⟨l, w, hl, hw, hname, hf⟩
        exact ⟨l, w, .inr ⟨hl, hname ▸ hn⟩, (hother hl.1).trans hw, hname, hf⟩
      · rintro ⟨l, w, rfl | ⟨hl, -⟩, hw, hname, hf⟩
        · exact absurd hname.symm hn
        · exact ⟨l, w, hl, (hother hl.1).symm.trans hw, hname, hf⟩

end

end Bencode.Entries
