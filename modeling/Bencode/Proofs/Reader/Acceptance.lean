import Bencode.Proofs.Reader.Tree
import Bencode.Proofs.Written

/-! # What the reader of trees accepts

The reader accepts the wire forms of well-written trees within its limits, and answers what they stand
for. Conversely a well-written tree is read back unless it exceeds a limit, and then the error names
that limit. Both directions are inductions on the levels, with a loop lemma for items and one for
entries in which the reader of a child is a hypothesis.
-/
namespace Bencode.Reader
open Value Cursor

variable {limits : Limits} {levels : Nat} {item : Reader Value} {c c' : Cursor}

/-- Between the cursors stands a tree within the limits, and it settles to `v`. -/
def Written (limits : Limits) (levels : Nat) (v : Value) (c c' : Cursor) : Prop :=
  ∃ w : Value, w.WellWritten limits.strictKeys ∧ w.Within limits levels ∧ w.settled = v ∧
    c.Passes w.wire c'

theorem items_written {vs : List Value}
    (hitem : ∀ {v c c'}, item.run c = (.ok v, c') → Written limits levels v c c')
    (h : items item c = (.ok vs, c')) :
    ∃ ws, (list ws).WellWritten limits.strictKeys ∧ (list ws).Within limits (levels + 1) ∧
      ws.map settled = vs ∧ c.Passes (wireItems ws ++ [Mark.close]) c' := by
  fun_induction items item c generalizing vs c' with
  | case1 => simp [fail] at h
  | case2 c rest hc =>
    simp only [Prod.mk.injEq, Except.ok.injEq] at h
    obtain ⟨rfl, rfl⟩ := h
    exact ⟨[], by simp [wellWritten_list], by simp [within_list], rfl, passes_next hc⟩
  | case3 => simp at h
  | case4 c b rest hc hb v c₁ hv ih =>
    obtain ⟨us, hr, rfl⟩ := Outcome.map_eq_ok.1 h
    obtain ⟨w, hw, hl, rfl, hp⟩ := hitem hv
    obtain ⟨ws, hws, hls, rfl, hps⟩ := ih hr
    rw [wellWritten_list] at hws
    rw [within_list] at hls
    refine ⟨w :: ws, wellWritten_list.2 (List.forall_mem_cons.2 ⟨hw, hws⟩),
      within_list.2 (List.forall_mem_cons.2 ⟨hl, hls⟩), rfl, ?_⟩
    rw [wireItems, List.append_assoc]
    exact hp.trans hps

theorem entries_written {vs : List (Bytes × Value)} {previous : Option Bytes}
    (hitem : ∀ {v c c'}, item.run c = (.ok v, c') → Written limits levels v c c')
    (h : entries limits item previous c = (.ok vs, c')) :
    ∃ es, (limits.strictKeys = true → (previous.toList ++ es.map Prod.fst).Pairwise (· < ·)) ∧
      (∀ e ∈ es, e.1.length < 2 ^ 63 ∧ e.2.WellWritten limits.strictKeys) ∧
      (dict es).Within limits (levels + 1) ∧
      (es.map fun e => (e.1, e.2.settled)) = vs ∧
      c.Passes (wireEntries es ++ [Mark.close]) c' := by
  fun_induction entries limits item previous c generalizing vs c' with
  | case1 => simp [fail] at h
  | case2 previous c rest hc =>
    simp only [Prod.mk.injEq, Except.ok.injEq] at h
    obtain ⟨rfl, rfl⟩ := h
    refine ⟨[], fun _ => ?_, by simp, by simp [within_dict], rfl, passes_next hc⟩
    cases previous <;> simp
  | case3 => simp [fail] at h
  | case4 => simp at h
  | case5 => simp at h
  | case6 => simp at h
  | case7 previous c b rest hc hb hd key c₁ hk ho v c₂ hv ih =>
    obtain ⟨us, hr, rfl⟩ := Outcome.map_eq_ok.1 h
    obtain ⟨⟨hmax, hlt⟩, hpk⟩ := string_eq_ok_iff.1 hk
    obtain ⟨w, hw, hl, rfl, hp⟩ := hitem hv
    obtain ⟨es, hs, hws, hls, rfl, hps⟩ := ih hr
    rw [within_dict] at hls
    refine ⟨(key, w) :: es, fun hstrict => ?_, List.forall_mem_cons.2 ⟨⟨hlt, hw⟩, hws⟩,
      within_dict.2 (List.forall_mem_cons.2 ⟨⟨hmax, hl⟩, hls⟩), rfl, ?_⟩
    · have hkeys : (key :: es.map Prod.fst).Pairwise (· < ·) := hs hstrict
      have hp := orderFault?_eq_none_iff.1 ho hstrict
      cases previous with
      | none => exact hkeys
      | some p =>
        have hpk : p < key := hp p rfl
        refine List.pairwise_cons.2 ⟨List.forall_mem_cons.2 ⟨hpk, fun l hl => ?_⟩, hkeys⟩
        exact Trans.trans hpk ((List.pairwise_cons.1 hkeys).1 l hl)
    · rw [wireEntries, List.append_assoc, List.append_assoc]
      exact hpk.trans (hp.trans hps)

theorem value_written {v : Value}
    (hitem : ∀ {v c c'}, item.run c = (.ok v, c') → Written limits levels v c c')
    (h : value limits item c = (.ok v, c')) : Written limits (levels + 1) v c c' := by
  cases hr : c.rest with
  | nil => simp [value_nil hr, fail] at h
  | cons b rest =>
    rw [value_cons hr] at h
    split at h
    · next hb =>
      obtain ⟨n, rfl, hp⟩ := integer_eq_ok_iff.1 h
      refine ⟨.integer n, ⟨trivial, fun _ => trivial, by simp [strings]⟩,
        ⟨by simp [depth], by simp [strings]⟩, rfl, ?_⟩
      rw [wire]
      exact .cons (hb ▸ hr) hp
    · split at h
      · next hb =>
        obtain ⟨vs, hv, rfl⟩ := Outcome.map_eq_ok.1 h
        obtain ⟨ws, hw, hl, rfl, hp⟩ := items_written hitem hv
        refine ⟨.list ws, hw, hl, settled_list ws, ?_⟩
        rw [wire]
        exact .cons (hb ▸ hr) hp
      · split at h
        · next hb =>
          obtain ⟨vs, hv, rfl⟩ := Outcome.map_eq_ok.1 h
          obtain ⟨es, hs, hw, hl, rfl, hp⟩ := entries_written hitem hv
          refine ⟨.dict es, wellWritten_dict.2 ⟨hs, hw⟩, hl, settled_dict es, ?_⟩
          rw [wire]
          exact .cons (hb ▸ hr) hp
        · split at h
          · obtain ⟨b, hv, rfl⟩ := Outcome.map_eq_ok.1 h
            obtain ⟨⟨hmax, hlt⟩, hp⟩ := string_eq_ok_iff.1 hv
            refine ⟨.bytes b, ⟨trivial, fun _ => trivial, ?_⟩, ⟨by simp [depth], ?_⟩, rfl, ?_⟩
            · exact List.forall_mem_singleton.2 hlt
            · exact List.forall_mem_singleton.2 hmax
            · rw [wire]
              exact hp
          · simp [fail] at h

theorem tree_written {v : Value} (h : (tree limits levels).run c = (.ok v, c')) :
    Written limits levels v c c' := by
  induction levels generalizing c c' v with
  | zero => simp [tree, failing, fail] at h
  | succ levels ih => exact value_written ih h

/-- The error names a limit that a tree of the given depth and byte strings exceeds. -/
inductive Exceeds (limits : Limits) (levels depth : Nat) (strings : List Bytes) : Error → Prop where
  | depth (offset : Nat) (h : levels < depth) :
      Exceeds limits levels depth strings (.malformed offset (.tooDeep limits.maxDepth))
  | string (offset : Nat) {s : Bytes} (hs : s ∈ strings) (h : limits.maxStringLength < s.length) :
      Exceeds limits levels depth strings
        (.malformed offset (.stringTooLong s.length limits.maxStringLength))

theorem Exceeds.mono {levels' depth depth' : Nat} {strings strings' : List Bytes} {e : Error}
    (h : Exceeds limits levels depth strings e) (hd : levels < depth → levels' < depth')
    (hs : strings ⊆ strings') : Exceeds limits levels' depth' strings' e := by
  cases h with
  | depth offset h => exact .depth offset (hd h)
  | string offset hm h => exact .string offset (hs hm) h

theorem Exceeds.not_within {w : Value} {e : Error}
    (h : Exceeds limits levels w.depth w.strings e) : ¬ w.Within limits levels := by
  intro hw
  cases h with
  | depth offset h => exact Nat.not_lt.2 hw.depth_le h
  | string offset hm h => exact Nat.not_lt.2 (hw.length_le _ hm) h

/-- Either reading ends at the second cursor with the answer, or a limit was exceeded. -/
def Meets {α : Type} (limits : Limits) (levels depth : Nat) (strings : List Bytes) (a : α)
    (c' : Cursor) (r : Outcome α) : Prop :=
  r = (.ok a, c') ∨ ∃ e c₁, r = (.error e, c₁) ∧ Exceeds limits levels depth strings e

section Meets
variable {α β : Type} {a : α} {r : Outcome α} {depth : Nat} {strings : List Bytes}

theorem Meets.map (f : α → β) (h : Meets limits levels depth strings a c' r) :
    Meets limits levels depth strings (f a) c' (r.map f) := by
  rcases h with rfl | ⟨e, c₁, rfl, he⟩
  · exact .inl rfl
  · exact .inr ⟨e, c₁, rfl, he⟩

theorem Meets.mono {levels' depth' : Nat} {strings' : List Bytes}
    (h : Meets limits levels depth strings a c' r) (hd : levels < depth → levels' < depth')
    (hs : strings ⊆ strings') : Meets limits levels' depth' strings' a c' r := by
  rcases h with rfl | ⟨e, c₁, rfl, he⟩
  · exact .inl rfl
  · exact .inr ⟨e, c₁, rfl, he.mono hd hs⟩

/-- Reading one part after another: each must meet the same limits. -/
theorem Meets.andThen {f : α → Cursor → Outcome β} {b : β} {c₁ : Cursor}
    (h : Meets limits levels depth strings a c₁ r)
    (hf : Meets limits levels depth strings b c' (f a c₁)) :
    Meets limits levels depth strings b c' (r.andThen f) := by
  rcases h with rfl | ⟨e, c₂, rfl, he⟩
  · exact hf
  · exact .inr ⟨e, c₂, rfl, he⟩

end Meets

theorem string_meets {s : Bytes} {strings : List Bytes} {depth : Nat} (hs : s ∈ strings)
    (hlt : s.length < 2 ^ 63) (hp : c.Passes (stringWire s) c') :
    Meets limits levels depth strings s c' (string limits c) := by
  by_cases hmax : s.length ≤ limits.maxStringLength
  · exact .inl (string_eq_ok_iff.2 ⟨⟨hmax, hlt⟩, hp⟩)
  · obtain ⟨c₁, hc⟩ := string_tooLong hlt (Nat.not_le.1 hmax) hp
    exact .inr ⟨_, c₁, hc, .string c₁.offset hs (Nat.not_le.1 hmax)⟩

theorem items_meets {ws : List Value} (hws : (list ws).WellWritten limits.strictKeys)
    (hitem : ∀ {w : Value} {c c' : Cursor}, w.WellWritten limits.strictKeys → c.Passes w.wire c' →
      Meets limits levels w.depth w.strings w.settled c' (item.run c))
    (hp : c.Passes (wireItems ws ++ [Mark.close]) c') :
    Meets limits levels (depthItems ws) (stringsItems ws) (ws.map settled) c' (items item c) := by
  induction ws generalizing c with
  | nil =>
    obtain ⟨hr, hn⟩ := hp.next_of_cons
    rw [items_close hr]
    exact .inl (by rw [(Passes.refl c.next).unique hn]; rfl)
  | cons w ws ih =>
    obtain ⟨hw, hws⟩ := List.forall_mem_cons.1 (wellWritten_list.1 hws)
    rw [wireItems, List.append_assoc] at hp
    obtain ⟨c₁, h₁, h₂⟩ := hp.split
    obtain ⟨b, t, ht, -, hb⟩ := exists_wire_eq_cons hw.holeFree
    have hr : c.rest = b :: (t ++ c₁.rest) := by rw [h₁.1, ht, List.cons_append]
    have hhead : Meets limits levels (depthItems (w :: ws)) (stringsItems (w :: ws)) w.settled c₁
        (item.run c) :=
      (hitem hw h₁).mono (fun h => Nat.lt_of_lt_of_le h (Nat.le_max_left _ _))
        (List.subset_append_left _ _)
    have htail : Meets limits levels (depthItems (w :: ws)) (stringsItems (w :: ws))
        (ws.map settled) c' (items item c₁) :=
      (ih (wellWritten_list.2 hws) h₂).mono (fun h => Nat.lt_of_lt_of_le h (Nat.le_max_right _ _))
        (List.subset_append_right _ _)
    rw [items_cons hr hb]
    exact hhead.andThen (htail.map (w.settled :: ·))

theorem entries_meets (previous : Option Bytes) {es : List (Bytes × Value)}
    (hes : ∀ e ∈ es, e.1.length < 2 ^ 63 ∧ e.2.WellWritten limits.strictKeys)
    (hs : limits.strictKeys = true → (previous.toList ++ es.map Prod.fst).Pairwise (· < ·))
    (hitem : ∀ {w : Value} {c c' : Cursor}, w.WellWritten limits.strictKeys → c.Passes w.wire c' →
      Meets limits levels w.depth w.strings w.settled c' (item.run c))
    (hp : c.Passes (wireEntries es ++ [Mark.close]) c') :
    Meets limits levels (depthEntries es) (stringsEntries es)
      (es.map fun e => (e.1, e.2.settled)) c' (entries limits item previous c) := by
  induction es generalizing previous c with
  | nil =>
    obtain ⟨hr, hn⟩ := hp.next_of_cons
    rw [entries_close hr]
    exact .inl (by rw [(Passes.refl c.next).unique hn]; rfl)
  | cons e es ih =>
    obtain ⟨key, w⟩ := e
    obtain ⟨⟨hlt, hw⟩, hes⟩ := List.forall_mem_cons.1 hes
    rw [wireEntries, List.append_assoc, List.append_assoc] at hp
    obtain ⟨c₁, h₁, h₂⟩ := hp.split
    obtain ⟨c₂, h₂, h₃⟩ := h₂.split
    obtain ⟨b, t, ht, hb⟩ := exists_stringWire_eq_cons key
    have hr : c.rest = b :: (t ++ c₁.rest) := by rw [h₁.1, ht, List.cons_append]
    have ho : orderFault? limits previous key = none := by
      refine orderFault?_eq_none_iff.2 fun hstrict p hp => ?_
      obtain rfl : previous = some p := hp
      exact (List.pairwise_cons.1 (hs hstrict)).1 key List.mem_cons_self
    have hkeys : limits.strictKeys = true →
        ((some key).toList ++ es.map Prod.fst).Pairwise (· < ·) :=
      fun hstrict => (List.pairwise_append.1 (hs hstrict)).2.1
    have hkey : Meets limits levels (depthEntries ((key, w) :: es))
        (stringsEntries ((key, w) :: es)) key c₁ (string limits c) :=
      string_meets List.mem_cons_self hlt h₁
    have hhead : Meets limits levels (depthEntries ((key, w) :: es))
        (stringsEntries ((key, w) :: es)) w.settled c₂ (item.run c₁) :=
      (hitem hw h₂).mono (fun h => Nat.lt_of_lt_of_le h (Nat.le_max_left _ _))
        fun s hs => by simp [stringsEntries, hs]
    have htail : Meets limits levels (depthEntries ((key, w) :: es))
        (stringsEntries ((key, w) :: es)) (es.map fun e => (e.1, e.2.settled)) c'
        (entries limits item (some key) c₂) :=
      (ih (some key) hes hkeys h₃).mono (fun h => Nat.lt_of_lt_of_le h (Nat.le_max_right _ _))
        fun s hs => by simp [stringsEntries, hs]
    rw [entries_cons hr (ne_of_isDigit hb rfl) (by simp [isNumberByte, hb])]
    refine hkey.andThen ?_
    rw [ho, Option.elim_none, entriesAfter]
    exact hhead.andThen (htail.map ((key, w.settled) :: ·))

/-- The reader gives back what a well-written tree stands for, or names a limit that it exceeds. -/
theorem tree_meets (levels : Nat) {w : Value} (hw : w.WellWritten limits.strictKeys)
    (hp : c.Passes w.wire c') :
    Meets limits levels w.depth w.strings w.settled c' ((tree limits levels).run c) := by
  induction levels generalizing w c c' with
  | zero => exact .inr ⟨_, c, rfl, .depth c.offset w.depth_pos⟩
  | succ levels ih =>
    change Meets _ _ _ _ _ _ (value limits (tree limits levels) c)
    cases w with
    | integer n =>
      rw [wire] at hp
      obtain ⟨hr, hn⟩ := hp.next_of_cons
      rw [value_cons hr, if_pos rfl]
      exact .inl (integer_eq_ok_iff.2 ⟨n, rfl, hn⟩)
    | bytes b =>
      rw [wire] at hp
      obtain ⟨d, t, ht, hd⟩ := exists_stringWire_eq_cons b
      have hr : c.rest = d :: (t ++ c'.rest) := by rw [hp.1, ht, List.cons_append]
      rw [value_digit hr hd]
      exact (string_meets List.mem_cons_self (hw.length_lt b List.mem_cons_self) hp).map Value.bytes
    | list ws =>
      rw [wire] at hp
      obtain ⟨hr, hn⟩ := hp.next_of_cons
      rw [value_cons hr, if_neg (by decide), if_pos rfl, settled_list, depth, strings]
      exact ((items_meets hw ih hn).mono Nat.succ_lt_succ (List.Subset.refl _)).map Value.list
    | dict es =>
      rw [wire] at hp
      obtain ⟨hr, hn⟩ := hp.next_of_cons
      obtain ⟨hs, hes⟩ := wellWritten_dict.1 hw
      rw [value_cons hr, if_neg (by decide), if_neg (by decide), if_pos rfl, settled_dict, depth,
        strings]
      exact ((entries_meets none hes hs ih hn).mono Nat.succ_lt_succ (List.Subset.refl _)).map
        Value.ofEntries
    | hole => exact hw.holeFree.elim

theorem tree_eq_ok_iff {v : Value} :
    (tree limits levels).run c = (.ok v, c') ↔ Written limits levels v c c' := by
  refine ⟨tree_written, ?_⟩
  rintro ⟨w, hw, hl, rfl, hp⟩
  rcases tree_meets levels hw hp with h | ⟨e, c₁, -, he⟩
  · exact h
  · exact absurd hl he.not_within

/-- A document is a tree and then the end. -/
theorem document_eq_ok_iff {v : Value} :
    document limits c = (.ok v, c') ↔ Written limits limits.maxDepth v c c' ∧ c'.rest = [] := by
  rw [document, Outcome.andThen_eq_ok]
  constructor
  · rintro ⟨u, c₁, hu, hend⟩
    split at hend
    · next he =>
      cases hend
      exact ⟨tree_written hu, List.isEmpty_iff.1 he⟩
    · cases hend
  · rintro ⟨hw, hend⟩
    refine ⟨v, c', tree_eq_ok_iff.2 hw, ?_⟩
    rw [hend, List.isEmpty_nil, if_pos rfl]

end Bencode.Reader

namespace Bencode
open Value Reader

variable {limits : Limits} {b : Bytes} {v : Value}

theorem decode_eq_ok_iff : decode b limits = .ok v ↔
    ∃ w : Value, w.WellWritten limits.strictKeys ∧ w.Within limits limits.maxDepth ∧ w.settled = v ∧
      w.wire = b := by
  constructor
  · intro h
    obtain ⟨⟨w, hw, hl, hv, hp⟩, hend⟩ := document_eq_ok_iff.1 (Prod.ext h rfl)
    refine ⟨w, hw, hl, hv, ?_⟩
    have hb : b = w.wire ++ _ := hp.1
    rw [hb, hend, List.append_nil]
  · rintro ⟨w, hw, hl, hv, rfl⟩
    have hp := Cursor.passes_append 0 w.wire []
    rw [List.append_nil] at hp
    exact congrArg Prod.fst (document_eq_ok_iff.2 ⟨⟨w, hw, hl, hv, hp⟩, rfl⟩)

/-- Decoding the wire form of a well-written tree succeeds or names a limit that the tree exceeds. -/
theorem decode_wire_of_wellWritten {w : Value} (hw : w.WellWritten limits.strictKeys) :
    decode w.wire limits = .ok w.settled ∨
      ∃ e, decode w.wire limits = .error e ∧ Exceeds limits limits.maxDepth w.depth w.strings e := by
  have hp := Cursor.passes_append 0 w.wire []
  rw [List.append_nil] at hp
  rw [decode, document, Cursor.ofBytes]
  rcases tree_meets limits.maxDepth hw hp with h | ⟨e, c, h, he⟩
  · exact .inl (by rw [h]; rfl)
  · exact .inr ⟨e, by rw [h]; rfl, he⟩

end Bencode
