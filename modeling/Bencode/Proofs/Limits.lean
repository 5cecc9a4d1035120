import Bencode.Input
import Bencode.Proofs.Reader.Tree

/-! # What limits change

Under smaller limits an input is read as under larger ones, up to the first value that nests too deep
or byte string that is too long. There the run under the smaller limits ends with an error that names
the limit, and the other run gets at least as far. `CutsOff` is that relation between two outcomes; each
reader preserves it if the readers it calls do.
-/
namespace Bencode
open Cursor

/-- The first limits allow no more than the second, and both treat keys alike. -/
structure Limits.Tightens (tight loose : Limits) : Prop where
  maxDepth_le : tight.maxDepth ≤ loose.maxDepth
  maxStringLength_le : tight.maxStringLength ≤ loose.maxStringLength
  strictKeys_eq : tight.strictKeys = loose.strictKeys

/-- The error names a limit that is exceeded at the cursor. -/
inductive LimitReached (limits : Limits) (c : Cursor) : Error → Prop where
  | depth : LimitReached limits c (.malformed c.offset (.tooDeep limits.maxDepth))
  | length {n : Nat} (h : limits.maxStringLength < n) :
      LimitReached limits c (.malformed c.offset (.stringTooLong n limits.maxStringLength))

/-- The first run ends as the second, or a limit stops it where the second one goes on. -/
def CutsOff {α : Type} (limits : Limits) (r r' : Outcome α) : Prop :=
  r = r' ∨ ∃ e c, r = (.error e, c) ∧ LimitReached limits c e ∧ c.Reaches r'.2

namespace CutsOff
variable {α β : Type} {limits : Limits} {r r' : Outcome α} {f g : α → Cursor → Outcome β}

theorem refl (r : Outcome α) : CutsOff limits r r := .inl rfl

theorem map (f : α → β) (h : CutsOff limits r r') : CutsOff limits (r.map f) (r'.map f) := by
  rcases h with rfl | ⟨e, c, rfl, he, hc⟩
  · exact .refl _
  · exact .inr ⟨e, c, rfl, he, hc⟩

/-- Once a limit has stopped the first run, the second one need only not go back. -/
theorem andThen (h : CutsOff limits r r')
    (hf : ∀ a c, r' = (.ok a, c) → CutsOff limits (f a c) (g a c))
    (hg : ∀ a c, r' = (.ok a, c) → c.Reaches (g a c).2) :
    CutsOff limits (r.andThen f) (r'.andThen g) := by
  rcases h with rfl | ⟨e, c, rfl, he, hc⟩
  · obtain ⟨e | a, c⟩ := r
    · exact .refl _
    · exact hf a c rfl
  · exact .inr ⟨e, c, rfl, he, Outcome.reaches_andThen hc hg⟩

end CutsOff

namespace Reader

variable {tight loose : Limits} {item item' : Reader Value}

theorem orderFault?_congr (h : tight.strictKeys = loose.strictKeys) (previous : Option Bytes)
    (key : Bytes) : orderFault? tight previous key = orderFault? loose previous key := by
  unfold orderFault?
  rw [h]

theorem string_cutsOff (h : tight.Tightens loose) (c : Cursor) :
    CutsOff tight (string tight c) (string loose c) := by
  rw [string_eq_andThen, string_eq_andThen]
  have hnumber : CutsOff tight (number Mark.colon c) (number Mark.colon c) := .refl _
  refine hnumber.andThen (fun n c₁ _ => ?_) fun n c₁ _ => reaches_body loose n c₁
  by_cases hneg : n.toInt < 0
  · have heq : body tight n c₁ = body loose n c₁ := by
      rw [body, body, if_pos hneg, if_pos hneg]
    exact .inl heq
  by_cases hlong : tight.maxStringLength < n.toInt.toNat
  · have hstop : body tight n c₁ =
        c₁.fail (.stringTooLong n.toInt.toNat tight.maxStringLength) := by
      rw [body, if_neg hneg, if_pos hlong]
    exact .inr ⟨_, c₁, hstop, .length hlong, reaches_body loose n c₁⟩
  · have hfits : ¬ loose.maxStringLength < n.toInt.toNat := by
      have hle := h.maxStringLength_le
      omega
    have heq : body tight n c₁ = body loose n c₁ := by
      rw [body, body, if_neg hneg, if_neg hneg, if_neg hlong, if_neg hfits]
    exact .inl heq

theorem items_cutsOff (hitem : ∀ c, CutsOff tight (item.run c) (item'.run c))
    (hreach : ∀ c : Cursor, c.Reaches (item'.run c).2) (c : Cursor) :
    CutsOff tight (items item c) (items item' c) := by
  induction c using items_induction item' with
  | nil c hr =>
    rw [items_nil hr, items_nil hr]
    exact .refl _
  | close c rest hr =>
    rw [items_close hr, items_close hr]
    exact .refl _
  | cons c b rest hr hb ih =>
    rw [items_cons hr hb, items_cons hr hb]
    refine (hitem c).andThen (fun v c₁ hv => ?_) fun v c₁ _ => reaches_items hreach c₁
    exact (ih v c₁ hv).map _

theorem entries_cutsOff (h : tight.Tightens loose)
    (hitem : ∀ c, CutsOff tight (item.run c) (item'.run c))
    (hreach : ∀ c : Cursor, c.Reaches (item'.run c).2) (previous : Option Bytes) (c : Cursor) :
    CutsOff tight (entries tight item previous c) (entries loose item' previous c) := by
  induction previous, c using entries_induction loose item' with
  | nil previous c hr =>
    rw [entries_nil hr, entries_nil hr]
    exact .refl _
  | close previous c rest hr =>
    rw [entries_close hr, entries_close hr]
    exact .refl _
  | invalid previous c b rest hr hb hd =>
    rw [entries_invalid hr hb hd, entries_invalid hr hb hd]
    exact .refl _
  | cons previous c b rest hr hb hd ih =>
    rw [entries_cons hr hb hd, entries_cons hr hb hd]
    have horder (key : Bytes) := orderFault?_congr h.strictKeys_eq previous key
    simp only [horder]
    refine (string_cutsOff h c).andThen (fun key c₁ hk => ?_) fun key c₁ _ => ?_
    · cases orderFault? loose previous key with
      | some fault => exact .refl _
      | none =>
        have hrest (v : Value) (c₂ : Cursor) : c₂.Reaches (entries loose item' (some key) c₂).2 :=
          reaches_entries hreach (some key) c₂
        refine (hitem c₁).andThen (fun v c₂ hv => ?_) fun v c₂ _ => hrest v c₂
        exact (ih key c₁ v c₂ hk hv).map _
    · cases orderFault? loose previous key with
      | some fault => exact .refl c₁
      | none => exact reaches_entriesAfter hreach key c₁

theorem value_cutsOff (h : tight.Tightens loose)
    (hitem : ∀ c, CutsOff tight (item.run c) (item'.run c))
    (hreach : ∀ c : Cursor, c.Reaches (item'.run c).2) (c : Cursor) :
    CutsOff tight (value tight item c) (value loose item' c) := by
  cases hr : c.rest with
  | nil =>
    rw [value_nil hr, value_nil hr]
    exact .refl _
  | cons b rest =>
    rw [value_cons hr, value_cons hr]
    split
    · exact .refl _
    · split
      · exact (items_cutsOff hitem hreach _).map _
      · split
        · exact (entries_cutsOff h hitem hreach none _).map _
        · split
          · exact (string_cutsOff h c).map _
          · exact .refl _

/-- Where the first run has no level left it stops, whatever the second one may still open. -/
theorem tree_cutsOff (h : tight.Tightens loose) {levels levels' : Nat} (hle : levels ≤ levels')
    (c : Cursor) : CutsOff tight ((tree tight levels).run c) ((tree loose levels').run c) := by
  induction levels generalizing levels' c with
  | zero => exact .inr ⟨_, c, rfl, .depth, reaches_tree loose levels' c⟩
  | succ levels ih =>
    obtain ⟨k, rfl⟩ := Nat.exists_eq_add_of_lt hle
    have hk : levels ≤ levels + k := Nat.le_add_right levels k
    exact value_cutsOff h (ih hk) (reaches_tree loose (levels + k)) c

theorem document_cutsOff (h : tight.Tightens loose) (c : Cursor) :
    CutsOff tight (document tight c) (document loose c) := by
  refine (tree_cutsOff h h.maxDepth_le c).andThen (fun v c₁ _ => ?_) fun v c₁ _ => ?_
  · split <;> exact .refl _
  · split <;> exact .refl c₁

end Reader

open Reader

/-- Limits only cut off. Wherever reading starts, under smaller limits it has the outcome that it has
under larger ones, or it stops with an error that names a limit, no further on than the other run gets.
So what is accepted under smaller limits is accepted under larger ones, with the same answer. -/
theorem decode_eq_or_limit_reached {tight loose : Limits} (hdepth : tight.maxDepth ≤ loose.maxDepth)
    (hlength : tight.maxStringLength ≤ loose.maxStringLength)
    (hkeys : tight.strictKeys = loose.strictKeys) (s : Input) :
    (s.decode tight = s.decode loose ∨
      ∃ offset fault s', s.decode tight = (.error (.malformed offset fault), s') ∧
        (fault = .tooDeep tight.maxDepth ∨
          ∃ n, tight.maxStringLength < n ∧ fault = .stringTooLong n tight.maxStringLength) ∧
        offset = s'.position ∧ offset ≤ (s.decode loose).2.position) ∧
    ∀ b v, decode b tight = .ok v → decode b loose = .ok v := by
  have htight : tight.Tightens loose := ⟨hdepth, hlength, hkeys⟩
  constructor
  · rcases document_cutsOff htight s.cursor with heq | ⟨e, c, hr, he, hc⟩
    · left
      unfold Input.decode Input.read
      rw [heq]
    · right
      have hrun : s.decode tight = (.error e, { s with position := c.offset }) := by
        unfold Input.decode Input.read
        rw [hr]
      have hle : c.offset ≤ (s.decode loose).2.position := hc.offset_le
      cases he with
      | depth => exact ⟨_, _, _, hrun, .inl rfl, rfl, hle⟩
      | length hn => exact ⟨_, _, _, hrun, .inr ⟨_, hn, rfl⟩, rfl, hle⟩
  · intro b v hv
    rcases document_cutsOff htight (.ofBytes b) with heq | ⟨e, c, hr, -, -⟩
    · unfold decode at hv ⊢
      rwa [← heq]
    · unfold decode at hv
      rw [hr] at hv
      cases hv

/-- The list `l3:abci1ee` is read within two levels and three bytes a string, so also within more.
Within one level reading stops at the first item, no further on than within three. -/
theorem decode_eq_or_limit_reached_list :
    decode [108, 51, 58, 97, 98, 99, 105, 49, 101, 101] ⟨3, 4, true⟩ =
        .ok (.list [.bytes [97, 98, 99], .integer 1]) ∧
      ∃ offset fault s', Input.decode ⟨[108, 51, 58, 97, 98, 99, 105, 49, 101, 101], 0⟩ ⟨1, 3, true⟩ =
          (.error (.malformed offset fault), s') ∧
        (fault = .tooDeep 1 ∨ ∃ n, 3 < n ∧ fault = .stringTooLong n 3) ∧ offset = s'.position ∧
        offset ≤ (Input.decode ⟨[108, 51, 58, 97, 98, 99, 105, 49, 101, 101], 0⟩
          ⟨3, 4, true⟩).2.position := by
  have haccepted : decode [108, 51, 58, 97, 98, 99, 105, 49, 101, 101] ⟨2, 3, true⟩ =
      .ok (.list [.bytes [97, 98, 99], .integer 1]) := by decide +kernel
  have hmore := (@decode_eq_or_limit_reached ⟨2, 3, true⟩ ⟨3, 4, true⟩ (by decide) (by decide) rfl
    ⟨[108, 51, 58, 97, 98, 99, 105, 49, 101, 101], 0⟩).2
  have hless := (@decode_eq_or_limit_reached ⟨1, 3, true⟩ ⟨3, 4, true⟩ (by decide) (by decide) rfl
    ⟨[108, 51, 58, 97, 98, 99, 105, 49, 101, 101], 0⟩).1
  exact ⟨hmore _ _ haccepted, hless.resolve_left (by decide +kernel)⟩

end Bencode
