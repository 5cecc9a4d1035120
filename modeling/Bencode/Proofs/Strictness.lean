import Bencode.Proofs.RoundTrip

/-! # What strict keys change

The strict and the lax run on one input coincide until a key breaks the order. There the strict run
ends, while the lax one goes on and never reports a key. `Relaxes` is that relation between two
outcomes; each reader preserves it if the readers it calls do.
-/
namespace Bencode

def Limits.strict (limits : Limits) : Limits := { limits with strictKeys := true }

def Limits.lax (limits : Limits) : Limits := { limits with strictKeys := false }

/-- A key that is not above the one before it. -/
def Fault.isKeyFault : Fault → Bool
  | .keyOrder _ | .duplicateKey _ => true
  | _ => false

def Error.isKeyFault : Error → Bool
  | .malformed _ fault => fault.isKeyFault
  | _ => false

def Outcome.isKeyFault {α : Type} (r : Outcome α) : Bool :=
  match r.1 with
  | .error e => e.isKeyFault
  | .ok _ => false

/-- The lax run ends as the strict one, or goes on where that one stopped at a key. -/
structure Relaxes {α : Type} (strict lax : Outcome α) : Prop where
  isKeyFault_eq_false : lax.isKeyFault = false
  eq_or_reaches : lax = strict ∨ strict.isKeyFault = true ∧ strict.2.Reaches lax.2

namespace Outcome
variable {α β : Type} {r : Outcome α} {f : α → Cursor → Outcome β}

theorem isKeyFault_map (f : α → β) (r : Outcome α) : (r.map f).isKeyFault = r.isKeyFault := by
  obtain ⟨_ | a, c⟩ := r <;> rfl

theorem isKeyFault_andThen (hr : r.isKeyFault = false)
    (hf : ∀ a c, (f a c).isKeyFault = false) : (r.andThen f).isKeyFault = false := by
  obtain ⟨_ | a, c⟩ := r
  · exact hr
  · exact hf a c

theorem exists_error_of_isKeyFault (h : r.isKeyFault = true) : ∃ e c, r = (.error e, c) := by
  obtain ⟨e | a, c⟩ := r
  · exact ⟨e, c, rfl⟩
  · exact absurd h Bool.false_ne_true

end Outcome

namespace Relaxes
variable {α β : Type} {r s : Outcome α} {f g : α → Cursor → Outcome β}

theorem refl (h : r.isKeyFault = false) : Relaxes r r := ⟨h, .inl rfl⟩

theorem map (f : α → β) (h : Relaxes r s) : Relaxes (r.map f) (s.map f) := by
  refine ⟨by rw [Outcome.isKeyFault_map, h.isKeyFault_eq_false], ?_⟩
  rcases h.eq_or_reaches with rfl | ⟨hk, hr⟩
  · exact .inl rfl
  · exact .inr ⟨by rw [Outcome.isKeyFault_map, hk], hr⟩

/-- Once the strict run has stopped, the lax continuation need only stay clear of key faults and not
go back. -/
theorem andThen (h : Relaxes r s) (hf : ∀ a c, s = (.ok a, c) → Relaxes (f a c) (g a c))
    (hg : ∀ a c, s = (.ok a, c) → c.Reaches (g a c).2) :
    Relaxes (r.andThen f) (s.andThen g) := by
  obtain ⟨e | a, c⟩ := s
  · refine ⟨h.isKeyFault_eq_false, ?_⟩
    rcases h.eq_or_reaches with rfl | ⟨hk, hr⟩
    · exact .inl rfl
    · obtain ⟨e', c', rfl⟩ := Outcome.exists_error_of_isKeyFault hk
      exact .inr ⟨hk, hr⟩
  · have hfg := hf a c rfl
    rcases h.eq_or_reaches with rfl | ⟨hk, hr⟩
    · exact hfg
    · obtain ⟨e', c', rfl⟩ := Outcome.exists_error_of_isKeyFault hk
      exact ⟨hfg.isKeyFault_eq_false, .inr ⟨hk, hr.trans (hg a c rfl)⟩⟩

end Relaxes

namespace Reader
open Outcome

variable {limits : Limits} {item item' : Reader Value}

theorem isKeyFault_collect (terminator : UInt8) (text : Bytes) (offset : Nat) (rest : Bytes) :
    (collect terminator text offset rest).isKeyFault = false := by
  fun_induction collect terminator text offset rest with
  | case1 => rfl
  | case2 => rfl
  | case3 => rfl
  | case4 => rfl
  | case5 text offset b rest _ _ _ ih => exact ih

theorem isKeyFault_of_spellingFault? {negative : Bool} {digits : Bytes} {fault : Fault}
    (h : spellingFault? negative digits = some fault) : fault.isKeyFault = false := by
  unfold spellingFault? at h
  split at h
  · cases h
    rfl
  · split at h
    · split at h
      · cases h
        rfl
      · split at h <;> cases h
        rfl
    · cases h

theorem isKeyFault_number (terminator : UInt8) (c : Cursor) :
    (number terminator c).isKeyFault = false := by
  refine isKeyFault_andThen (isKeyFault_collect _ _ _ _) fun text c' => ?_
  unfold numberOf isKeyFault
  dsimp only
  split
  · next he =>
    split at he
    · next hf =>
      cases he
      exact isKeyFault_of_spellingFault? hf
    · split at he <;> cases he
      rfl
  · rfl

theorem isKeyFault_integer (c : Cursor) : (integer c).isKeyFault = false :=
  isKeyFault_andThen (isKeyFault_number _ _) fun _ _ => rfl

theorem isKeyFault_take (c : Cursor) (n : Nat) : (c.take n).isKeyFault = false := by
  unfold Cursor.take
  dsimp only
  split <;> rfl

theorem isKeyFault_string (limits : Limits) (c : Cursor) :
    (string limits c).isKeyFault = false := by
  refine isKeyFault_andThen (isKeyFault_number _ _) fun n c' => ?_
  split
  · rfl
  · split
    · rfl
    · exact isKeyFault_take _ _

/-- Byte strings are read alike: their reader does not look at the keys. -/
theorem string_lax (limits : Limits) (c : Cursor) :
    string limits.lax c = string limits.strict c := rfl

theorem orderFault?_lax (limits : Limits) (previous : Option Bytes) (key : Bytes) :
    orderFault? limits.lax previous key = none :=
  orderFault?_eq_none_iff.2 fun hs => absurd hs Bool.false_ne_true

theorem isKeyFault_of_orderFault? {previous : Option Bytes} {key : Bytes} {fault : Fault}
    (h : orderFault? limits previous key = some fault) : fault.isKeyFault = true := by
  unfold orderFault? at h
  split at h
  · cases h
  · split at h
    · cases h
    · split at h <;> cases h <;> rfl

theorem items_relaxes (hitem : ∀ c, Relaxes (item.run c) (item'.run c))
    (hreach : ∀ c : Cursor, c.Reaches (item'.run c).2) (c : Cursor) :
    Relaxes (items item c) (items item' c) := by
  induction c using items_induction item' with
  | nil c hr =>
    rw [items_nil hr, items_nil hr]
    exact .refl rfl
  | close c rest hr =>
    rw [items_close hr, items_close hr]
    exact .refl rfl
  | cons c b rest hr hb ih =>
    rw [items_cons hr hb, items_cons hr hb]
    refine (hitem c).andThen (fun v c₁ hv => ?_) fun v c₁ _ => reaches_items hreach c₁
    exact (ih v c₁ hv).map _

/-- The key before does not matter: the lax run never looks at it, and a key that offends the strict
one is all the relation asks for. -/
theorem entries_relaxes (hitem : ∀ c, Relaxes (item.run c) (item'.run c))
    (hreach : ∀ c : Cursor, c.Reaches (item'.run c).2) (previous : Option Bytes) (c : Cursor) :
    Relaxes (entries limits.strict item previous c) (entries limits.lax item' previous c) := by
  induction previous, c using entries_induction limits.lax item' with
  | nil previous c hr =>
    rw [entries_nil hr, entries_nil hr]
    exact .refl rfl
  | close previous c rest hr =>
    rw [entries_close hr, entries_close hr]
    exact .refl rfl
  | invalid previous c b rest hr hb hd =>
    rw [entries_invalid hr hb hd, entries_invalid hr hb hd]
    exact .refl rfl
  | cons previous c b rest hr hb hd ih =>
    rw [entries_cons hr hb hd, entries_cons hr hb hd, string_lax]
    simp only [orderFault?_lax, Option.elim_none]
    have hkey : Relaxes (string limits.strict c) (string limits.strict c) :=
      .refl (isKeyFault_string limits.strict c)
    refine hkey.andThen (fun key c₁ hk => ?_) fun key c₁ _ => reaches_entriesAfter hreach key c₁
    have hafter : Relaxes (entriesAfter limits.strict item key c₁)
        (entriesAfter limits.lax item' key c₁) := by
      refine (hitem c₁).andThen (fun v c₂ hv => ?_)
        fun v c₂ _ => reaches_entries hreach (some key) c₂
      exact (ih key c₁ v c₂ hk hv).map _
    cases ho : orderFault? limits.strict previous key with
    | none => exact hafter
    | some fault =>
      have hgoes : c₁.Reaches (entriesAfter limits.lax item' key c₁).2 :=
        reaches_entriesAfter hreach key c₁
      exact ⟨hafter.isKeyFault_eq_false, .inr ⟨isKeyFault_of_orderFault? ho, hgoes⟩⟩

theorem value_relaxes (hitem : ∀ c, Relaxes (item.run c) (item'.run c))
    (hreach : ∀ c : Cursor, c.Reaches (item'.run c).2) (c : Cursor) :
    Relaxes (value limits.strict item c) (value limits.lax item' c) := by
  cases hr : c.rest with
  | nil =>
    rw [value_nil hr, value_nil hr]
    exact .refl rfl
  | cons b rest =>
    rw [value_cons hr, value_cons hr, string_lax]
    split
    · exact .refl (isKeyFault_integer c)
    · split
      · exact (items_relaxes hitem hreach _).map _
      · split
        · exact (entries_relaxes hitem hreach none _).map _
        · split
          · exact .map _ (.refl (isKeyFault_string limits.strict c))
          · exact .refl rfl

theorem tree_relaxes (limits : Limits) (levels : Nat) (c : Cursor) :
    Relaxes ((tree limits.strict levels).run c) ((tree limits.lax levels).run c) := by
  induction levels generalizing c with
  | zero => exact .refl rfl
  | succ levels ih => exact value_relaxes ih (reaches_tree limits.lax levels) c

theorem document_relaxes (limits : Limits) (c : Cursor) :
    Relaxes (document limits.strict c) (document limits.lax c) := by
  refine (tree_relaxes limits limits.maxDepth c).andThen (fun v c₁ _ => ?_) fun v c₁ _ => ?_
  · split <;> exact .refl rfl
  · split <;> exact .refl c₁

end Reader

open Reader

/-- Strict keys change nothing but the answer to a key out of order. If the strict run reports none,
the lax run ends with the same answer at the same cursor. If it reports one, the lax run gets at least
as far and reports none. What strict decoding accepts is what lax decoding accepts and encoding would
write just so. -/
theorem document_lax_eq_strict_unless_keyFault (b : Bytes) (limits : Limits) :
    let strict := document limits.strict (Cursor.ofBytes b)
    let lax := document limits.lax (Cursor.ofBytes b)
    (strict.isKeyFault = false → lax = strict) ∧
      (strict.isKeyFault = true → lax.isKeyFault = false ∧ strict.2.offset ≤ lax.2.offset) ∧
      ∀ v, decode b limits.strict = .ok v ↔ decode b limits.lax = .ok v ∧ encode v = .ok b := by
  intro strict lax
  have h : Relaxes strict lax := document_relaxes limits (Cursor.ofBytes b)
  have heq (hs : strict.isKeyFault = false) : lax = strict := by
    rcases h.eq_or_reaches with he | ⟨hk, -⟩
    · exact he
    · exact absurd (hs.symm.trans hk) Bool.false_ne_true
  refine ⟨heq, fun hs => ⟨h.isKeyFault_eq_false, ?_⟩, fun v => ⟨fun hv => ?_, fun ⟨hv, hb⟩ => ?_⟩⟩
  · rcases h.eq_or_reaches with he | ⟨-, hr⟩
    · exact he ▸ Nat.le_refl _
    · exact hr.offset_le
  · have hs : strict.1 = .ok v := hv
    have hl : lax = strict := heq (by rw [Outcome.isKeyFault, hs])
    exact ⟨(congrArg Prod.fst hl).trans hv, encode_eq_ok_iff.2 (wire_of_decode rfl hv)⟩
  · obtain ⟨hw, hd, hl⟩ := wellWritten_of_decode hv
    rw [← (encode_eq_ok_iff.1 hb).2]
    exact decode_wire_of_within hw ⟨hd, hl⟩

/-- In `d1:bi1e1:ai2ee` the strict run stops behind the second key, which begins at 7, and the lax one reads
on to the end and sorts the keys. In `li01e` both stop behind the leading zero. -/
theorem document_lax_eq_strict_unless_keyFault_swapped :
    let b : Bytes := [100, 49, 58, 98, 105, 49, 101, 49, 58, 97, 105, 50, 101, 101]
    let strict := document (Limits.strict ⟨2, 1, true⟩) (.ofBytes b)
    let lax := document (Limits.lax ⟨2, 1, true⟩) (.ofBytes b)
    strict = (.error (.malformed 7 (.keyOrder [97])), ⟨10, [105, 50, 101, 101]⟩) ∧
      lax = (.ok (.dict [([97], .integer 2), ([98], .integer 1)]), ⟨14, []⟩) ∧
      lax.isKeyFault = false ∧ strict.2.offset ≤ lax.2.offset ∧
      document (Limits.lax ⟨2, 1, true⟩) (.ofBytes [108, 105, 48, 49, 101]) =
        document (Limits.strict ⟨2, 1, true⟩) (.ofBytes [108, 105, 48, 49, 101]) := by
  intro b strict lax
  have hstrict : strict = (.error (.malformed 7 (.keyOrder [97])), ⟨10, [105, 50, 101, 101]⟩) := by
    decide +kernel
  have hlax : lax = (.ok (.dict [([97], .integer 2), ([98], .integer 1)]), ⟨14, []⟩) := by
    decide +kernel
  have hkey : strict.isKeyFault = true := hstrict ▸ rfl
  obtain ⟨hnone, hoffset⟩ := (document_lax_eq_strict_unless_keyFault b ⟨2, 1, true⟩).2.1 hkey
  refine ⟨hstrict, hlax, hnone, hoffset, ?_⟩
  exact (document_lax_eq_strict_unless_keyFault _ ⟨2, 1, true⟩).1 (by decide +kernel)

end Bencode
