import Bencode.Cursor

/-! # The text between two cursors

`Passes` fixes both ends and the bytes between them, so that what a chain of readers consumes is the
concatenation of what each consumes. `Reaches` forgets the bytes: a cursor only ever moves forward.
-/
namespace Bencode

namespace Cursor

variable {c c₁ c₂ : Cursor} {s t : Bytes}

/-- The bytes from one cursor up to another. -/
def Passes (c : Cursor) (text : Bytes) (c' : Cursor) : Prop :=
  c.rest = text ++ c'.rest ∧ c'.offset = c.offset + text.length

/-- The second cursor stands at the first or behind it on the same input. -/
def Reaches (c c' : Cursor) : Prop := ∃ text, c.Passes text c'

theorem passes_append (offset : Nat) (text rest : Bytes) :
    Passes ⟨offset, text ++ rest⟩ text ⟨offset + text.length, rest⟩ := ⟨rfl, rfl⟩

theorem Passes.refl (c : Cursor) : c.Passes [] c := ⟨rfl, rfl⟩

theorem Passes.trans (h₁ : c.Passes s c₁) (h₂ : c₁.Passes t c₂) : c.Passes (s ++ t) c₂ := by
  refine ⟨by rw [h₁.1, h₂.1, List.append_assoc], ?_⟩
  rw [h₂.2, h₁.2, List.length_append, Nat.add_assoc]

theorem passes_next {b : UInt8} {rest : Bytes} (h : c.rest = b :: rest) : c.Passes [b] c.next := by
  obtain ⟨offset, _⟩ := c
  subst h
  exact ⟨rfl, rfl⟩

theorem Passes.cons {b : UInt8} {rest : Bytes} (h : c.rest = b :: rest)
    (h₁ : c.next.Passes t c₁) : c.Passes (b :: t) c₁ := (passes_next h).trans h₁

/-- A text determines where it ends. -/
theorem Passes.unique (h₁ : c.Passes t c₁) (h₂ : c.Passes t c₂) : c₁ = c₂ := by
  obtain ⟨o₁, r₁⟩ := c₁
  obtain ⟨o₂, r₂⟩ := c₂
  obtain rfl : r₁ = r₂ := List.append_cancel_left (h₁.1.symm.trans h₂.1)
  obtain rfl : o₁ = o₂ := h₁.2.trans h₂.2.symm
  rfl

/-- A part of a text ends somewhere before the whole. -/
theorem Passes.split (h : c.Passes (s ++ t) c₂) : ∃ c₁, c.Passes s c₁ ∧ c₁.Passes t c₂ := by
  refine ⟨⟨c.offset + s.length, t ++ c₂.rest⟩, ⟨by rw [h.1, List.append_assoc], rfl⟩, rfl, ?_⟩
  rw [h.2, List.length_append, Nat.add_assoc]

theorem Passes.next_of_cons {b : UInt8} (h : c.Passes (b :: t) c₂) :
    c.rest = b :: (t ++ c₂.rest) ∧ c.next.Passes t c₂ := by
  have hr : c.rest = b :: (t ++ c₂.rest) := h.1
  obtain ⟨c₁, hb, ht⟩ := Passes.split (s := [b]) h
  exact ⟨hr, hb.unique (passes_next hr) ▸ ht⟩

theorem Passes.length_lt {b : UInt8} (h : c.Passes (b :: t) c₁) : c₁.rest.length < c.rest.length := by
  rw [h.1, List.length_append, List.length_cons]
  omega

theorem Passes.reaches (h : c.Passes t c₁) : c.Reaches c₁ := ⟨t, h⟩

theorem Reaches.refl (c : Cursor) : c.Reaches c := ⟨[], .refl c⟩

theorem Reaches.trans (h₁ : c.Reaches c₁) (h₂ : c₁.Reaches c₂) : c.Reaches c₂ := by
  obtain ⟨s, hs⟩ := h₁
  obtain ⟨t, ht⟩ := h₂
  exact ⟨s ++ t, hs.trans ht⟩

theorem Reaches.offset_le (h : c.Reaches c₁) : c.offset ≤ c₁.offset := by
  obtain ⟨t, ht⟩ := h
  exact ht.2 ▸ Nat.le_add_right _ _

/-- Wherever a cursor moves, what lies before it and what follows make up the whole input. -/
theorem Reaches.length_rest (h : c.Reaches c₁) :
    c.offset + c.rest.length = c₁.offset + c₁.rest.length := by
  obtain ⟨t, hr, ho⟩ := h
  rw [hr, ho, List.length_append, Nat.add_assoc]

theorem reaches_next (c : Cursor) : c.Reaches c.next := by
  obtain ⟨offset, _ | ⟨b, rest⟩⟩ := c
  · exact .refl _
  · exact (passes_next rfl).reaches

theorem take_eq_ok_iff {n : Nat} {b : Bytes} :
    c.take n = (.ok b, c₁) ↔ b.length = n ∧ c.Passes b c₁ := by
  constructor
  · intro h
    by_cases hn : n ≤ c.rest.length
    · rw [take_of_le hn, Prod.mk.injEq, Except.ok.injEq] at h
      obtain ⟨rfl, rfl⟩ := h
      have hl : (c.rest.take n).length = n := List.length_take_of_le hn
      exact ⟨hl, (List.take_append_drop n c.rest).symm, by rw [hl]; rfl⟩
    · rw [take_of_lt (by omega)] at h
      simp at h
  · rintro ⟨rfl, h⟩
    obtain ⟨o₁, r₁⟩ := c₁
    obtain ⟨hr, ho⟩ := h
    dsimp only at hr ho
    rw [take_of_le (by rw [hr, List.length_append]; omega), advance, ho, hr]
    simp

theorem reaches_take (c : Cursor) (n : Nat) : c.Reaches (c.take n).2 := by
  by_cases hn : n ≤ c.rest.length
  · rw [take_of_le hn]
    exact (take_eq_ok_iff.1 (take_of_le hn)).2.reaches
  · rw [take_of_lt (by omega)]
    exact .refl c

end Cursor

namespace Outcome

variable {α β : Type} {r : Outcome α}

@[simp] theorem map_ok (f : α → β) (a : α) (c : Cursor) : map f (.ok a, c) = (.ok (f a), c) := rfl

@[simp] theorem map_error (f : α → β) (e : Error) (c : Cursor) :
    map f (.error e, c) = (.error e, c) := rfl

@[simp] theorem snd_map (f : α → β) (r : Outcome α) : (map f r).2 = r.2 := rfl

/-- Mapping goes on with a reader that reads nothing more. -/
theorem map_eq_andThen (f : α → β) (r : Outcome α) :
    r.map f = r.andThen fun a c => (.ok (f a), c) := by
  obtain ⟨_ | a, c⟩ := r <;> rfl

theorem map_map {γ : Type} (g : β → γ) (f : α → β) (r : Outcome α) :
    (r.map f).map g = r.map fun a => g (f a) := by
  obtain ⟨_ | a, c⟩ := r <;> rfl

theorem map_andThen {γ : Type} (g : β → γ) (r : Outcome α) (f : α → Cursor → Outcome β) :
    (r.andThen f).map g = r.andThen fun a c => (f a c).map g := by
  obtain ⟨_ | a, c⟩ := r <;> rfl

theorem andThen_assoc {γ : Type} (r : Outcome α) (f : α → Cursor → Outcome β)
    (g : β → Cursor → Outcome γ) :
    (r.andThen f).andThen g = r.andThen fun a c => (f a c).andThen g := by
  obtain ⟨_ | a, c⟩ := r <;> rfl

/-- A second reader that starts where the first one stopped does not go back either. -/
theorem reaches_andThen {c : Cursor} {f : α → Cursor → Outcome β} (hr : c.Reaches r.2)
    (hf : ∀ a c₁, r = (.ok a, c₁) → c₁.Reaches (f a c₁).2) : c.Reaches (r.andThen f).2 := by
  obtain ⟨_ | a, c₁⟩ := r
  · exact hr
  · exact hr.trans (hf a c₁ rfl)

/-- A property of what reading at a cursor yields that the single steps have, and that one reader behind
another has if both do. Readers are built from these, so that all of them have it. -/
structure StepClosed (P : {α : Type} → Cursor → Outcome α → Prop) : Prop where
  stay {α : Type} (a : α) (c : Cursor) : P c (.ok a, c)
  next {α : Type} (a : α) (c : Cursor) : P c (.ok a, c.next)
  take (c : Cursor) (n : Nat) : P c (c.take n)
  refuse {α : Type} (e : Error) (c : Cursor) (he : ∀ expected available,
    e ≠ .sourceExhausted expected available) : P c ((.error e, c) : Outcome α)
  andThen {α β : Type} {r : Outcome α} {f : α → Cursor → Outcome β} {c : Cursor} (hr : P c r)
    (hf : ∀ a c₁, r = (.ok a, c₁) → P c₁ (f a c₁)) : P c (r.andThen f)

namespace StepClosed
variable {P : {α : Type} → Cursor → Outcome α → Prop}

theorem fail {α : Type} (h : StepClosed P) (c : Cursor) (fault : Fault) :
    P c (c.fail fault : Outcome α) := h.refuse _ c fun _ _ he => by cases he

theorem map {α β : Type} (h : StepClosed P) (f : α → β) {c : Cursor} {r : Outcome α} (hr : P c r) :
    P c (r.map f) := by
  rw [map_eq_andThen]
  exact h.andThen hr fun a c₁ _ => h.stay (f a) c₁

/-- What holds behind a byte holds before it. -/
theorem of_next {α : Type} (h : StepClosed P) {c : Cursor} {r : Outcome α} (hr : P c.next r) : P c r :=
  h.andThen (r := (.ok (), c.next)) (f := fun _ _ => r) (h.next () c) fun a c₁ hc => by
    cases hc
    exact hr

end StepClosed

/-- No step goes back. -/
theorem reaches_closed : StepClosed fun c r => c.Reaches r.2 where
  stay _ c := .refl c
  next _ c := Cursor.reaches_next c
  take c n := Cursor.reaches_take c n
  refuse _ c _ := .refl c
  andThen := reaches_andThen

end Outcome

end Bencode
