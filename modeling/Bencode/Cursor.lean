import Bencode.Error

/-! # Cursors and what reading at one yields

A cursor is a place in the input: how many bytes lie before it and which bytes follow. Reading there
yields a value or an error, and in both cases the cursor where it stopped.
-/
namespace Bencode

structure Cursor where
  offset : Nat
  rest : Bytes
  deriving DecidableEq

/-- A value or an error, and where reading stopped. -/
abbrev Outcome (α : Type) := Except Error α × Cursor

namespace Cursor

def ofBytes (data : Bytes) : Cursor := ⟨0, data⟩

/-- Moves past one byte; does nothing at the end. -/
def next (c : Cursor) : Cursor :=
  match c.rest with
  | [] => c
  | _ :: rest => ⟨c.offset + 1, rest⟩

/-- Moves past `n` bytes that are there. -/
def advance (c : Cursor) (n : Nat) : Cursor := ⟨c.offset + n, c.rest.drop n⟩

/-- A rule of the format is broken at the cursor. -/
def fail {α : Type} (c : Cursor) (fault : Fault) : Outcome α := (.error (.malformed c.offset fault), c)

/-- Exactly `n` bytes; if fewer follow, nothing is consumed. -/
def take (c : Cursor) (n : Nat) : Outcome Bytes :=
  let taken := c.rest.take n
  if taken.length = n then (.ok taken, c.advance n)
  else (.error (.sourceExhausted n c.rest.length), c)

@[simp] theorem next_nil (offset : Nat) : next ⟨offset, []⟩ = ⟨offset, []⟩ := rfl

@[simp] theorem next_cons (offset : Nat) (b : UInt8) (rest : Bytes) :
    next ⟨offset, b :: rest⟩ = ⟨offset + 1, rest⟩ := rfl

@[simp] theorem rest_next (c : Cursor) : c.next.rest = c.rest.tail := by
  obtain ⟨offset, _ | ⟨b, rest⟩⟩ := c <;> rfl

@[simp] theorem rest_advance (c : Cursor) (n : Nat) : (c.advance n).rest = c.rest.drop n := rfl

theorem length_next_le (c : Cursor) : c.next.rest.length ≤ c.rest.length := by
  simp

theorem length_next_lt {c : Cursor} (h : c.rest ≠ []) : c.next.rest.length < c.rest.length := by
  cases hr : c.rest with
  | nil => exact absurd hr h
  | cons b rest => simp [hr]

/-- What lies before the cursor and what follows make up the whole input, wherever it moves. -/
theorem offset_next (c : Cursor) :
    c.next.offset + c.next.rest.length = c.offset + c.rest.length := by
  obtain ⟨offset, _ | ⟨b, rest⟩⟩ := c
  · rfl
  · simp only [next_cons, List.length_cons]
    omega

theorem offset_advance {c : Cursor} {n : Nat} (h : n ≤ c.rest.length) :
    (c.advance n).offset + (c.advance n).rest.length = c.offset + c.rest.length := by
  simp only [advance, List.length_drop]
  omega

theorem take_of_le {c : Cursor} {n : Nat} (h : n ≤ c.rest.length) :
    c.take n = (.ok (c.rest.take n), c.advance n) := by
  simp [take, h]

theorem take_of_lt {c : Cursor} {n : Nat} (h : c.rest.length < n) :
    c.take n = (.error (.sourceExhausted n c.rest.length), c) := by
  have hn : ¬ (c.rest.take n).length = n := by
    rw [List.length_take]
    omega
  rw [take, if_neg hn]

end Cursor

namespace Outcome

variable {α β : Type}

def map (f : α → β) (r : Outcome α) : Outcome β := (r.1.map f, r.2)

/-- Continues with `f` at the cursor where `r` stopped, unless `r` failed. -/
def andThen (r : Outcome α) (f : α → Cursor → Outcome β) : Outcome β :=
  match r with
  | (.ok a, c) => f a c
  | (.error e, c) => (.error e, c)

@[simp] theorem andThen_ok (a : α) (c : Cursor) (f : α → Cursor → Outcome β) :
    andThen (.ok a, c) f = f a c := rfl

@[simp] theorem andThen_error (e : Error) (c : Cursor) (f : α → Cursor → Outcome β) :
    andThen (.error e, c) f = (.error e, c) := rfl

theorem andThen_eq_ok {r : Outcome α} {f : α → Cursor → Outcome β} {b : β} {c' : Cursor} :
    andThen r f = (.ok b, c') ↔ ∃ a c, r = (.ok a, c) ∧ f a c = (.ok b, c') := by
  obtain ⟨_ | a, c⟩ := r
  · simp
  · exact ⟨fun h => ⟨a, c, rfl, h⟩, fun ⟨_, _, hr, h⟩ => by cases hr; exact h⟩

theorem map_eq_ok {r : Outcome α} {f : α → β} {b : β} {c : Cursor} :
    map f r = (.ok b, c) ↔ ∃ a, r = (.ok a, c) ∧ f a = b := by
  obtain ⟨_ | a, c'⟩ := r
  · simp [map, Except.map]
  · simp only [map, Except.map, Prod.mk.injEq, Except.ok.injEq]
    exact ⟨fun h => ⟨a, ⟨rfl, h.2⟩, h.1⟩, fun ⟨_, hr, hb⟩ => ⟨hr.1 ▸ hb, hr.2⟩⟩

end Outcome

end Bencode
