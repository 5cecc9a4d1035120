import Bencode.Proofs.Place
import Bencode.Script.Stream

/-! # The position stays in the data

`Inside` is what every step on an input keeps, so that it holds after any steps from the start of the data,
whether or not they fail. Decoding keeps it because its readers only move forward, which leads from one
position of the data to another.
-/
namespace Bencode
open Outcome Reader

namespace Outcome

/-- A reader that runs short says how much there is from where it stopped, which is less than it wants. -/
theorem shortage_closed : StepClosed fun _ r => ∀ expected available,
    r.1 = .error (.sourceExhausted expected available) →
      available = r.2.rest.length ∧ available < expected where
  stay _ _ := nofun
  next _ _ := nofun
  refuse e c hne := fun expected available he => absurd (Except.error.inj he) (hne expected available)
  take c n := by
    intro expected available he
    by_cases hn : n ≤ c.rest.length
    · rw [Cursor.take_of_le hn] at he
      cases he
    · rw [Cursor.take_of_lt (Nat.not_le.1 hn)] at he ⊢
      cases he
      exact ⟨rfl, Nat.not_le.1 hn⟩
  andThen := by
    intro α β r f c hr hf
    obtain ⟨e | a, c₁⟩ := r
    · intro expected available he
      rw [andThen_error] at he ⊢
      cases he
      exact hr expected available rfl
    · exact hf a c₁ rfl

end Outcome

namespace Input

theorem length_rest_cursor (s : Input) : s.cursor.rest.length = s.remaining := List.length_drop

theorem take_of_lt {s : Input} {n : Nat} (hn : s.remaining < n) :
    s.take n = (.error (.sourceExhausted n s.remaining), s) := by
  have htake : s.cursor.take n = (.error (.sourceExhausted n s.cursor.rest.length), s.cursor) :=
    Cursor.take_of_lt (s.length_rest_cursor.symm ▸ hn)
  rw [take, read, htake, s.length_rest_cursor]
  rfl

/-- The input keeps its data, and its position is in them or at their end. -/
structure Inside (data : Bytes) (s : Input) : Prop where
  data_eq : s.data = data
  position_le : s.position ≤ data.length

namespace Inside
variable {data : Bytes} {s : Input}

theorem position_add_remaining (h : Inside data s) : s.position + s.remaining = data.length := by
  have hle := h.position_le
  rw [remaining, h.data_eq]
  omega

theorem take_of_le (h : Inside data s) {n : Nat} (hn : n ≤ s.remaining) :
    s.position + n ≤ data.length ∧ s.take n =
      (.ok (data.extract s.position (s.position + n)), { s with position := s.position + n }) := by
  have htake : s.cursor.take n = (.ok (s.cursor.rest.take n), s.cursor.advance n) :=
    Cursor.take_of_le (s.length_rest_cursor ▸ hn)
  have hslice : data.extract s.position (s.position + n) = s.cursor.rest.take n := by
    rw [List.extract_eq_take_drop, Nat.add_sub_cancel_left, cursor, h.data_eq]
  refine ⟨h.position_add_remaining ▸ Nat.add_le_add_left hn _, ?_⟩
  rw [take, read, htake, hslice]
  rfl

/-- A reader that does not go back stops at a position of the data. -/
theorem read {α : Type} {reader : Cursor → Outcome α} (h : Inside data s)
    (hr : s.cursor.Reaches (reader s.cursor).2) :
    Inside data (s.read reader).2 ∧ s.position ≤ (s.read reader).2.position ∧
      (s.read reader).2.cursor = (reader s.cursor).2 := by
  obtain ⟨data', start⟩ := s
  obtain ⟨rfl, hstart⟩ := h
  obtain ⟨position, hle, hin, hc⟩ := exists_place_of_reaches hstart hr
  have hread : (Input.read ⟨data', start⟩ reader).2 = ⟨data', position⟩ :=
    congrArg (fun c : Cursor => Input.mk data' c.offset) hc
  rw [hread]
  exact ⟨⟨rfl, hin⟩, hle, hc.symm⟩

theorem decode (h : Inside data s) (limits : Limits) :
    Inside data (s.decode limits).2 ∧ s.position ≤ (s.decode limits).2.position ∧
      (s.decode limits).2.cursor = (document limits s.cursor).2 :=
  h.read (reaches_document limits s.cursor)

/-- A value has been read if nothing is left behind it. -/
theorem position_of_decode_eq_ok (h : Inside data s) {limits : Limits} {v : Value}
    (hv : (s.decode limits).1 = .ok v) : (s.decode limits).2.position = data.length := by
  obtain ⟨rfl, hstart⟩ := h
  have hdocument : document limits s.cursor = (.ok v, (document limits s.cursor).2) := Prod.ext hv rfl
  exact congrArg Cursor.offset (place_of_document_eq_ok hstart hdocument)

theorem remaining_of_decode_eq_error (h : Inside data s) {limits : Limits} {expected available : Nat}
    (he : (s.decode limits).1 = .error (.sourceExhausted expected available)) :
    available = (s.decode limits).2.remaining ∧ available < expected := by
  obtain ⟨-, -, hc⟩ := h.decode limits
  rw [← length_rest_cursor, hc]
  exact shortage_closed.document limits s.cursor expected available he

theorem next (h : Inside data s) : Inside data s.next := by
  unfold Input.next
  split
  · next hlt => exact ⟨h.data_eq, h.data_eq ▸ hlt⟩
  · exact h

theorem take (h : Inside data s) (n : Nat) : Inside data (s.take n).2 := by
  rcases Nat.lt_or_ge s.remaining n with hn | hn
  · rw [take_of_lt hn]
    exact h
  · obtain ⟨hin, htake⟩ := h.take_of_le hn
    rw [htake]
    exact ⟨h.data_eq, hin⟩

theorem apply (h : Inside data s) (step : InputStep) : Inside data (step.apply s).2 := by
  cases step with
  | current => exact h
  | more => exact h
  | next => exact h.next
  | reset => exact ⟨h.data_eq, Nat.zero_le _⟩
  | take n => exact h.take n
  | decode limits => exact (h.decode limits).1

theorem final (h : Inside data s) (steps : List InputStep) :
    Inside data (Script.final InputStep.apply steps s) := by
  induction steps generalizing s with
  | nil => exact h
  | cons step steps ih => exact ih (h.apply step)

end Inside

/-- After any steps, failed ones included, the position is in the data or at their end, so that it and what
remains make up their length. From there `n` bytes are taken exactly if so many remain, and nothing moves
otherwise; a decode does not go back, ends where the data end if it succeeds, and fails for want of bytes only
where too few remain. -/
theorem position_stays_inside (data : Bytes) (steps : List InputStep) :
    let s := Script.final InputStep.apply steps { data }
    Inside data s ∧ s.position + s.remaining = data.length ∧
      (∀ n ≤ s.remaining, s.position + n ≤ data.length ∧ s.take n =
        (.ok (data.extract s.position (s.position + n)), { s with position := s.position + n })) ∧
      (∀ n > s.remaining, s.take n = (.error (.sourceExhausted n s.remaining), s)) ∧
      ∀ limits, Inside data (s.decode limits).2 ∧ s.position ≤ (s.decode limits).2.position ∧
        (∀ v, (s.decode limits).1 = .ok v → (s.decode limits).2.position = data.length) ∧
        ∀ expected available, (s.decode limits).1 = .error (.sourceExhausted expected available) →
          available = (s.decode limits).2.remaining ∧ available < expected := by
  intro s
  have hstart : Inside data { data } := ⟨rfl, Nat.zero_le _⟩
  have h : Inside data s := hstart.final steps
  refine ⟨h, h.position_add_remaining, fun n hn => h.take_of_le hn, fun n hn => take_of_lt hn,
    fun limits => ?_⟩
  obtain ⟨hinside, hforward, -⟩ := h.decode limits
  exact ⟨hinside, hforward, fun v hv => h.position_of_decode_eq_ok hv,
    fun expected available he => h.remaining_of_decode_eq_error he⟩

/-- Past the first byte of `xi1e` there is an integer, which ends with the data. From there three bytes can
be taken, but not four. -/
theorem position_stays_inside_at_one :
    Script.final InputStep.apply [.next] { data := [120, 105, 49, 101] } =
        ⟨[120, 105, 49, 101], 1⟩ ∧
      (decode ⟨[120, 105, 49, 101], 1⟩ {}).1 = .ok (.integer 1) ∧
      (decode ⟨[120, 105, 49, 101], 1⟩ {}).2.position = 4 ∧
      take ⟨[120, 105, 49, 101], 1⟩ 3 = (.ok [105, 49, 101], ⟨[120, 105, 49, 101], 4⟩) ∧
      take ⟨[120, 105, 49, 101], 1⟩ 4 = (.error (.sourceExhausted 4 3), ⟨[120, 105, 49, 101], 1⟩) := by
  obtain ⟨-, -, htake, hshort, hdecode⟩ := position_stays_inside [120, 105, 49, 101] [.next]
  have hinteger : (decode ⟨[120, 105, 49, 101], 1⟩ {}).1 = .ok (.integer 1) := by decide +kernel
  have hend := (hdecode {}).2.2.1 _ hinteger
  exact ⟨rfl, hinteger, hend, (htake 3 (by decide)).2, hshort 4 (by decide)⟩

end Input

end Bencode
