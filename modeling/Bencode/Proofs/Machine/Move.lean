import Bencode.Proofs.Machine

/-! # What one step of reading can do

`Move` lists what a step does to the control, the stack and the cursor, and leaves out which byte or which
limit made it do so. All that is proved about the way of a run goes through these cases.
-/
namespace Bencode.Machine
open Cursor Outcome Reader

/-- A value, a member or a number is being read. -/
def Control.Reading : Control → Prop
  | .leave _ => False
  | .done _ => False
  | _ => True

-- `refuse` and `finish` stand for every way in which the reading of a value comes to its end, in whatever
-- part of it. In the other cases one control leads to one other.
inductive Move (limits : Limits) : State → State → Prop where
  | refuse {control : Control} {stack : List Frame} {c c' : Cursor} {e : Error} (h : control.Reading)
      (hc : c.Reaches c') : Move limits ⟨control, stack, c⟩ ⟨.leave (.error e), stack, c'⟩
  | integer {stack : List Frame} {c c' : Cursor} {b : UInt8} (hc : c.Passes [b] c') :
      Move limits ⟨.value, stack, c⟩ ⟨.number .integer [], stack, c'⟩
  | string {stack : List Frame} {c : Cursor} :
      Move limits ⟨.value, stack, c⟩ ⟨.number .string [], stack, c⟩
  | list {stack : List Frame} {c c' : Cursor} {b : UInt8} (hroom : stack.length < limits.maxDepth)
      (hc : c.Passes [b] c') : Move limits ⟨.value, stack, c⟩ ⟨.items [], stack, c'⟩
  | dict {stack : List Frame} {c c' : Cursor} {b : UInt8} (hroom : stack.length < limits.maxDepth)
      (hc : c.Passes [b] c') : Move limits ⟨.value, stack, c⟩ ⟨.entries [] none, stack, c'⟩
  | item {read : List Value} {stack : List Frame} {c : Cursor} :
      Move limits ⟨.items read, stack, c⟩ ⟨.value, .item read :: stack, c⟩
  | key {read : List (Bytes × Value)} {previous : Option Bytes} {stack : List Frame} {c : Cursor} :
      Move limits ⟨.entries read previous, stack, c⟩ ⟨.number (.key read previous c.offset) [], stack, c⟩
  | digit {purpose : Purpose} {text : Bytes} {b : UInt8} {stack : List Frame} {c c' : Cursor}
      (hroom : text.length ≠ numberRoom - 1) (hc : c.Passes [b] c') :
      Move limits ⟨.number purpose text, stack, c⟩ ⟨.number purpose (text ++ [b]), stack, c'⟩
  | entry {read : List (Bytes × Value)} {previous : Option Bytes} {start : Nat} {text key : Bytes}
      {stack : List Frame} {c c' : Cursor} {b : UInt8} {t : Bytes} (hc : c.Passes (b :: t) c') :
      Move limits ⟨.number (.key read previous start) text, stack, c⟩ ⟨.value, .entry read key :: stack, c'⟩
  | finish {control : Control} {stack : List Frame} {c c' : Cursor} {v : Value} {b : UInt8} {t : Bytes}
      (h : control.Reading) (hc : c.Passes (b :: t) c') :
      Move limits ⟨control, stack, c⟩ ⟨.leave (.ok v), stack, c'⟩
  | unwind {e : Error} {frame : Frame} {stack : List Frame} {c : Cursor} :
      Move limits ⟨.leave (.error e), frame :: stack, c⟩ ⟨.leave (.error e), stack, c⟩
  | items {v : Value} {read : List Value} {stack : List Frame} {c : Cursor} :
      Move limits ⟨.leave (.ok v), .item read :: stack, c⟩ ⟨.items (read ++ [v]), stack, c⟩
  | entries {v : Value} {read : List (Bytes × Value)} {key : Bytes} {stack : List Frame} {c : Cursor} :
      Move limits ⟨.leave (.ok v), .entry read key :: stack, c⟩
        ⟨.entries (read ++ [(key, v)]) (some key), stack, c⟩
  | close {result result' : Except Error Value} {c : Cursor} :
      Move limits ⟨.leave result, [], c⟩ ⟨.done result', [], c⟩
  | stop {result : Except Error Value} {stack : List Frame} {c : Cursor} :
      Move limits ⟨.done result, stack, c⟩ ⟨.done result, stack, c⟩

variable {limits : Limits} {stack : List Frame} {c c' : Cursor} {b : UInt8} {rest : Bytes}

theorem passes_body {n : Int64} {key : Bytes} (hr : c.rest = b :: rest)
    (h : body limits n c = (.ok key, c')) : c.Passes (b :: key) c' := by
  rw [body] at h
  split at h
  · simp [fail] at h
  · split at h
    · simp [fail] at h
    · exact .cons hr (take_eq_ok_iff.1 h).2

theorem move_stepValue : Move limits ⟨.value, stack, c⟩ (stepValue limits stack c) := by
  rw [stepValue]
  split
  · exact .refuse trivial (.refl c)
  · next hdeep =>
    cases hr : c.rest with
    | nil => exact .refuse trivial (.refl c)
    | cons b rest =>
      have hroom : stack.length < limits.maxDepth := Nat.not_lt.1 hdeep
      dsimp only
      split
      · exact .integer (passes_next hr)
      · split
        · exact .list hroom (passes_next hr)
        · split
          · exact .dict hroom (passes_next hr)
          · split
            · exact .string
            · exact .refuse trivial (.refl c)

theorem move_stepItems {read : List Value} :
    Move limits ⟨.items read, stack, c⟩ (stepItems read stack c) := by
  rw [stepItems]
  cases hr : c.rest with
  | nil => exact .refuse trivial (.refl c)
  | cons b rest =>
    dsimp only
    split
    · exact .finish trivial (passes_next hr)
    · exact .item

theorem move_stepEntries {read : List (Bytes × Value)} {previous : Option Bytes} :
    Move limits ⟨.entries read previous, stack, c⟩ (stepEntries read previous stack c) := by
  rw [stepEntries]
  cases hr : c.rest with
  | nil => exact .refuse trivial (.refl c)
  | cons b rest =>
    dsimp only
    split
    · exact .finish trivial (passes_next hr)
    · split
      · exact .refuse trivial (.refl c)
      · exact .key

theorem move_afterNumber {purpose : Purpose} {text : Bytes} {n : Int64} (hr : c.rest = b :: rest) :
    Move limits ⟨.number purpose text, stack, c⟩ (afterNumber limits purpose stack n c) := by
  have hreach := reaches_body limits n c
  cases purpose with
  | integer => exact .finish trivial (passes_next hr)
  | string =>
    rw [afterNumber]
    rcases hb : body limits n c with ⟨e | bytes, c₁⟩ <;> rw [hb] at hreach
    · exact .refuse trivial hreach
    · exact .finish trivial (passes_body hr hb)
  | key read previous start =>
    rw [afterNumber]
    rcases hb : body limits n c with ⟨e | key, c₁⟩ <;> rw [hb] at hreach
    · exact .refuse trivial hreach
    · dsimp only
      cases orderFault? limits previous key with
      | none => exact .entry (passes_body hr hb)
      | some fault => exact .refuse trivial hreach

theorem move_stepNumber {purpose : Purpose} {text : Bytes} :
    Move limits ⟨.number purpose text, stack, c⟩ (stepNumber limits purpose text stack c) := by
  rw [stepNumber]
  cases hr : c.rest with
  | nil => exact .refuse trivial (.refl c)
  | cons b rest =>
    dsimp only
    split
    · cases numberOf c.offset text with
      | error e => exact .refuse trivial (.refl c)
      | ok n => exact move_afterNumber hr
    · split
      · exact .refuse trivial (.refl c)
      · split
        · exact .refuse trivial (.refl c)
        · next hroom => exact .digit hroom (passes_next hr)

theorem snd_closing (v : Value) (c : Cursor) : (closing v c).2 = c := by
  rw [closing]
  split <;> rfl

theorem move_stepLeave {result : Except Error Value} :
    Move limits ⟨.leave result, stack, c⟩ (stepLeave result stack c) := by
  cases stack with
  | nil =>
    have hc : (andThen (result, c) closing).2 = c := by
      cases result with
      | error e => rfl
      | ok v => exact snd_closing v c
    rw [stepLeave, State.ended, hc]
    exact .close
  | cons frame stack =>
    cases result with
    | error e =>
      cases frame <;> exact .unwind
    | ok v =>
      cases frame with
      | item read => exact .items
      | entry read key => exact .entries

theorem move_step (s : State) : Move limits s (step limits s) := by
  obtain ⟨control, stack, c⟩ := s
  cases control with
  | value => exact move_stepValue
  | items read => exact move_stepItems
  | entries read previous => exact move_stepEntries
  | number purpose text => exact move_stepNumber
  | leave result => exact move_stepLeave
  | done result => exact .stop

theorem Move.reaches {s s' : State} (h : Move limits s s') : s.cursor.Reaches s'.cursor := by
  cases h with
  | refuse _ hc => exact hc
  | integer hc | list _ hc | dict _ hc | digit _ hc | entry hc | finish _ hc => exact hc.reaches
  | _ => exact .refl _

theorem reaches_run (limits : Limits) (s : State) (n : Nat) : s.cursor.Reaches ((step limits)^[n] s).cursor :=
  Function.Iterate.rec (fun s' : State => s.cursor.Reaches s'.cursor) (.refl s.cursor)
    (fun s' hs => hs.trans (move_step s').reaches) n

end Bencode.Machine
