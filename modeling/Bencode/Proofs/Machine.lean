import Mathlib.Logic.Function.Iterate
import Bencode.Proofs.Reader.Tree

/-! # Reading step by step

A state of reading is what is being done, the containers that wait for a value to be read in them, and the
cursor. `step` goes on by one call, one turn of a loop or one return, so that what a run of the reader does
on its way can be stated. `outcome` says what the reader makes of a state; no step changes it, and so a run
that ends has read what the reader reads.
-/
namespace Bencode.Machine
open Cursor Outcome Reader

/-- A container that waits for a value, with what was read of it, and with the key of the value. -/
inductive Frame where
  | item (read : List Value)
  | entry (read : List (Bytes × Value)) (key : Bytes)
  deriving DecidableEq

/-- What a number is read for. A key carries what was read of its dictionary, the key before it and the
offset where it starts. -/
inductive Purpose where
  | integer
  | string
  | key (read : List (Bytes × Value)) (previous : Option Bytes) (start : Nat)
  deriving DecidableEq

/-- The byte that ends the number. -/
def Purpose.terminator : Purpose → UInt8
  | .integer => Mark.close
  | .string => Mark.colon
  | .key _ _ _ => Mark.colon

/-- What is being done: a value is asked for, a loop over the members of a container or over the characters
of a number is about to turn, a value or an error is returned, or reading has ended. -/
inductive Control where
  | value
  | items (read : List Value)
  | entries (read : List (Bytes × Value)) (previous : Option Bytes)
  | number (purpose : Purpose) (text : Bytes)
  | leave (result : Except Error Value)
  | done (result : Except Error Value)
  deriving DecidableEq

structure State where
  control : Control
  stack : List Frame
  cursor : Cursor
  deriving DecidableEq

namespace State

/-- Reading one value and nothing after it. -/
def start (c : Cursor) : State := ⟨.value, [], c⟩

/-- A value, or the error in its place, is returned to the container that waits for it. -/
def leaving (stack : List Frame) (r : Outcome Value) : State := ⟨.leave r.1, stack, r.2⟩

def ended (r : Outcome Value) : State := ⟨.done r.1, [], r.2⟩

end State

/-- Nothing may follow the value of a document. -/
def closing (v : Value) (c : Cursor) : Outcome Value :=
  if c.rest.isEmpty then (.ok v, c) else c.fail .trailingData

variable (limits : Limits)

/-- The root is read at depth one, and every container that waits adds one. -/
def stepValue (stack : List Frame) (c : Cursor) : State :=
  if limits.maxDepth < stack.length + 1 then .leaving stack (c.fail (.tooDeep limits.maxDepth))
  else
    match c.rest with
    | [] => .leaving stack (c.fail .unexpectedEnd)
    | b :: _ =>
      if b = Mark.integer then ⟨.number .integer [], stack, c.next⟩
      else if b = Mark.list then ⟨.items [], stack, c.next⟩
      else if b = Mark.dict then ⟨.entries [] none, stack, c.next⟩
      else if isDigit b then ⟨.number .string [], stack, c⟩
      else .leaving stack (c.fail (.invalidLead b))

def stepItems (read : List Value) (stack : List Frame) (c : Cursor) : State :=
  match c.rest with
  | [] => .leaving stack (c.fail (.unterminated .list))
  | b :: _ =>
    if b = Mark.close then .leaving stack (.ok (.list read), c.next)
    else ⟨.value, .item read :: stack, c⟩

def stepEntries (read : List (Bytes × Value)) (previous : Option Bytes) (stack : List Frame) (c : Cursor) :
    State :=
  match c.rest with
  | [] => .leaving stack (c.fail (.unterminated .dict))
  | b :: _ =>
    if b = Mark.close then .leaving stack (.ok (.ofEntries read), c.next)
    else if !isNumberByte b true then .leaving stack (c.fail (.invalidKey b))
    else ⟨.number (.key read previous c.offset) [], stack, c⟩

/-- The number has been read; the cursor stands on its terminator. -/
def afterNumber (purpose : Purpose) (stack : List Frame) (n : Int64) (c : Cursor) : State :=
  match purpose with
  | .integer => .leaving stack (.ok (.integer n), c.next)
  | .string => .leaving stack ((body limits n c).map .bytes)
  | .key read previous start =>
    match body limits n c with
    | (.error e, c₁) => .leaving stack (.error e, c₁)
    | (.ok key, c₁) =>
      match orderFault? limits previous key with
      | some fault => .leaving stack (.error (.malformed start fault), c₁)
      | none => ⟨.value, .entry read key :: stack, c₁⟩

def stepNumber (purpose : Purpose) (text : Bytes) (stack : List Frame) (c : Cursor) : State :=
  match c.rest with
  | [] => .leaving stack (c.fail .unexpectedEnd)
  | b :: _ =>
    if b = purpose.terminator then
      match numberOf c.offset text with
      | .error e => .leaving stack (.error e, c)
      | .ok n => afterNumber limits purpose stack n c
    else if !isNumberByte b text.isEmpty then .leaving stack (c.fail (.invalidDigit b))
    else if text.length = numberRoom - 1 then .leaving stack (c.fail .numberTooLong)
    else ⟨.number purpose (text ++ [b]), stack, c.next⟩

/-- An error goes through all containers that wait. -/
def stepLeave (result : Except Error Value) (stack : List Frame) (c : Cursor) : State :=
  match stack, result with
  | [], result => .ended (andThen (result, c) closing)
  | _ :: stack, .error e => ⟨.leave (.error e), stack, c⟩
  | .item read :: stack, .ok v => ⟨.items (read ++ [v]), stack, c⟩
  | .entry read key :: stack, .ok v => ⟨.entries (read ++ [(key, v)]) (some key), stack, c⟩

/-- One call, one turn of a loop or one return; nothing happens once reading has ended. -/
def step (s : State) : State :=
  match s.control with
  | .value => stepValue limits s.stack s.cursor
  | .items read => stepItems read s.stack s.cursor
  | .entries read previous => stepEntries read previous s.stack s.cursor
  | .number purpose text => stepNumber limits purpose text s.stack s.cursor
  | .leave result => stepLeave result s.stack s.cursor
  | .done _ => s

/-- The reader of a value for which `height` containers wait. -/
def call (height : Nat) : Reader Value := tree limits (limits.maxDepth - height)

/-- The rest of a list for which `height` containers wait. -/
def restOfList (height : Nat) (read : List Value) (c : Cursor) : Outcome Value :=
  (items (call limits (height + 1)) c).map fun vs => .list (read ++ vs)

def restOfDict (height : Nat) (read : List (Bytes × Value)) (previous : Option Bytes) (c : Cursor) :
    Outcome Value :=
  (entries limits (call limits (height + 1)) previous c).map fun es => .ofEntries (read ++ es)

/-- The rest of a number of which some characters were read. -/
def restOfNumber (terminator : UInt8) (text : Bytes) (c : Cursor) : Outcome Int64 :=
  (collect terminator text c.offset c.rest).andThen fun text c₁ => (numberOf c₁.offset text, c₁)

/-- What follows a key of a dictionary for which `height` containers wait, from its value on. -/
def restOfEntry (height : Nat) (read : List (Bytes × Value)) (key : Bytes) (c : Cursor) : Outcome Value :=
  ((call limits (height + 1)).run c).andThen fun v c₁ =>
    restOfDict limits height (read ++ [(key, v)]) (some key) c₁

/-- What the number is followed by, in a container for which `height` others wait. -/
def Purpose.goOn (height : Nat) (purpose : Purpose) (n : Int64) (c : Cursor) : Outcome Value :=
  match purpose with
  | .integer => (.ok (.integer n), c.next)
  | .string => (body limits n c).map .bytes
  | .key read previous start =>
    (body limits n c).andThen fun key c₁ =>
      (orderFault? limits previous key).elim (restOfEntry limits height read key c₁)
        fun fault => (.error (.malformed start fault), c₁)

/-- What becomes of a value, or of the error in its place, in the containers that wait. -/
def resume : List Frame → Outcome Value → Outcome Value
  | [], r => r.andThen closing
  | .item read :: stack, r =>
    resume stack (r.andThen fun v c => restOfList limits stack.length (read ++ [v]) c)
  | .entry read key :: stack, r =>
    resume stack (r.andThen fun v c => restOfDict limits stack.length (read ++ [(key, v)]) (some key) c)

def State.outcome (s : State) : Outcome Value :=
  match s.control with
  | .value => resume limits s.stack ((call limits s.stack.length).run s.cursor)
  | .items read => resume limits s.stack (restOfList limits s.stack.length read s.cursor)
  | .entries read previous => resume limits s.stack (restOfDict limits s.stack.length read previous s.cursor)
  | .number purpose text =>
    resume limits s.stack
      ((restOfNumber purpose.terminator text s.cursor).andThen (purpose.goOn limits s.stack.length))
  | .leave result => resume limits s.stack (result, s.cursor)
  | .done result => (result, s.cursor)

variable {limits} {height : Nat} {c : Cursor} {b : UInt8} {rest : Bytes}

theorem outcome_start (c : Cursor) : (State.start c).outcome limits = document limits c := rfl

theorem call_of_le (h : limits.maxDepth ≤ height) (c : Cursor) :
    (call limits height).run c = c.fail (.tooDeep limits.maxDepth) := by
  rw [call, Nat.sub_eq_zero_of_le h]
  rfl

theorem call_of_lt (h : height < limits.maxDepth) (c : Cursor) :
    (call limits height).run c = value limits (call limits (height + 1)) c := by
  have hlevels : limits.maxDepth - height = limits.maxDepth - (height + 1) + 1 := by omega
  rw [call, hlevels]
  rfl

theorem restOfList_cons {read : List Value} (h : c.rest = b :: rest) (hb : b ≠ Mark.close) :
    restOfList limits height read c = ((call limits (height + 1)).run c).andThen fun v c₁ =>
      restOfList limits height (read ++ [v]) c₁ := by
  rw [restOfList, items_cons h hb, map_andThen]
  congr 1
  funext v c₁
  rw [restOfList, map_map]
  simp only [List.append_assoc, List.singleton_append]

theorem restOfEntry_eq {read : List (Bytes × Value)} {key : Bytes} :
    (entriesAfter limits (call limits (height + 1)) key c).map (fun es => .ofEntries (read ++ es)) =
      restOfEntry limits height read key c := by
  rw [entriesAfter, map_andThen, restOfEntry]
  congr 1
  funext v c₁
  rw [restOfDict, map_map]
  simp only [List.append_assoc, List.singleton_append]

theorem restOfDict_cons {read : List (Bytes × Value)} {previous : Option Bytes} (h : c.rest = b :: rest)
    (hb : b ≠ Mark.close) (hn : isNumberByte b true = true) :
    restOfDict limits height read previous c = (restOfNumber Mark.colon [] c).andThen
      (Purpose.goOn limits height (.key read previous c.offset)) := by
  have hkey (key : Bytes) (c₁ : Cursor) :
      ((orderFault? limits previous key).elim (entriesAfter limits (call limits (height + 1)) key c₁)
          fun fault => (.error (.malformed c.offset fault), c₁)).map (fun es => .ofEntries (read ++ es)) =
        (orderFault? limits previous key).elim (restOfEntry limits height read key c₁)
          fun fault => (.error (.malformed c.offset fault), c₁) := by
    cases orderFault? limits previous key with
    | none => exact restOfEntry_eq
    | some fault => rfl
  rw [restOfDict, entries_cons h hb hn, string_eq_andThen, andThen_assoc, map_andThen]
  simp only [map_andThen, hkey]
  rfl

theorem outcome_leaving (stack : List Frame) (r : Outcome Value) :
    (State.leaving stack r).outcome limits = resume limits stack r := rfl

variable (stack : List Frame) (c : Cursor)

theorem outcome_stepValue : (stepValue limits stack c).outcome limits =
    resume limits stack ((call limits stack.length).run c) := by
  rw [stepValue]
  split
  · next hdeep => rw [outcome_leaving, call_of_le (Nat.le_of_lt_succ hdeep)]
  · next hdeep =>
    rw [call_of_lt (by omega)]
    cases hr : c.rest with
    | nil => rw [value_nil hr, outcome_leaving]
    | cons b rest =>
      rw [value_cons hr]
      dsimp only
      split
      · rfl
      · split
        · rfl
        · split
          · rfl
          · split
            · rw [string_eq_andThen, map_andThen]
              rfl
            · rfl

theorem outcome_stepItems (read : List Value) : (stepItems read stack c).outcome limits =
    resume limits stack (restOfList limits stack.length read c) := by
  rw [stepItems]
  cases hr : c.rest with
  | nil =>
    rw [restOfList, items_nil hr]
    rfl
  | cons b rest =>
    dsimp only
    split
    · next hb =>
      rw [restOfList, items_close (hb ▸ hr), map_ok, List.append_nil]
      rfl
    · next hb =>
      rw [restOfList_cons hr hb]
      rfl

theorem outcome_stepEntries (read : List (Bytes × Value)) (previous : Option Bytes) :
    (stepEntries read previous stack c).outcome limits =
      resume limits stack (restOfDict limits stack.length read previous c) := by
  rw [stepEntries]
  cases hr : c.rest with
  | nil =>
    rw [restOfDict, entries_nil hr]
    rfl
  | cons b rest =>
    dsimp only
    split
    · next hb =>
      rw [restOfDict, entries_close (hb ▸ hr), map_ok, List.append_nil]
      rfl
    · next hb =>
      split
      · next hn =>
        rw [restOfDict, entries_invalid hr hb (by simpa using hn)]
        rfl
      · next hn =>
        rw [restOfDict_cons hr hb (by simpa using hn)]
        rfl

theorem outcome_afterNumber (purpose : Purpose) (n : Int64) :
    (afterNumber limits purpose stack n c).outcome limits =
      resume limits stack (purpose.goOn limits stack.length n c) := by
  cases purpose with
  | integer => rfl
  | string => rfl
  | key read previous start =>
    rw [afterNumber, Purpose.goOn]
    obtain ⟨e | key, c₁⟩ := body limits n c
    · rfl
    · rw [andThen_ok]
      dsimp only
      cases orderFault? limits previous key <;> rfl

theorem outcome_stepNumber (purpose : Purpose) (text : Bytes) :
    (stepNumber limits purpose text stack c).outcome limits = resume limits stack
      ((restOfNumber purpose.terminator text c).andThen (purpose.goOn limits stack.length)) := by
  obtain ⟨offset, rest⟩ := c
  rw [stepNumber, restOfNumber]
  cases rest with
  | nil => rfl
  | cons b rest =>
    dsimp only
    rw [collect]
    split
    · rw [andThen_ok]
      dsimp only
      cases numberOf offset text with
      | error e => rfl
      | ok n => rw [outcome_afterNumber, andThen_ok]
    · split
      · rfl
      · split
        · rfl
        · rfl

theorem outcome_stepLeave (result : Except Error Value) :
    (stepLeave result stack c).outcome limits = resume limits stack (result, c) := by
  cases stack with
  | nil => rfl
  | cons frame stack =>
    cases result with
    | error e => cases frame <;> rfl
    | ok v => cases frame <;> rfl

theorem outcome_step (s : State) : (step limits s).outcome limits = s.outcome limits := by
  obtain ⟨control, stack, c⟩ := s
  cases control with
  | value => exact outcome_stepValue stack c
  | items read => exact outcome_stepItems stack c read
  | entries read previous => exact outcome_stepEntries stack c read previous
  | number purpose text => exact outcome_stepNumber stack c purpose text
  | leave result => exact outcome_stepLeave stack c result
  | done result => rfl

/-- Whatever the state of a run, the reader makes of it what it makes of the start. -/
theorem outcome_run (s : State) (n : Nat) : ((step limits)^[n] s).outcome limits = s.outcome limits :=
  Function.Iterate.rec (fun s' : State => s'.outcome limits = s.outcome limits) rfl
    (fun s' hs => (outcome_step s').trans hs) n

end Bencode.Machine
