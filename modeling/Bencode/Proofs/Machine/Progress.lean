import Bencode.Proofs.Input
import Bencode.Proofs.Machine.Move
import Bencode.Proofs.Size

/-! # Reading comes to an end

Every step lowers a measure, so that reading ends after a number of steps that depends on the bytes that
follow and not on the limits; as long as nothing is refused it also lowers a potential that leaves out the
stack, which tells the turns of a loop apart by their cursors. The containers that are open are bounded on
both sides, since each has cost a level and a byte.
-/
namespace Bencode.Machine
open Cursor Outcome Reader

variable {limits : Limits} {stack : List Frame} {c c' : Cursor} {b : UInt8} {s s' : State}

-- A loop that asks for a value adds a frame, so it lies two above it; a value that is returned takes its
-- frame away, so it need only lie above the loops. A byte counts five, as reading one raises the rank by four
-- at the most.
/-- What is being done, as a part of the measure of a state. -/
def Control.rank : Control → Nat
  | .done _ => 0
  | .leave (.error _) => 1
  | .number _ _ => 2
  | .value => 3
  | .items _ => 5
  | .entries _ _ => 5
  | .leave (.ok _) => 6

/-- Nothing has been refused, and reading goes on. -/
def Control.Live : Control → Prop
  | .done _ => False
  | .leave (.error _) => False
  | _ => True

def State.potential (s : State) : Nat := 5 * s.cursor.rest.length + s.control.rank

/-- Once a value is refused, only the containers that wait are left to go through. -/
def State.measure (s : State) : Nat := s.potential + s.stack.length

section
variable {control : Control}

@[simp] theorem rank_returned (v : Value) : (Control.leave (.ok v)).rank = 6 := rfl

@[simp] theorem rank_refused (e : Error) : (Control.leave (.error e)).rank = 1 := rfl

theorem Control.rank_leave_pos (result : Except Error Value) : 0 < (Control.leave result).rank := by
  cases result with
  | error e => exact Nat.one_pos
  | ok v => exact Nat.succ_pos 5

theorem Control.Reading.two_le_rank (h : control.Reading) : 2 ≤ control.rank := by
  cases control with
  | leave result => exact h.elim
  | done result => exact h.elim
  | number purpose text => exact Nat.le_refl 2
  | _ => exact Nat.le_add_left 2 _

theorem Control.Reading.live (h : control.Reading) : control.Live := by
  cases control with
  | leave result => exact h.elim
  | done result => exact h.elim
  | _ => trivial

@[simp] theorem potential_mk : State.potential ⟨control, stack, c⟩ = 5 * c.rest.length + control.rank := rfl

@[simp] theorem measure_mk :
    State.measure ⟨control, stack, c⟩ = 5 * c.rest.length + control.rank + stack.length := rfl

end

theorem Move.live (h : Move limits s s') (hs : s'.control.Live) : s.control.Live := by
  cases h with
  | refuse | unwind | close | stop => exact hs.elim
  | finish hreading _ => exact hreading.live
  | _ => trivial

/-- Until reading has ended, a step lowers the measure, and the potential too unless it refuses something. -/
theorem Move.lowers (h : Move limits s s') (hs : ∀ result, s.control ≠ .done result) :
    s'.measure < s.measure ∧ (s'.control.Live → s'.potential < s.potential) := by
  cases h with
  | refuse hreading hc =>
    have hrank := hreading.two_le_rank
    have hrest := hc.length_rest
    have hoffset := hc.offset_le
    refine ⟨?_, False.elim⟩
    rw [measure_mk, measure_mk, rank_refused]
    omega
  | finish hreading hc =>
    have hrank := hreading.two_le_rank
    have hrest := hc.length_lt
    rw [measure_mk, measure_mk, potential_mk, potential_mk, rank_returned]
    omega
  | integer hc | list _ hc | dict _ hc | digit _ hc | entry hc =>
    have hrest := hc.length_lt
    simp only [measure_mk, potential_mk, Control.rank, List.length_cons]
    omega
  | string | item | key | items | entries =>
    simp only [measure_mk, potential_mk, Control.rank, List.length_cons]
    omega
  | unwind => exact ⟨Nat.lt_succ_self _, False.elim⟩
  | close => exact ⟨Nat.add_lt_add_left (Control.rank_leave_pos _) _, False.elim⟩
  | stop => exact absurd rfl (hs _)

theorem Move.potential_lt (h : Move limits s s') (hs : s'.control.Live) : s'.potential < s.potential := by
  have hlive := h.live hs
  refine (h.lowers fun result hdone => ?_).2 hs
  rw [hdone] at hlive
  exact hlive

theorem step_of_done {result : Except Error Value} (h : s.control = .done result) : step limits s = s := by
  rw [step, h]

theorem exists_done_of_measure_eq_zero (h : s.measure = 0) : ∃ result, s.control = .done result := by
  obtain ⟨control, stack, c⟩ := s
  rw [measure_mk] at h
  cases control with
  | done result => exact ⟨result, rfl⟩
  | leave result =>
    have hrank := Control.rank_leave_pos result
    omega
  | _ =>
    simp only [Control.rank] at h
    omega

/-- As many steps as the measure says are enough. -/
theorem done_of_measure_le (limits : Limits) {n : Nat} (h : s.measure ≤ n) :
    ∃ result, ((step limits)^[n] s).control = .done result := by
  induction n generalizing s with
  | zero => exact exists_done_of_measure_eq_zero (Nat.le_zero.1 h)
  | succ n ih =>
    rw [Function.iterate_succ_apply]
    by_cases hdone : ∃ result, s.control = .done result
    · obtain ⟨result, hdone⟩ := hdone
      have hstop : step limits s = s := step_of_done hdone
      rw [hstop, Function.iterate_fixed hstop]
      exact ⟨result, hdone⟩
    · have hmove : Move limits s (step limits s) := move_step s
      obtain ⟨hlt, -⟩ := hmove.lowers fun result hs => hdone ⟨result, hs⟩
      exact ih (by omega)

/-- While nothing has been refused, the potential falls with every step. -/
theorem potential_run_lt (s : State) (n : Nat) (h : ((step limits)^[n + 1] s).control.Live) :
    ((step limits)^[n + 1] s).potential < s.potential := by
  induction n with
  | zero => exact (move_step s).potential_lt h
  | succ n ih =>
    rw [Function.iterate_succ_apply'] at h ⊢
    have hmove : Move limits _ _ := move_step ((step limits)^[n + 1] s)
    exact Nat.lt_trans (hmove.potential_lt h) (ih (hmove.live h))

/-- A loop over the members of a container is about to turn. -/
def State.AtMember (s : State) : Prop :=
  (∃ read, s.control = .items read) ∨ ∃ read previous, s.control = .entries read previous

theorem State.AtMember.live (h : s.AtMember) : s.control.Live := by
  obtain ⟨read, h⟩ | ⟨read, previous, h⟩ := h <;> rw [h] <;> trivial

theorem State.AtMember.potential (h : s.AtMember) : s.potential = 5 * s.cursor.rest.length + 5 := by
  obtain ⟨read, h⟩ | ⟨read, previous, h⟩ := h <;> rw [State.potential, h] <;> rfl

/-- No two turns of the loops over members begin at the same cursor, whichever containers they belong to. -/
theorem offset_lt_of_atMember (limits : Limits) (s : State) {m n : Nat} (hmn : m < n)
    (hm : ((step limits)^[m] s).AtMember) (hn : ((step limits)^[n] s).AtMember) :
    ((step limits)^[m] s).cursor.offset < ((step limits)^[n] s).cursor.offset := by
  obtain ⟨k, rfl⟩ := Nat.exists_eq_add_of_lt hmn
  have hsplit : (step limits)^[m + k + 1] s = (step limits)^[k + 1] ((step limits)^[m] s) := by
    rw [← Function.iterate_add_apply]
    congr 1
    omega
  rw [hsplit] at hn ⊢
  have hpotential := potential_run_lt _ k hn.live
  rw [hn.potential, hm.potential] at hpotential
  have hrest := (reaches_run limits ((step limits)^[m] s) (k + 1)).length_rest
  omega

/-- A loop over the characters of a number is about to turn. -/
def State.InNumber (s : State) : Prop := ∃ purpose text, s.control = .number purpose text

/-- The characters read of the present number. -/
def Control.text : Control → Bytes
  | .number _ text => text
  | _ => []

/-- A turn of that loop which stays in it reads one character. -/
theorem Move.turn (h : Move limits s s') (hs : s.InNumber) (hs' : s'.InNumber) :
    s'.control.text.length = s.control.text.length + 1 ∧ s'.cursor.offset = s.cursor.offset + 1 := by
  obtain ⟨purpose, text, hs⟩ := hs
  obtain ⟨purpose', text', hs'⟩ := hs'
  cases h with
  | digit _ hc => exact ⟨List.length_append, hc.2⟩
  | _ => cases hs <;> cases hs'

theorem Move.length_text_lt (h : Move limits s s') (hs : s.control.text.length < numberRoom) :
    s'.control.text.length < numberRoom := by
  cases h with
  | digit hroom _ =>
    simp only [Control.text, List.length_append, List.length_singleton] at hs ⊢
    omega
  | stop => exact hs
  | _ => exact (by decide : 0 < numberRoom)

theorem length_text_run_lt (limits : Limits) (c : Cursor) (n : Nat) :
    ((step limits)^[n] (.start c)).control.text.length < numberRoom := by
  have hstart : (State.start c).control.text.length < numberRoom := (by decide : 0 < numberRoom)
  exact Function.Iterate.rec (fun s : State => s.control.text.length < numberRoom) hstart
    (fun s hs => (move_step s).length_text_lt hs) n

/-- As many bytes are read as the loop over the characters of a number turns. -/
theorem turns_run (s : State) (n k : Nat) (h : ∀ i ≤ k, ((step limits)^[n + i] s).InNumber) :
    ((step limits)^[n + k] s).control.text.length = ((step limits)^[n] s).control.text.length + k ∧
      ((step limits)^[n + k] s).cursor.offset = ((step limits)^[n] s).cursor.offset + k := by
  induction k with
  | zero => exact ⟨rfl, rfl⟩
  | succ k ih =>
    obtain ⟨htext, hoffset⟩ := ih fun i hi => h i (by omega)
    have hlast := h (k + 1) (Nat.le_refl _)
    rw [← Nat.add_assoc, Function.iterate_succ_apply'] at hlast ⊢
    obtain ⟨htext', hoffset'⟩ := (move_step _).turn (h k (by omega)) hlast
    omega

/-- One if a container is being read that does not wait for a value. -/
def Control.opened : Control → Nat
  | .items _ => 1
  | .entries _ _ => 1
  | .number (.key _ _ _) _ => 1
  | _ => 0

/-- How many containers have been opened and not been left. -/
def State.opened (s : State) : Nat := s.stack.length + s.control.opened

/-- How many values are being read, each but the first inside the one before. -/
def State.calls (s : State) : Nat :=
  match s.control with
  | .done _ => 0
  | _ => s.stack.length + 1

theorem State.calls_le (s : State) : s.calls ≤ s.opened + 1 := by
  rw [calls, opened]
  split <;> omega

theorem opened_number (purpose : Purpose) (text text' : Bytes) :
    (Control.number purpose text).opened = (Control.number purpose text').opened := by
  cases purpose <;> rfl

/-- A step leaves no more containers open than before, or opens one for which a level is left and reads the
byte that opens it. -/
theorem Move.opened (h : Move limits s s') : s'.opened ≤ s.opened ∨
    s'.opened = s.opened + 1 ∧ s'.opened ≤ limits.maxDepth ∧ s'.cursor.offset = s.cursor.offset + 1 := by
  cases h with
  | list hroom hc | dict hroom hc => exact .inr ⟨rfl, hroom, hc.2⟩
  | digit => exact .inl (Nat.add_le_add_left (Nat.le_of_eq (opened_number _ _ _)) _)
  | refuse | finish => exact .inl (Nat.add_le_add_left (Nat.zero_le _) _)
  | unwind => exact .inl (Nat.le_succ _)
  | _ => exact .inl (Nat.le_refl _)

/-- Each open container has a level of its own, and a byte that opened it. -/
structure Nested (limits : Limits) (start : Cursor) (s : State) : Prop where
  opened_le : s.opened ≤ limits.maxDepth
  offset_le : start.offset + s.opened ≤ s.cursor.offset

theorem Move.nested {start : Cursor} (h : Move limits s s') (hs : Nested limits start s) :
    Nested limits start s' := by
  obtain ⟨hlevels, hbytes⟩ := hs
  have hforward := h.reaches.offset_le
  rcases h.opened with hle | ⟨heq, hlevels', hoffset⟩
  · exact ⟨by omega, by omega⟩
  · exact ⟨hlevels', by omega⟩

theorem nested_run (limits : Limits) (c : Cursor) (n : Nat) :
    Nested limits c ((step limits)^[n] (.start c)) :=
  Function.Iterate.rec (Nested limits c) ⟨Nat.zero_le _, Nat.le_refl _⟩
    (fun s hs => (move_step s).nested hs) n

theorem two_le_length_wire {w : Value} (h : w.HoleFree) : 2 ≤ w.wire.length := by
  have hnodes := w.sum_leastLength_le_length_wire
  rw [Value.nodes_eq_cons, List.map_cons, List.sum_cons] at hnodes
  have hleast : 2 ≤ w.leastLength := by
    cases w with
    | hole => exact h.elim
    | _ => simp only [Value.leastLength]; omega
  omega

theorem offset_add_two_le_of_tree {levels : Nat} {v : Value}
    (h : (tree limits levels).run c = (.ok v, c')) : c.offset + 2 ≤ c'.offset := by
  obtain ⟨w, hwritten, -, -, hp⟩ := tree_written h
  rw [hp.2]
  exact Nat.add_le_add_left (two_le_length_wire hwritten.holeFree) _

theorem offset_add_two_le_of_string {key : Bytes} (h : string limits c = (.ok key, c')) :
    c.offset + 2 ≤ c'.offset := by
  have hlength := add_two_le_length_stringWire key
  rw [(string_eq_ok_iff.1 h).2.2]
  omega

/-- Whatever the limits and wherever reading starts, it ends, and does so by what it reads. A value or a key
that is read moves the cursor by two bytes at the least; no two turns of the loops over members begin at the
same cursor; the loop over the characters of a number moves it by one byte a turn and turns at most twenty
times. At all times the reader makes of the state what it makes of the input, and after five steps for each
byte that follows and three more this is the result. On the way no more values are being read inside each
other than there are levels and one more, nor than bytes were read and one more, so that the depth fits a
word even if the limit on it is the greatest one. -/
theorem run_ends_within_input (limits : Limits) (s : Input) :
    let state (n : Nat) : State := (step limits)^[n] (.start s.cursor)
    (∀ levels c v c', (tree limits levels).run c = (.ok v, c') → c.offset + 2 ≤ c'.offset) ∧
      (∀ c key c', string limits c = (.ok key, c') → c.offset + 2 ≤ c'.offset) ∧
      (∀ m n, m < n → (state m).AtMember → (state n).AtMember →
        (state m).cursor.offset < (state n).cursor.offset) ∧
      (∀ n k, (∀ i ≤ k, (state (n + i)).InNumber) →
        (state (n + k)).cursor.offset = (state n).cursor.offset + k ∧ k ≤ 20) ∧
      (∀ n, (state n).outcome limits = document limits s.cursor) ∧
      (∀ n ≥ 5 * s.remaining + 3, (state n).control = .done (s.decode limits).1 ∧
        (state n).cursor.offset = (s.decode limits).2.position) ∧
      ∀ n, (state n).calls ≤ min (limits.maxDepth + 1) ((state n).cursor.offset - s.position + 1) := by
  intro state
  have houtcome (n : Nat) : (state n).outcome limits = document limits s.cursor :=
    (outcome_run _ n).trans (outcome_start s.cursor)
  refine ⟨fun levels c v c' h => offset_add_two_le_of_tree h,
    fun c key c' h => offset_add_two_le_of_string h,
    fun m n hmn hm hn => offset_lt_of_atMember limits _ hmn hm hn, fun n k h => ?_, houtcome, fun n hn => ?_,
    fun n => ?_⟩
  · obtain ⟨htext, hoffset⟩ := turns_run _ n k h
    have hroom := length_text_run_lt limits s.cursor (n + k)
    rw [numberRoom] at hroom
    exact ⟨hoffset, by omega⟩
  · have hmeasure : (State.start s.cursor).measure = 5 * s.remaining + 3 := by
      rw [← s.length_rest_cursor]
      rfl
    obtain ⟨result, hdone⟩ := done_of_measure_le limits (hmeasure ▸ hn)
    have hresult : (result, (state n).cursor) = document limits s.cursor := by
      rw [← houtcome n, State.outcome, hdone]
    have hdecode : s.decode limits = (result, { s with position := (state n).cursor.offset }) := by
      rw [Input.decode, Input.read, ← hresult]
    rw [hdecode]
    exact ⟨hdone, rfl⟩
  · obtain ⟨hlevels, hbytes⟩ := nested_run limits s.cursor n
    have hcalls := (state n).calls_le
    have hstart : s.cursor.offset = s.position := rfl
    have hbytes' : s.cursor.offset + (state n).opened ≤ (state n).cursor.offset := hbytes
    have hlevels' : (state n).opened ≤ limits.maxDepth := hlevels
    rw [Nat.le_min]
    constructor <;> omega

/-- In the dictionary `d0:lee` an empty key and an empty list cost two bytes each. The loop over its entries turns
at the offsets one and five, the length of the key takes one turn, and the list is read inside the dictionary
once three bytes have been read. -/
theorem run_ends_within_input_empty :
    let state (n : Nat) : State := (step {})^[n] (.start (.ofBytes [100, 48, 58, 108, 101, 101]))
    (tree {} 1).run ⟨3, [108, 101, 101]⟩ = (.ok (.list []), ⟨5, [101]⟩) ∧ 3 + 2 ≤ 5 ∧
      string {} ⟨1, [48, 58, 108, 101, 101]⟩ = (.ok [], ⟨3, [108, 101, 101]⟩) ∧ 1 + 2 ≤ 3 ∧
      (state 1).control = .entries [] none ∧ (state 7).control = .entries [([], .list [])] (some []) ∧
      (state 1).cursor.offset < (state 7).cursor.offset ∧
      (state 2).InNumber ∧ (state 3).InNumber ∧
      (state 3).cursor.offset = (state 2).cursor.offset + 1 ∧
      (state 33).control = .done (decode [100, 48, 58, 108, 101, 101]) ∧
      (state 4).calls = 2 ∧ (state 4).calls ≤ min 11 ((state 4).cursor.offset + 1) := by
  intro state
  have hlist : (tree {} 1).run ⟨3, [108, 101, 101]⟩ = (.ok (.list []), ⟨5, [101]⟩) := by decide +kernel
  have hkey : string {} ⟨1, [48, 58, 108, 101, 101]⟩ = (.ok [], ⟨3, [108, 101, 101]⟩) := by decide +kernel
  have hfirst : (state 1).control = .entries [] none := by decide +kernel
  have hsecond : (state 7).control = .entries [([], .list [])] (some []) := by decide +kernel
  have hnumber (i : Nat) (hi : i ≤ 1) : (state (2 + i)).InNumber := by
    obtain rfl | rfl := Nat.le_one_iff_eq_zero_or_eq_one.1 hi
    · exact ⟨.key [] none 1, [], by decide +kernel⟩
    · exact ⟨.key [] none 1, [48], by decide +kernel⟩
  obtain ⟨hvalues, hkeys, hmembers, hturns, -, hend, hcalls⟩ :=
    run_ends_within_input {} ⟨[100, 48, 58, 108, 101, 101], 0⟩
  exact ⟨hlist, hvalues _ _ _ _ hlist, hkey, hkeys _ _ _ hkey, hfirst, hsecond,
    hmembers 1 7 (by decide) (.inr ⟨_, _, hfirst⟩) (.inr ⟨_, _, hsecond⟩), hnumber 0 (by decide),
    hnumber 1 (by decide), (hturns 2 1 hnumber).1, (hend 33 (by decide)).1, by decide +kernel, hcalls 4⟩

end Bencode.Machine
