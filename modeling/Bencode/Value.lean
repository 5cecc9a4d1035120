import Bencode.Entries
import Bencode.Text.Utf8

/-! # Value trees

A tree holds integers, byte strings, lists and dictionaries; a hole is a slot that nobody has assigned
yet. The dictionaries of a `Sorted` tree have strictly increasing keys at every depth.
-/
namespace Bencode

inductive Kind where
  | integer | bytes | list | dict | hole
  deriving DecidableEq

def Kind.name : Kind → String
  | .integer => "integer"
  | .bytes => "byte string"
  | .list => "list"
  | .dict => "dictionary"
  | .hole => "unassigned placeholder"

inductive Value where
  | integer (n : Int64)
  | bytes (b : Bytes)
  | list (items : List Value)
  | dict (entries : List (Bytes × Value))
  | hole
  deriving Inhabited

namespace Value

/-- Induction with a hypothesis for every child. -/
@[elab_as_elim, induction_eliminator]
theorem inductOn {motive : Value → Prop}
    (integer : ∀ n, motive (.integer n)) (bytes : ∀ b, motive (.bytes b))
    (list : ∀ items, (∀ v ∈ items, motive v) → motive (.list items))
    (dict : ∀ entries, (∀ e ∈ entries, motive e.2) → motive (.dict entries))
    (hole : motive .hole) (v : Value) : motive v :=
  Value.rec (motive_2 := fun items => ∀ v ∈ items, motive v)
    (motive_3 := fun entries => ∀ e ∈ entries, motive e.2) (motive_4 := fun e => motive e.2)
    integer bytes list dict hole
    (by simp) (fun _ _ hv hvs => by simpa using ⟨hv, hvs⟩)
    (by simp) (fun _ _ he hes => by simpa using ⟨he, fun k w hm => hes (k, w) hm⟩)
    (fun _ _ h => h) v

mutual

def decEq : (a b : Value) → Decidable (a = b)
  | .integer m, .integer n => decidable_of_iff (m = n) (by simp)
  | .bytes a, .bytes b => decidable_of_iff (a = b) (by simp)
  | .list xs, .list ys =>
    have := decEqItems xs ys
    decidable_of_iff (xs = ys) (by simp)
  | .dict es, .dict fs =>
    have := decEqEntries es fs
    decidable_of_iff (es = fs) (by simp)
  | .hole, .hole => isTrue rfl
  | .integer _, .bytes _ | .integer _, .list _ | .integer _, .dict _ | .integer _, .hole
  | .bytes _, .integer _ | .bytes _, .list _ | .bytes _, .dict _ | .bytes _, .hole
  | .list _, .integer _ | .list _, .bytes _ | .list _, .dict _ | .list _, .hole
  | .dict _, .integer _ | .dict _, .bytes _ | .dict _, .list _ | .dict _, .hole
  | .hole, .integer _ | .hole, .bytes _ | .hole, .list _ | .hole, .dict _ =>
    isFalse (by simp)

def decEqItems : (xs ys : List Value) → Decidable (xs = ys)
  | [], [] => isTrue rfl
  | x :: xs, y :: ys =>
    have := decEq x y
    have := decEqItems xs ys
    decidable_of_iff (x = y ∧ xs = ys) (by simp)
  | [], _ :: _ | _ :: _, [] => isFalse (by simp)

def decEqEntries : (es fs : List (Bytes × Value)) → Decidable (es = fs)
  | [], [] => isTrue rfl
  | (k, v) :: es, (l, w) :: fs =>
    have := decEq v w
    have := decEqEntries es fs
    decidable_of_iff ((k = l ∧ v = w) ∧ es = fs) (by simp)
  | [], _ :: _ | _ :: _, [] => isFalse (by simp)

end

instance : DecidableEq Value := decEq

def kind : Value → Kind
  | .integer _ => .integer
  | .bytes _ => .bytes
  | .list _ => .list
  | .dict _ => .dict
  | .hole => .hole

def isHole : Value → Bool
  | .hole => true
  | _ => false

def asInteger? : Value → Option Int64
  | .integer n => some n
  | _ => none

def asBytes? : Value → Option Bytes
  | .bytes b => some b
  | _ => none

/-- The text of a byte string that is well-formed UTF-8. -/
def asText? (v : Value) : Option String :=
  (v.asBytes?.bind Utf8.decode?).map String.ofList

def asList? : Value → Option (List Value)
  | .list items => some items
  | _ => none

def asDict? : Value → Option (List (Bytes × Value))
  | .dict entries => some entries
  | _ => none

def get? (v : Value) (key : Bytes) : Option Value := v.asDict?.bind (Entries.get? key)

def item? (v : Value) (i : Nat) : Option Value := v.asList?.bind (·[i]?)

mutual

/-- Levels of nesting: the root counts one, keys count nothing. -/
def depth : Value → Nat
  | .list items => depthItems items + 1
  | .dict entries => depthEntries entries + 1
  | .integer _ | .bytes _ | .hole => 1

def depthItems : List Value → Nat
  | [] => 0
  | v :: vs => max v.depth (depthItems vs)

def depthEntries : List (Bytes × Value) → Nat
  | [] => 0
  | (_, v) :: es => max v.depth (depthEntries es)

end

mutual

/-- Keys strictly increase in every dictionary of the tree. -/
def Sorted : Value → Prop
  | .list items => SortedItems items
  | .dict entries => Entries.Sorted entries ∧ SortedEntries entries
  | .integer _ | .bytes _ | .hole => True

def SortedItems : List Value → Prop
  | [] => True
  | v :: vs => v.Sorted ∧ SortedItems vs

def SortedEntries : List (Bytes × Value) → Prop
  | [] => True
  | (_, v) :: es => v.Sorted ∧ SortedEntries es

end

/-- The dictionary of the given entries; of equal keys the last one counts. -/
def ofEntries (entries : List (Bytes × Value)) : Value := .dict (Entries.ofList entries)

theorem depth_pos (v : Value) : 0 < v.depth := by
  cases v <;> simp [depth]

end Value

end Bencode
