import Bencode.Error

/-! # Building trees in place

A build step works on one slot of a tree and leaves the tree behind it, also when it fails. Steps are
taken to a slot by `atKey`, `atIndex` and `atPath`, which create what is missing on the way: a hole
becomes the container that is asked for, a missing key or list element becomes a hole. What was
created before a failure stays. How long a list can get is not fixed here: it is assumed as a `Growth`.
-/
namespace Bencode

/-- A result or an error, and the tree left behind in either case. -/
abbrev Build (α : Type) := Value → Except Error α × Value

/-- The longest list that can be counted. -/
def maxListLength : Nat := 18446744073709551615

/-- The lengths that a list can grow to. It is up to the memory at hand which they are: with a length come all
smaller ones, and none is longer than can be counted. -/
class Growth where
  allows : Nat → Bool
  allows_zero : allows 0
  allows_of_le {m n : Nat} (h : m ≤ n) (hn : allows n) : allows m
  le_maxListLength {n : Nat} (h : allows n) : n ≤ maxListLength

/-- Where no other `Growth` is given, lists stay below this length. -/
def growthLimit : Nat := 1152921504606846976

instance (priority := low) : Growth where
  allows n := n < growthLimit
  allows_zero := by decide
  allows_of_le h hn := decide_eq_true (Nat.lt_of_le_of_lt h (of_decide_eq_true hn))
  le_maxListLength h := Nat.le_trans (Nat.le_of_lt (of_decide_eq_true h)) (by decide)

namespace Build

variable [Growth] {α : Type}

/-- The slot as it is. -/
def look : Build Value := fun v => (.ok v, v)

def assign (w : Value) : Build Unit := fun _ => (.ok (), w)

def mismatch (expected : Kind) : Build α := fun v => (.error (.kindMismatch expected v.kind), v)

/-- Takes a step to the value under a key. -/
def atKey (key : Bytes) (step : Build α) : Build α
  | .hole =>
    let (r, w) := step .hole
    (r, .dict [(key, w)])
  | .dict entries =>
    let (r, w) := step ((Entries.get? key entries).getD .hole)
    (r, .dict (Entries.insert key w entries))
  | v => mismatch .dict v

/-- The items padded with holes to a length; they are never cut. -/
def padded (items : List Value) (length : Nat) : Except Error (List Value) :=
  if length ≤ items.length then .ok items
  else if Growth.allows length then .ok (items ++ List.replicate (length - items.length) .hole)
  else .error (.indexOutOfRange (length - 1))

/-- Makes the slot a list of at least the given length and answers its items. A hole has become a
list even if the list cannot grow. -/
def ensureLength (length : Nat) : Build (List Value)
  | .hole =>
    match padded [] length with
    | .ok items => (.ok items, .list items)
    | .error e => (.error e, .list [])
  | .list items =>
    match padded items length with
    | .ok items' => (.ok items', .list items')
    | .error e => (.error e, .list items)
  | v => mismatch .list v

/-- Takes a step to a list element. The one index with no length behind it is refused at once. -/
def atIndex (i : Nat) (step : Build α) : Build α := fun v =>
  if maxListLength < i + 1 then (.error (.indexOutOfRange i), v)
  else
    match ensureLength (i + 1) v with
    | (.ok items, _) =>
      let (r, w) := step (items.getD i .hole)
      (r, .list (items.set i w))
    | (.error e, v') => (.error e, v')

def atSegment : Segment → Build α → Build α
  | .key k => atKey k
  | .index i => atIndex i

/-- Takes a step to the end of a path. -/
def atPath : Path → Build α → Build α
  | [], step => step
  | s :: rest, step => atSegment s (atPath rest step)

/-- Creates what is missing along a path and answers the value at its end. -/
def slot (p : Path) : Build Value := atPath p look

def set (p : Path) (w : Value) : Build Unit := atPath p (assign w)

/-- Replaces the integer in the slot and answers something about it. -/
def onInteger (f : Int64 → α × Int64) : Build α
  | .integer n => (.ok (f n).1, .integer (f n).2)
  | v => mismatch .integer v

def onBytes (f : Bytes → α × Bytes) : Build α
  | .bytes b => (.ok (f b).1, .bytes (f b).2)
  | v => mismatch .bytes v

def onList (f : List Value → α × List Value) : Build α
  | .list items => (.ok (f items).1, .list (f items).2)
  | v => mismatch .list v

def onDict (f : List (Bytes × Value) → α × List (Bytes × Value)) : Build α
  | .dict entries => (.ok (f entries).1, .dict (f entries).2)
  | v => mismatch .dict v

@[simp] theorem atPath_nil (step : Build α) : atPath [] step = step := rfl

theorem atPath_cons (s : Segment) (p : Path) (step : Build α) :
    atPath (s :: p) step = atSegment s (atPath p step) := rfl

theorem atPath_append (p q : Path) (step : Build α) :
    atPath (p ++ q) step = atPath p (atPath q step) := by
  induction p with
  | nil => rfl
  | cons s p ih => rw [List.cons_append, atPath_cons, atPath_cons, ih]

end Build

namespace Value

def expectInteger (v : Value) : Except Error Int64 := (Build.onInteger (fun n => (n, n)) v).1

def expectBytes (v : Value) : Except Error Bytes := (Build.onBytes (fun b => (b, b)) v).1

def expectList (v : Value) : Except Error (List Value) := (Build.onList (fun xs => (xs, xs)) v).1

def expectDict (v : Value) : Except Error (List (Bytes × Value)) :=
  (Build.onDict (fun es => (es, es)) v).1

end Value

end Bencode
