import Bencode.Error

/-! # Sinks

A sink takes bytes at its end. An `add` either appends all of its bytes or fails and stores nothing,
which is why a failing `write` leaves exactly the chunks before the one that failed.
-/
namespace Bencode

class Sink (σ : Type) where
  contents : σ → Bytes
  /-- The sink with more bytes at its end; an error leaves the sink as it was. -/
  add : σ → Bytes → Except Error σ
  clear : σ → σ
  last? : σ → Option UInt8

namespace Sink

variable {σ : Type} [Sink σ]

def addByte (s : σ) (b : UInt8) : Except Error σ := add s [b]

/-- The outcome of one step on a sink, and the sink after it. -/
def attempt (s : σ) (step : σ → Except Error σ) : Except Error Unit × σ :=
  match step s with
  | .ok s' => (.ok (), s')
  | .error e => (.error e, s)

/-- Adds chunk after chunk and stops at the first that fails. -/
def write (s : σ) : List Bytes → Except Error Unit × σ
  | [] => (.ok (), s)
  | chunk :: more =>
    match add s chunk with
    | .ok s' => write s' more
    | .error e => (.error e, s)

end Sink

/-- What is done to a sink: how it ends, and the sink after it. -/
abbrev Writer (σ : Type) := σ → Except Error Unit × σ

namespace Writer

variable {σ : Type} [Sink σ]

def add (b : Bytes) : Writer σ := fun s => Sink.attempt s (Sink.add · b)

def addByte (b : UInt8) : Writer σ := fun s => Sink.attempt s (Sink.addByte · b)

/-- The second only if the first does not fail. -/
def andThen (w w' : Writer σ) : Writer σ := fun s =>
  match w s with
  | (.ok (), s') => w' s'
  | (.error e, s') => (.error e, s')

end Writer

/-- A plain byte string is the simplest sink. -/
instance : Sink Bytes where
  contents s := s
  add s b := .ok (s ++ b)
  clear _ := []
  last? s := s.getLast?

/-- A growable buffer in memory. -/
structure Buffer where
  bytes : Array UInt8 := #[]
  deriving DecidableEq

namespace Buffer

def size (s : Buffer) : Nat := s.bytes.size

def isEmpty (s : Buffer) : Bool := s.bytes.isEmpty

instance : Sink Buffer where
  contents s := s.bytes.toList
  add s b := .ok ⟨s.bytes ++ b⟩
  clear _ := {}
  last? s := s.bytes.back?

end Buffer

/-- A sink that holds at most `room` bytes. -/
structure Bounded where
  room : Nat
  bytes : Bytes := []
  deriving DecidableEq

instance : Sink Bounded where
  contents s := s.bytes
  add s b :=
    if s.bytes.length + b.length ≤ s.room then .ok { s with bytes := s.bytes ++ b }
    else .error (.storage .full)
  clear s := { s with bytes := [] }
  last? s := s.bytes.getLast?

end Bencode
