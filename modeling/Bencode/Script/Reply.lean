import Bencode.Limits
import Bencode.Stats
import Bencode.Error

/-! # Replies to the steps of a script

A script is a list of steps taken on one state. Every step gets a reply; one that fails does not stop
the script, and what it changed before it failed stays.
-/
namespace Bencode

inductive Reply where
  | done
  | failed (e : Error)
  | tree (v? : Option Value)
  | bytes (b : Bytes)
  | text (s : String)
  | path (p? : Option Path)
  | stats (s : Stats)
  | kind (k : Kind)
  | count (n : Nat)
  | integer (n : Int64)
  | byte (b? : Option UInt8)
  | flag (b : Bool)
  | limits (l : Limits)
  | read (result : Except Error Value) (position : Nat)

namespace Reply

def ofResult {α : Type} (f : α → Reply) : Except Error α → Reply
  | .ok a => f a
  | .error e => .failed e

end Reply

/-- The replies to all steps, each with the state after it. -/
def Script.run {σ step : Type} (apply : step → σ → Reply × σ) : List step → σ → List (Reply × σ)
  | [], _ => []
  | t :: ts, s => apply t s :: Script.run apply ts (apply t s).2

/-- The state after all steps. -/
def Script.final {σ step : Type} (apply : step → σ → Reply × σ) (steps : List step) (s : σ) : σ :=
  steps.foldl (fun s t => (apply t s).2) s

end Bencode
