import Bencode.Build
import Bencode.Format
import Bencode.Input

/-! # Documents

A document holds the tree that was last read or built, with the limits under which it reads. A failed
reading leaves it without a tree, and a bare hole does not count as one when it is written.
-/
namespace Bencode

structure Document where
  limits : Limits := {}
  root? : Option Value := none
  deriving DecidableEq

namespace Document

/-- Reads one tree from the input in place of the present one. -/
def read (d : Document) (input : Input) : Except Error Value × Input × Document :=
  let (result, input') := input.decode d.limits
  (result, input', { d with root? := result.toOption })

def write {σ : Type} [Sink σ] (d : Document) (format : Format) (s : σ) : Except Error Unit × σ :=
  match d.root? with
  | none | some .hole => (.error .noRoot, s)
  | some root => format.write root s

def setRoot (d : Document) (v : Value) : Document := { d with root? := some v }

def takeRoot (d : Document) : Option Value × Document := (d.root?, { d with root? := none })

/-- Takes a build step to the root; if there is none, to a hole in its place. -/
def build {α : Type} (d : Document) (step : Build α) : Except Error α × Document :=
  let (r, v) := step (d.root?.getD .hole)
  (r, d.setRoot v)

end Document

end Bencode
