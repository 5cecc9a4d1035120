import Bencode.Json
import Bencode.Sink
import Bencode.Wire

/-! # Writing a tree in a format

Both formats refuse a tree with a hole before they write anything. The wire form goes out piece by piece
as the tree is walked, JSON in one piece.
-/
namespace Bencode

/-- The tree itself if it has no hole; otherwise the error that names the first one. -/
def Value.assigned (v : Value) : Except Error Value :=
  match v.findHole with
  | some p => .error (.unassigned p)
  | none => .ok v

/-- The canonical encoding of a tree without holes. -/
def encode (v : Value) : Except Error Bytes := v.assigned.map Value.wire

section

variable {σ : Type} [Sink σ]

/-- A length, a colon and the body, each added by itself. -/
def Writer.string (b : Bytes) : Writer σ :=
  (add (Decimal.digits b.length)).andThen ((addByte Mark.colon).andThen (add b))

namespace Value

mutual

/-- Writes the wire form of a tree piece by piece. The first piece that the sink refuses ends the writing
on all levels. -/
def writeTo : Value → Writer σ
  | .integer n =>
    (Writer.addByte Mark.integer).andThen
      ((Writer.add (Decimal.ofInt n.toInt)).andThen (.addByte Mark.close))
  | .bytes b => .string b
  | .list items =>
    (Writer.addByte Mark.list).andThen ((writeItemsTo items).andThen (.addByte Mark.close))
  | .dict entries =>
    (Writer.addByte Mark.dict).andThen ((writeEntriesTo entries).andThen (.addByte Mark.close))
  | .hole => fun s => (.ok (), s)  -- not reached, since trees with holes are refused before

def writeItemsTo : List Value → Writer σ
  | [] => fun s => (.ok (), s)
  | v :: vs => v.writeTo.andThen (writeItemsTo vs)

def writeEntriesTo : List (Bytes × Value) → Writer σ
  | [] => fun s => (.ok (), s)
  | (k, v) :: es => ((Writer.string k).andThen v.writeTo).andThen (writeEntriesTo es)

end

end Value

end

inductive Format where
  | wire
  | json (layout : Json.Layout)
  deriving DecidableEq

namespace Format

variable {σ : Type} [Sink σ]

/-- Writes a tree without holes. -/
def writeTo : Format → Value → Writer σ
  | .wire, v => v.writeTo
  | .json layout, v => .add (Utf8.encode (v.toJson.text layout 0))

/-- Writes a tree at the end of a sink; what was written before a failure stays. -/
def write (format : Format) (v : Value) (s : σ) : Except Error Unit × σ :=
  match v.assigned with
  | .error e => (.error e, s)
  | .ok v => format.writeTo v s

end Format

/-- The JSON text of a tree without holes. -/
def jsonText (layout : Json.Layout) (v : Value) : Except Error String :=
  v.assigned.map fun w => String.ofList (w.toJson.text layout 0)

end Bencode
