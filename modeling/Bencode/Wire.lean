import Bencode.Decimal
import Bencode.Value

/-! # The canonical wire form

`Value.wire` is the encoding of a tree as one byte string, `Value.chunks` the same bytes in the pieces
in which they are written out. Only a tree without holes has an encoding.
-/
namespace Bencode

/-- A length, a colon and the body. -/
def stringWire (b : Bytes) : Bytes := Decimal.digits b.length ++ Mark.colon :: b

def stringChunks (b : Bytes) : List Bytes := [Decimal.digits b.length, [Mark.colon], b]

theorem flatten_stringChunks (b : Bytes) : (stringChunks b).flatten = stringWire b := by
  simp [stringChunks, stringWire]

namespace Value

mutual

def wire : Value → Bytes
  | .integer n => Mark.integer :: (Decimal.ofInt n.toInt ++ [Mark.close])
  | .bytes b => stringWire b
  | .list items => Mark.list :: (wireItems items ++ [Mark.close])
  | .dict entries => Mark.dict :: (wireEntries entries ++ [Mark.close])
  | .hole => []

def wireItems : List Value → Bytes
  | [] => []
  | v :: vs => v.wire ++ wireItems vs

def wireEntries : List (Bytes × Value) → Bytes
  | [] => []
  | (k, v) :: es => stringWire k ++ v.wire ++ wireEntries es

end

mutual

/-- The pieces of `wire` in the order in which they are written. -/
def chunks : Value → List Bytes
  | .integer n => [[Mark.integer], Decimal.ofInt n.toInt, [Mark.close]]
  | .bytes b => stringChunks b
  | .list items => [Mark.list] :: (chunksItems items ++ [[Mark.close]])
  | .dict entries => [Mark.dict] :: (chunksEntries entries ++ [[Mark.close]])
  | .hole => []

def chunksItems : List Value → List Bytes
  | [] => []
  | v :: vs => v.chunks ++ chunksItems vs

def chunksEntries : List (Bytes × Value) → List Bytes
  | [] => []
  | (k, v) :: es => stringChunks k ++ v.chunks ++ chunksEntries es

end

mutual

/-- The pieces make up the encoding. -/
theorem flatten_chunks : (v : Value) → v.chunks.flatten = v.wire
  | .integer n => by simp [chunks, wire]
  | .bytes b => by simp [chunks, wire, flatten_stringChunks]
  | .list items => by simp [chunks, wire, flatten_chunksItems items]
  | .dict entries => by simp [chunks, wire, flatten_chunksEntries entries]
  | .hole => by simp [chunks, wire]

theorem flatten_chunksItems : (vs : List Value) → (chunksItems vs).flatten = wireItems vs
  | [] => by simp [chunksItems, wireItems]
  | v :: vs => by simp [chunksItems, wireItems, flatten_chunks v, flatten_chunksItems vs]

theorem flatten_chunksEntries :
    (es : List (Bytes × Value)) → (chunksEntries es).flatten = wireEntries es
  | [] => by simp [chunksEntries, wireEntries]
  | (k, v) :: es => by
    simp [chunksEntries, wireEntries, flatten_stringChunks, flatten_chunks v,
      flatten_chunksEntries es]

end

end Value

end Bencode
