import Bencode.Decimal
import Bencode.Text.Escape
import Bencode.Value

/-! # The JSON projection

A readable view of a tree: byte strings become text, lossily where they are not UTF-8, and the members
of an object are sorted by their text. Keys with equal text collide; the last in byte order counts.
-/
namespace Bencode

inductive Json where
  | null
  | number (n : Int)
  | string (s : String)
  | array (items : List Json)
  | object (members : List (String × Json))
  deriving Inhabited

/-- What separates the parts of a text: nothing, or line breaks and two spaces a level. -/
inductive Json.Layout where
  | compact
  | pretty
  deriving DecidableEq

namespace Value

mutual

def toJson : Value → Json
  | .integer n => .number n.toInt
  | .bytes b => .string (String.ofList (Utf8.lossy b))
  | .list items => .array (toJsonItems items)
  | .dict entries => .object (Entries.ofList (toJsonEntries entries))
  | .hole => .null

def toJsonItems : List Value → List Json
  | [] => []
  | v :: vs => v.toJson :: toJsonItems vs

def toJsonEntries : List (Bytes × Value) → List (String × Json)
  | [] => []
  | (k, v) :: es => (String.ofList (Utf8.lossy k), v.toJson) :: toJsonEntries es

end

end Value

namespace Json

/-- A character inside a JSON string. -/
def stringChar (c : Char) : List Char :=
  if c = '\x22' ∨ c = '\\' then ['\\', c]
  else if c = '\x08' then ['\\', 'b']
  else if c = '\x0c' then ['\\', 'f']
  else if c = '\n' then ['\\', 'n']
  else if c = '\r' then ['\\', 'r']
  else if c = '\t' then ['\\', 't']
  else if c.toNat < 0x20 then
    ['\\', 'u', '0', '0', Escape.hexDigit (c.toNat / 16), Escape.hexDigit (c.toNat % 16)]
  else [c]

def stringText (s : String) : List Char :=
  '\x22' :: (s.toList.flatMap stringChar ++ ['\x22'])

/-- The start of a line inside `level` containers. -/
def Layout.lineStart (layout : Layout) (level : Nat) : List Char :=
  match layout with
  | .compact => []
  | .pretty => '\n' :: List.replicate (2 * level) ' '

def Layout.colon : Layout → List Char
  | .compact => [':']
  | .pretty => [':', ' ']

/-- The comma before another part, if one follows. -/
def comma {α : Type} (rest : List α) : List Char := if rest.isEmpty then [] else [',']

mutual

/-- The text of a document inside `level` containers. -/
def text (layout : Layout) (level : Nat) : Json → List Char
  | .null => ['n', 'u', 'l', 'l']
  | .number n => Decimal.text n
  | .string s => stringText s
  | .array items =>
    if items.isEmpty then ['[', ']']
    else '[' :: (textItems layout (level + 1) items ++ layout.lineStart level ++ [']'])
  | .object members =>
    if members.isEmpty then ['\x7b', '\x7d']
    else '\x7b' :: (textMembers layout (level + 1) members ++ layout.lineStart level ++ ['\x7d'])

def textItems (layout : Layout) (level : Nat) : List Json → List Char
  | [] => []
  | j :: js => layout.lineStart level ++ text layout level j ++ comma js ++ textItems layout level js

def textMembers (layout : Layout) (level : Nat) : List (String × Json) → List Char
  | [] => []
  | (k, j) :: ms =>
    layout.lineStart level ++ stringText k ++ layout.colon ++ text layout level j ++ comma ms ++
      textMembers layout level ms

end

end Json

end Bencode
