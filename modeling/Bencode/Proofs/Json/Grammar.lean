import Bencode.Json

/-! # The grammar of JSON

    text    := space value space
    value   := 'null' | 'true' | 'false' | number | string
             | '[' (space | parts value) ']' | '{' (space | parts member) '}'
    parts p := space p space (',' space p space)*
    member  := string space ':' space value
    number  := '-'? ('0' | digit19 digit*) ('.' digit+)? (('e' | 'E') ('+' | '-')? digit+)?
    string  := '"' (unescaped | '\' escape | '\u' hex hex hex hex)* '"'

`Denotes` relates a text to the document that it spells by these rules. A number is exact whatever its
fraction and exponent, and the members of an object are kept in the order of the text, repeated names
included. Four hexadecimal digits name a code unit of UTF-16.
-/
namespace Bencode.Json

inductive Content where
  | null
  | boolean (b : Bool)
  | number (q : Rat)
  | string (s : String)
  | array (items : List Content)
  | object (members : List (String × Content))

def isSpace (c : Char) : Bool := c = ' ' || c = '\t' || c = '\n' || c = '\r'

def Space (text : List Char) : Prop := ∀ c ∈ text, isSpace c = true

def Digits (text : List Char) : Prop := text ≠ [] ∧ ∀ c ∈ text, c.isDigit = true

def digitsValue (text : List Char) : Nat := text.foldl (fun n c => 10 * n + (c.toNat - 48)) 0

/-- Digits without a leading zero. -/
inductive Integral : List Char → Prop where
  | zero : Integral ['0']
  | positive {d : Char} {ds : List Char} (h₀ : d ≠ '0') (h : Digits (d :: ds)) : Integral (d :: ds)

/-- The fraction of a number, if there is one, by its digits. -/
inductive Fraction : List Char → List Char → Prop where
  | absent : Fraction [] []
  | present {ds : List Char} (h : Digits ds) : Fraction ('.' :: ds) ds

inductive Signed : List Char → Int → Prop where
  | bare {ds : List Char} (h : Digits ds) : Signed ds (digitsValue ds)
  | plus {ds : List Char} (h : Digits ds) : Signed ('+' :: ds) (digitsValue ds)
  | minus {ds : List Char} (h : Digits ds) : Signed ('-' :: ds) (-(digitsValue ds : Int))

/-- The exponent of a number, which is zero if there is none. -/
inductive Exponent : List Char → Int → Prop where
  | absent : Exponent [] 0
  | present {e : Char} {text : List Char} {n : Int} (he : e = 'e' ∨ e = 'E') (h : Signed text n) :
      Exponent (e :: text) n

/-- The number whose digits, before and after the point, are given. -/
def decimal (before after : List Char) (exponent : Int) : Rat :=
  digitsValue (before ++ after) * 10 ^ (exponent - after.length)

inductive Unsigned : List Char → Rat → Prop where
  | intro {i f ds e : List Char} {n : Int} (hi : Integral i) (hf : Fraction f ds)
      (he : Exponent e n) : Unsigned (i ++ f ++ e) (decimal i ds n)

inductive Number : List Char → Rat → Prop where
  | positive {text : List Char} {q : Rat} (h : Unsigned text q) : Number text q
  | negative {text : List Char} {q : Rat} (h : Unsigned text q) : Number ('-' :: text) (-q)

/-- What a string is put together of: a character, or a code unit by its number. -/
inductive Element where
  | char (c : Char)
  | unit (n : Nat)

def hexDigit? (c : Char) : Option Nat :=
  if '0' ≤ c ∧ c ≤ '9' then some (c.toNat - 48)
  else if 'a' ≤ c ∧ c ≤ 'f' then some (c.toNat - 87)
  else if 'A' ≤ c ∧ c ≤ 'F' then some (c.toNat - 55)
  else none

/-- The character that is meant by one with a backslash in front. -/
def escaped? : Char → Option Char
  | '\x22' => some '\x22'
  | '\\' => some '\\'
  | '/' => some '/'
  | 'b' => some '\x08'
  | 'f' => some '\x0c'
  | 'n' => some '\n'
  | 'r' => some '\r'
  | 't' => some '\t'
  | _ => none

inductive Elements : List Char → List Element → Prop where
  | nil : Elements [] []
  | unescaped {c : Char} {text : List Char} {es : List Element} (hc : 0x20 ≤ c.toNat)
      (hquote : c ≠ '\x22') (hbackslash : c ≠ '\\') (h : Elements text es) :
      Elements (c :: text) (.char c :: es)
  | escaped {c d : Char} {text : List Char} {es : List Element} (hc : escaped? c = some d)
      (h : Elements text es) : Elements ('\\' :: c :: text) (.char d :: es)
  | numbered {c₁ c₂ c₃ c₄ : Char} {n₁ n₂ n₃ n₄ : Nat} {text : List Char} {es : List Element}
      (h₁ : hexDigit? c₁ = some n₁) (h₂ : hexDigit? c₂ = some n₂) (h₃ : hexDigit? c₃ = some n₃)
      (h₄ : hexDigit? c₄ = some n₄) (h : Elements text es) :
      Elements ('\\' :: 'u' :: c₁ :: c₂ :: c₃ :: c₄ :: text)
        (.unit (((n₁ * 16 + n₂) * 16 + n₃) * 16 + n₄) :: es)

def isHigh (n : Nat) : Bool := 0xD800 ≤ n && n ≤ 0xDBFF

def isLow (n : Nat) : Bool := 0xDC00 ≤ n && n ≤ 0xDFFF

/-- The character of a code unit that is not one of a pair. A surrogate has none. -/
def alone (n : Nat) : Char := if isHigh n || isLow n then Utf8.replacement else Char.ofNat n

/-- The characters of a string: a high and a low surrogate next to each other are one. -/
def characters : List Element → List Char
  | [] => []
  | .char c :: es => c :: characters es
  | .unit n :: .unit m :: es =>
    if isHigh n && isLow m then
      Char.ofNat (0x10000 + (n - 0xD800) * 0x400 + (m - 0xDC00)) :: characters es
    else alone n :: characters (.unit m :: es)
  | .unit n :: es => alone n :: characters es

/-- The rule for strings, from behind the opening quote on. -/
inductive Quoted : List Char → String → Prop where
  | intro {text : List Char} {es : List Element} (h : Elements text es) :
      Quoted (text ++ ['\x22']) (String.ofList (characters es))

section
variable {α : Type}

/-- One part or more, with commas between them and space around them. -/
inductive Parts (P : List Char → α → Prop) : List Char → List α → Prop where
  | one {w₁ text w₂ : List Char} {x : α} (hw₁ : Space w₁) (hx : P text x) (hw₂ : Space w₂) :
      Parts P (w₁ ++ text ++ w₂) [x]
  | more {w₁ text w₂ more : List Char} {x : α} {xs : List α} (hw₁ : Space w₁) (hx : P text x)
      (hw₂ : Space w₂) (hxs : Parts P more xs) : Parts P (w₁ ++ text ++ w₂ ++ ',' :: more) (x :: xs)

/-- The parts of a container, from behind its opening character on. -/
inductive Enclosed (close : Char) (P : List Char → α → Prop) : List Char → List α → Prop where
  | empty {w : List Char} (hw : Space w) : Enclosed close P (w ++ [close]) []
  | parts {text : List Char} {xs : List α} (h : Parts P text xs) : Enclosed close P (text ++ [close]) xs

/-- A name and what it stands for. -/
inductive Member (P : List Char → α → Prop) : List Char → String × α → Prop where
  | intro {name w₁ w₂ text : List Char} {k : String} {x : α} (hk : Quoted name k) (hw₁ : Space w₁)
      (hw₂ : Space w₂) (hx : P text x) :
      Member P ('\x22' :: (name ++ w₁ ++ ':' :: (w₂ ++ text))) (k, x)

end

inductive Denotes : List Char → Content → Prop where
  | null : Denotes ['n', 'u', 'l', 'l'] .null
  | true : Denotes ['t', 'r', 'u', 'e'] (.boolean true)
  | false : Denotes ['f', 'a', 'l', 's', 'e'] (.boolean false)
  | number {text : List Char} {q : Rat} (h : Number text q) : Denotes text (.number q)
  | string {text : List Char} {s : String} (h : Quoted text s) : Denotes ('\x22' :: text) (.string s)
  | array {text : List Char} {items : List Content} (h : Enclosed ']' Denotes text items) :
      Denotes ('[' :: text) (.array items)
  | object {text : List Char} {members : List (String × Content)}
      (h : Enclosed '\x7d' (Member Denotes) text members) :
      Denotes ('\x7b' :: text) (.object members)

/-- The rule for a text as a whole. -/
inductive Spells : List Char → Content → Prop where
  | intro {w₁ text w₂ : List Char} {d : Content} (hw₁ : Space w₁) (h : Denotes text d)
      (hw₂ : Space w₂) : Spells (w₁ ++ text ++ w₂) d

end Bencode.Json
