import Bencode.Bytes

/-! # UTF-8, strict and lossy

`scan` looks at one lead byte and the bytes behind it and finds either a character or the maximal part
of an ill-formed sequence. Strict decoding fails on such a part, lossy decoding writes one
replacement character for it.
-/
namespace Bencode.Utf8

/-- What starts at a lead byte: a character, or an ill-formed sequence, with the number of
continuation bytes that belong to it. -/
inductive Scan where
  | char (c : Char) (tail : Nat)
  | broken (tail : Nat)
  deriving DecidableEq

/-- A continuation byte of any position. -/
def isTail (b : UInt8) : Bool := 0x80 ≤ b && b ≤ 0xBF

/-- The bytes allowed behind a lead byte: the bounds rule out overlong forms, surrogates and code
points above U+10FFFF. -/
def isSecond (lead b : UInt8) : Bool :=
  if lead = 0xE0 then 0xA0 ≤ b && b ≤ 0xBF
  else if lead = 0xED then 0x80 ≤ b && b ≤ 0x9F
  else if lead = 0xF0 then 0x90 ≤ b && b ≤ 0xBF
  else if lead = 0xF4 then 0x80 ≤ b && b ≤ 0x8F
  else isTail b

/-- The low six bits of a continuation byte. -/
def payload (b : UInt8) : Nat := b.toNat % 64

/-- How many continuation bytes a lead byte asks for; `none` if no sequence starts with it. -/
def tailLength? (lead : UInt8) : Option Nat :=
  if lead < 0x80 then some 0
  else if 0xC2 ≤ lead ∧ lead ≤ 0xDF then some 1
  else if 0xE0 ≤ lead ∧ lead ≤ 0xEF then some 2
  else if 0xF0 ≤ lead ∧ lead ≤ 0xF4 then some 3
  else none

def scan (lead : UInt8) (rest : Bytes) : Scan :=
  match tailLength? lead with
  | none => .broken 0
  | some 0 => .char (Char.ofNat lead.toNat) 0
  | some 1 =>
    match rest with
    | b :: _ =>
      if isSecond lead b then .char (Char.ofNat (lead.toNat % 32 * 64 + payload b)) 1 else .broken 0
    | [] => .broken 0
  | some 2 =>
    match rest with
    | b :: c :: _ =>
      if isSecond lead b then
        if isTail c then
          .char (Char.ofNat ((lead.toNat % 16 * 64 + payload b) * 64 + payload c)) 2
        else .broken 1
      else .broken 0
    | [b] => if isSecond lead b then .broken 1 else .broken 0
    | [] => .broken 0
  | some _ =>
    match rest with
    | b :: c :: d :: _ =>
      if isSecond lead b then
        if isTail c then
          if isTail d then
            .char (Char.ofNat
              (((lead.toNat % 8 * 64 + payload b) * 64 + payload c) * 64 + payload d)) 3
          else .broken 2
        else .broken 1
      else .broken 0
    | [b, c] => if isSecond lead b then (if isTail c then .broken 2 else .broken 1) else .broken 0
    | [b] => if isSecond lead b then .broken 1 else .broken 0
    | [] => .broken 0

/-- The characters of well-formed UTF-8. -/
def decode? : Bytes → Option (List Char)
  | [] => some []
  | b :: rest =>
    match scan b rest with
    | .char c tail => (decode? (rest.drop tail)).map (c :: ·)
    | .broken _ => none
termination_by bytes => bytes.length

def replacement : Char := '\uFFFD'

/-- The characters of any bytes, with one U+FFFD for each maximal part of an ill-formed sequence. -/
def lossy : Bytes → List Char
  | [] => []
  | b :: rest =>
    match scan b rest with
    | .char c tail => c :: lossy (rest.drop tail)
    | .broken tail => replacement :: lossy (rest.drop tail)
termination_by bytes => bytes.length

/-- The UTF-8 form of a character. -/
def encodeChar (c : Char) : Bytes :=
  let n := c.toNat
  if n < 0x80 then [n.toUInt8]
  else if n < 0x800 then [(0xC0 + n / 64).toUInt8, (0x80 + n % 64).toUInt8]
  else if n < 0x10000 then
    [(0xE0 + n / 4096).toUInt8, (0x80 + n / 64 % 64).toUInt8, (0x80 + n % 64).toUInt8]
  else
    [(0xF0 + n / 262144).toUInt8, (0x80 + n / 4096 % 64).toUInt8, (0x80 + n / 64 % 64).toUInt8,
      (0x80 + n % 64).toUInt8]

def encode (text : List Char) : Bytes := text.flatMap encodeChar

/-- Lossy decoding loses nothing where strict decoding succeeds. -/
theorem lossy_of_decode? {bytes : Bytes} {text : List Char} (h : decode? bytes = some text) :
    lossy bytes = text := by
  fun_induction decode? bytes generalizing text with
  | case1 => simpa [lossy] using h
  | case2 b rest c tail hs ih =>
    obtain ⟨more, hm, rfl⟩ := Option.map_eq_some_iff.1 h
    rw [lossy, hs]
    exact congrArg (c :: ·) (ih hm)
  | case3 => simp at h

end Bencode.Utf8
