import Bencode.Input
import Bencode.Proofs.Reader.Acceptance

/-! # Places in a document that is being read

`Awaits limits start c next` says, in terms of the grammar and the limits alone, that the text from
`start` up to `c` begins a document and what has to come next. The rules go down into containers and
on from one part to the one behind it; where one byte decides what comes next, they look at that byte.
-/
namespace Bencode
open Cursor

/-- The cursor at a position of the data. -/
def place (data : Bytes) (position : Nat) : Cursor := Input.cursor ⟨data, position⟩

section Place
variable {data : Bytes} {m : Nat}

theorem eq_length_of_rest_place (hm : m ≤ data.length) (h : (place data m).rest = []) :
    m = data.length := by
  have hl : data.length ≤ m := List.drop_eq_nil_iff.1 h
  exact Nat.le_antisymm hm hl

theorem getElem?_of_rest_place {b : UInt8} {rest : Bytes} (h : (place data m).rest = b :: rest) :
    data[m]? = some b := by
  have hd : data.drop m = b :: rest := h
  rw [← List.head?_drop, hd, List.head?_cons]

/-- Moving forward from a position leads to a position. -/
theorem exists_place_of_reaches {start : Nat} {c : Cursor} (hs : start ≤ data.length)
    (h : (place data start).Reaches c) : ∃ m, start ≤ m ∧ m ≤ data.length ∧ c = place data m := by
  obtain ⟨offset, rest⟩ := c
  obtain ⟨text, ht, ho⟩ := h
  have hrest : data.drop start = text ++ rest := ht
  have hoffset : offset = start + text.length := ho
  have hlength : data.length - start = text.length + rest.length := by
    rw [← List.length_drop, hrest, List.length_append]
  have hdrop : data.drop offset = rest := by
    rw [hoffset, ← List.drop_drop, hrest, List.drop_left]
  refine ⟨offset, by omega, by omega, ?_⟩
  rw [place, Input.cursor, hdrop]

/-- A document that is read from a position ends where the data end. -/
theorem place_of_document_eq_ok {start : Nat} {limits : Limits} {v : Value} {c : Cursor}
    (hs : start ≤ data.length) (h : Reader.document limits (place data start) = (.ok v, c)) :
    c = place data data.length := by
  have hreach : (place data start).Reaches c := by
    have hr := Reader.reaches_document limits (place data start)
    rwa [h] at hr
  obtain ⟨m, -, hm, rfl⟩ := exists_place_of_reaches hs hreach
  rw [eq_length_of_rest_place hm (Reader.document_eq_ok_iff.1 h).2]

end Place

/-- What has to come next: a value that nests at most `levels` deep, an item of a list or its closing
mark, a key of a dictionary or its closing mark, or a number that the given byte ends. -/
inductive Awaited where
  | value (levels : Nat)
  | item (levels : Nat)
  | key (levels : Nat) (previous : Option Bytes)
  | number (terminator : UInt8)

/-- Between the cursors stands a key that keeps to the limits and to the order. -/
structure KeyWritten (limits : Limits) (previous : Option Bytes) (key : Bytes) (c c' : Cursor) :
    Prop where
  length_le : key.length ≤ limits.maxStringLength
  length_lt : key.length < 2 ^ 63
  passes : c.Passes (stringWire key) c'
  above : limits.strictKeys = true → ∀ p ∈ previous, p < key

-- A value with no level left is refused before its first byte is looked at, so every rule that opens a
-- value asks for `levels + 1`. `item` looks one byte ahead: only an item can follow if the list is not
-- closed here.
inductive Awaits (limits : Limits) (start : Cursor) : Cursor → Awaited → Prop where
  | root : Awaits limits start start (.value limits.maxDepth)
  | list {c : Cursor} {levels : Nat} {rest : Bytes} (h : Awaits limits start c (.value (levels + 1)))
      (hc : c.rest = Mark.list :: rest) : Awaits limits start c.next (.item levels)
  | item {c : Cursor} {levels : Nat} {b : UInt8} {rest : Bytes}
      (h : Awaits limits start c (.item levels)) (hc : c.rest = b :: rest) (hb : b ≠ Mark.close) :
      Awaits limits start c (.value levels)
  | items {c c' : Cursor} {levels : Nat} {v : Value} (h : Awaits limits start c (.item levels))
      (hv : Reader.Written limits levels v c c') : Awaits limits start c' (.item levels)
  | dict {c : Cursor} {levels : Nat} {rest : Bytes} (h : Awaits limits start c (.value (levels + 1)))
      (hc : c.rest = Mark.dict :: rest) : Awaits limits start c.next (.key levels none)
  | entry {c c' : Cursor} {levels : Nat} {previous : Option Bytes} {key : Bytes}
      (h : Awaits limits start c (.key levels previous))
      (hk : KeyWritten limits previous key c c') : Awaits limits start c' (.value levels)
  | entries {c c₁ c' : Cursor} {levels : Nat} {previous : Option Bytes} {key : Bytes} {v : Value}
      (h : Awaits limits start c (.key levels previous))
      (hk : KeyWritten limits previous key c c₁) (hv : Reader.Written limits levels v c₁ c') :
      Awaits limits start c' (.key levels (some key))
  | integer {c : Cursor} {levels : Nat} {rest : Bytes}
      (h : Awaits limits start c (.value (levels + 1))) (hc : c.rest = Mark.integer :: rest) :
      Awaits limits start c.next (.number Mark.close)
  | length {c : Cursor} {levels : Nat} {b : UInt8} {rest : Bytes}
      (h : Awaits limits start c (.value (levels + 1))) (hc : c.rest = b :: rest)
      (hb : isDigit b = true) : Awaits limits start c (.number Mark.colon)
  | keyLength {c : Cursor} {levels : Nat} {previous : Option Bytes} {b : UInt8} {rest : Bytes}
      (h : Awaits limits start c (.key levels previous)) (hc : c.rest = b :: rest)
      (hb : Reader.isNumberByte b true = true) : Awaits limits start c (.number Mark.colon)

namespace Reader

theorem Written.reaches {limits : Limits} {levels : Nat} {v : Value} {c c' : Cursor}
    (h : Written limits levels v c c') : c.Reaches c' := by
  obtain ⟨w, -, -, -, hp⟩ := h
  exact hp.reaches

end Reader

theorem Awaits.reaches {limits : Limits} {start c : Cursor} {next : Awaited}
    (h : Awaits limits start c next) : start.Reaches c := by
  induction h with
  | root => exact .refl start
  | list _ _ ih => exact ih.trans (reaches_next _)
  | item _ _ _ ih => exact ih
  | items _ hv ih => exact ih.trans hv.reaches
  | dict _ _ ih => exact ih.trans (reaches_next _)
  | entry _ hk ih => exact ih.trans hk.passes.reaches
  | entries _ hk hv ih => exact ih.trans (hk.passes.reaches.trans hv.reaches)
  | integer _ _ ih => exact ih.trans (reaches_next _)
  | length _ _ _ ih => exact ih
  | keyLength _ _ _ ih => exact ih

end Bencode
