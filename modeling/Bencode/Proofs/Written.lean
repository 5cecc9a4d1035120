import Bencode.Limits
import Bencode.Proofs.Decimal
import Bencode.Proofs.Settled

/-! # Trees that may stand on the wire

`WellWritten` is what the wire form asks of a tree whatever its size, `Within` what the limits ask.
Both pass to children and back, so that the reader's loops can be followed child by child.
-/
namespace Bencode

namespace Value

/-- A tree as it may stand on the wire: assigned throughout, with lengths that fit a number, and with
sorted keys if order is strict. -/
structure WellWritten (strict : Bool) (w : Value) : Prop where
  holeFree : w.HoleFree
  sorted : strict = true → w.Sorted
  length_lt : ∀ s ∈ w.strings, s.length < 2 ^ 63

/-- At most `levels` deep, with no byte string above the limit. -/
structure Within (limits : Limits) (levels : Nat) (w : Value) : Prop where
  depth_le : w.depth ≤ levels
  length_le : ∀ s ∈ w.strings, s.length ≤ limits.maxStringLength

variable {strict : Bool} {limits : Limits} {levels : Nat}

theorem WellWritten.relax {w : Value} (h : w.WellWritten true) (strict : Bool) :
    w.WellWritten strict :=
  ⟨h.holeFree, fun _ => h.sorted rfl, h.length_lt⟩

theorem WellWritten.settled {w : Value} (h : w.WellWritten strict) : w.settled.WellWritten true :=
  ⟨holeFree_settled h.holeFree, fun _ => sorted_settled w,
    fun s hs => h.length_lt s (strings_settled_subset w hs)⟩

theorem Within.settled {w : Value} (h : w.Within limits levels) : w.settled.Within limits levels :=
  ⟨Nat.le_trans (depth_settled_le w) h.depth_le,
    fun s hs => h.length_le s (strings_settled_subset w hs)⟩

theorem wellWritten_list {ws : List Value} :
    (list ws).WellWritten strict ↔ ∀ w ∈ ws, w.WellWritten strict := by
  constructor
  · intro h w hw
    exact ⟨holeFree_list.1 h.holeFree w hw, fun hs => sorted_list.1 (h.sorted hs) w hw,
      fun s hs => h.length_lt s (mem_strings_list.2 ⟨w, hw, hs⟩)⟩
  · intro h
    refine ⟨holeFree_list.2 fun w hw => (h w hw).holeFree,
      fun hs => sorted_list.2 fun w hw => (h w hw).sorted hs, fun s hs => ?_⟩
    obtain ⟨w, hw, hs⟩ := mem_strings_list.1 hs
    exact (h w hw).length_lt s hs

theorem wellWritten_dict {es : List (Bytes × Value)} :
    (dict es).WellWritten strict ↔ (strict = true → Entries.Sorted es) ∧
      ∀ e ∈ es, e.1.length < 2 ^ 63 ∧ e.2.WellWritten strict := by
  constructor
  · intro h
    refine ⟨fun hs => (sorted_dict.1 (h.sorted hs)).1, fun e he => ⟨?_, ?_, ?_, ?_⟩⟩
    · exact h.length_lt e.1 (mem_strings_dict.2 ⟨e, he, .inl rfl⟩)
    · exact holeFree_dict.1 h.holeFree e he
    · exact fun hs => (sorted_dict.1 (h.sorted hs)).2 e he
    · exact fun s hs => h.length_lt s (mem_strings_dict.2 ⟨e, he, .inr hs⟩)
  · rintro ⟨hsorted, h⟩
    refine ⟨holeFree_dict.2 fun e he => (h e he).2.holeFree,
      fun hs => sorted_dict.2 ⟨hsorted hs, fun e he => (h e he).2.sorted hs⟩, fun s hs => ?_⟩
    obtain ⟨e, he, rfl | hs⟩ := mem_strings_dict.1 hs
    · exact (h e he).1
    · exact (h e he).2.length_lt s hs

theorem within_list {ws : List Value} :
    (list ws).Within limits (levels + 1) ↔ ∀ w ∈ ws, w.Within limits levels := by
  constructor
  · rintro ⟨hd, hl⟩ w hw
    rw [depth, Nat.add_le_add_iff_right, depthItems_le_iff] at hd
    exact ⟨hd w hw, fun s hs => hl s (mem_strings_list.2 ⟨w, hw, hs⟩)⟩
  · intro h
    refine ⟨?_, fun s hs => ?_⟩
    · rw [depth, Nat.add_le_add_iff_right, depthItems_le_iff]
      exact fun w hw => (h w hw).depth_le
    · obtain ⟨w, hw, hs⟩ := mem_strings_list.1 hs
      exact (h w hw).length_le s hs

theorem within_dict {es : List (Bytes × Value)} :
    (dict es).Within limits (levels + 1) ↔
      ∀ e ∈ es, e.1.length ≤ limits.maxStringLength ∧ e.2.Within limits levels := by
  constructor
  · rintro ⟨hd, hl⟩ e he
    rw [depth, Nat.add_le_add_iff_right, depthEntries_le_iff] at hd
    exact ⟨hl e.1 (mem_strings_dict.2 ⟨e, he, .inl rfl⟩), hd e he,
      fun s hs => hl s (mem_strings_dict.2 ⟨e, he, .inr hs⟩)⟩
  · intro h
    refine ⟨?_, fun s hs => ?_⟩
    · rw [depth, Nat.add_le_add_iff_right, depthEntries_le_iff]
      exact fun e he => (h e he).2.depth_le
    · obtain ⟨e, he, rfl | hs⟩ := mem_strings_dict.1 hs
      · exact (h e he).1
      · exact (h e he).2.length_le s hs

end Value

theorem exists_stringWire_eq_cons (b : Bytes) :
    ∃ d t, stringWire b = d :: t ∧ isDigit d = true :=
  Decimal.exists_digits_append_eq_cons b.length (Mark.colon :: b)

namespace Value

/-- The kind of a tree that begins with the given byte. -/
def leadKind? (b : UInt8) : Option Kind :=
  if b = Mark.integer then some .integer
  else if b = Mark.list then some .list
  else if b = Mark.dict then some .dict
  else if isDigit b then some .bytes
  else none

theorem leadKind?_of_isDigit {b : UInt8} (h : isDigit b = true) : leadKind? b = some .bytes := by
  rw [leadKind?, if_neg (ne_of_isDigit h rfl), if_neg (ne_of_isDigit h rfl),
    if_neg (ne_of_isDigit h rfl), if_pos h]

theorem leadKind?_eq_none {b : UInt8} (hi : b ≠ Mark.integer) (hl : b ≠ Mark.list)
    (hd : b ≠ Mark.dict) (hn : isDigit b = false) : leadKind? b = none := by
  simp [leadKind?, hi, hl, hd, hn]

/-- The first byte of a tree tells its kind, and that no container ends there. -/
theorem exists_wire_eq_cons {w : Value} (h : w.HoleFree) :
    ∃ b t, w.wire = b :: t ∧ leadKind? b = some w.kind ∧ b ≠ Mark.close := by
  cases w with
  | integer n => exact ⟨_, _, by rw [wire], rfl, by decide⟩
  | bytes b =>
    obtain ⟨d, t, ht, hd⟩ := exists_stringWire_eq_cons b
    exact ⟨d, t, by rw [wire, ht], leadKind?_of_isDigit hd, ne_of_isDigit hd rfl⟩
  | list ws => exact ⟨_, _, by rw [wire], rfl, by decide⟩
  | dict es => exact ⟨_, _, by rw [wire], rfl, by decide⟩
  | hole => exact h.elim

end Value

end Bencode
