import Bencode.Limits
import Bencode.Reader.Basic
import Bencode.Reader.Number

/-! # Reading value trees

`tree limits levels` reads one value that nests at most `levels` deep. Lists and dictionaries are
loops over the reader one level below; the levels left are what bounds the recursion, and the input
left is what bounds the loops.
-/
namespace Bencode.Reader

def integer (c : Cursor) : Outcome Value :=
  (number Mark.close c.next).andThen fun n c' => (.ok (.integer n), c'.next)

/-- A length, a colon and as many bytes. -/
def string (limits : Limits) (c : Cursor) : Outcome Bytes :=
  (number Mark.colon c).andThen fun n c' =>
    if n.toInt < 0 then c'.fail .negativeLength
    else if limits.maxStringLength < n.toInt.toNat then
      c'.fail (.stringTooLong n.toInt.toNat limits.maxStringLength)
    else c'.next.take n.toInt.toNat

theorem string_progress {limits : Limits} {c c' : Cursor} {b : Bytes}
    (h : string limits c = (.ok b, c')) : c'.rest.length < c.rest.length := by
  obtain ⟨n, c₁, h₁, h₂⟩ := Outcome.andThen_eq_ok.1 h
  obtain ⟨more, hm, hl⟩ := number_stop h₁
  have hn : c₁.next.rest.length < c₁.rest.length := Cursor.length_next_lt (by simp [hm])
  split at h₂
  · simp [Cursor.fail] at h₂
  · split at h₂
    · simp [Cursor.fail] at h₂
    · by_cases hn' : n.toInt.toNat ≤ c₁.next.rest.length
      · rw [Cursor.take_of_le hn', Prod.mk.injEq] at h₂
        rw [← h₂.2, Cursor.rest_advance, List.length_drop]
        omega
      · rw [Cursor.take_of_lt (by omega)] at h₂
        simp at h₂

/-- How a key breaks the order that strict dictionaries keep. -/
def orderFault? (limits : Limits) (previous : Option Bytes) (key : Bytes) : Option Fault :=
  match previous with
  | none => none
  | some p =>
    if !limits.strictKeys || p < key then none
    else if key = p then some (.duplicateKey key)
    else some (.keyOrder key)

/-- Entries up to the closing mark of a dictionary, which is consumed. A key out of order is reported
where it starts, although the cursor stands behind it. -/
def entries (limits : Limits) (item : Reader Value) (previous : Option Bytes) (c : Cursor) :
    Outcome (List (Bytes × Value)) :=
  match c.rest with
  | [] => c.fail (.unterminated .dict)
  | b :: _ =>
    if b = Mark.close then (.ok [], c.next)
    else if !isNumberByte b true then c.fail (.invalidKey b)
    else
      match _hk : string limits c with
      | (.error e, c₁) => (.error e, c₁)
      | (.ok key, c₁) =>
        match orderFault? limits previous key with
        | some fault => (.error (.malformed c.offset fault), c₁)
        | none =>
          match _hv : item.run c₁ with
          | (.error e, c₂) => (.error e, c₂)
          | (.ok v, c₂) => (entries limits item (some key) c₂).map ((key, v) :: ·)
termination_by c.rest.length
decreasing_by exact Nat.lt_trans (item.progress _hv) (string_progress _hk)

theorem entries_progress {limits : Limits} {item : Reader Value} {previous : Option Bytes}
    {c c' : Cursor} {es : List (Bytes × Value)}
    (h : entries limits item previous c = (.ok es, c')) : c'.rest.length < c.rest.length := by
  fun_induction entries limits item previous c generalizing es c' with
  | case1 => simp [Cursor.fail] at h
  | case2 previous c rest hc =>
    simp only [Prod.mk.injEq] at h
    rw [← h.2]
    exact Cursor.length_next_lt (by simp [hc])
  | case3 => simp [Cursor.fail] at h
  | case4 => simp at h
  | case5 => simp at h
  | case6 => simp at h
  | case7 previous c b rest hc hb hd key c₁ hk ho v c₂ hv ih =>
    obtain ⟨fs, hr, -⟩ := Outcome.map_eq_ok.1 h
    exact Nat.lt_trans (ih hr) (Nat.lt_trans (item.progress hv) (string_progress hk))

/-- One value whose children are read by `item`. -/
def value (limits : Limits) (item : Reader Value) (c : Cursor) : Outcome Value :=
  match c.rest with
  | [] => c.fail .unexpectedEnd
  | b :: _ =>
    if b = Mark.integer then integer c
    else if b = Mark.list then (items item c.next).map .list
    else if b = Mark.dict then (entries limits item none c.next).map Value.ofEntries
    else if isDigit b then (string limits c).map .bytes
    else c.fail (.invalidLead b)

theorem value_progress {limits : Limits} {item : Reader Value} {c c' : Cursor} {v : Value}
    (h : value limits item c = (.ok v, c')) : c'.rest.length < c.rest.length := by
  simp only [value] at h
  split at h
  · simp [Cursor.fail] at h
  · next b rest hc =>
    have hn := Cursor.length_next_lt (c := c) (by simp [hc])
    split at h
    · obtain ⟨n, c₁, h₁, h₂⟩ := Outcome.andThen_eq_ok.1 h
      obtain ⟨more, -, hl⟩ := number_stop h₁
      simp only [Prod.mk.injEq] at h₂
      have := c₁.length_next_le
      rw [← h₂.2]
      omega
    · split at h
      · obtain ⟨vs, hr, -⟩ := Outcome.map_eq_ok.1 h
        exact Nat.lt_trans (items_progress hr) hn
      · split at h
        · obtain ⟨es, hr, -⟩ := Outcome.map_eq_ok.1 h
          exact Nat.lt_trans (entries_progress hr) hn
        · split at h
          · obtain ⟨b, hr, -⟩ := Outcome.map_eq_ok.1 h
            exact string_progress hr
          · simp [Cursor.fail] at h

/-- One value that nests at most `levels` deep. -/
def tree (limits : Limits) : (levels : Nat) → Reader Value
  | 0 => failing (.tooDeep limits.maxDepth)
  | levels + 1 => {
      run := fun c => value limits (tree limits levels) c
      progress := value_progress }

/-- One value and nothing after it. -/
def document (limits : Limits) (c : Cursor) : Outcome Value :=
  ((tree limits limits.maxDepth).run c).andThen fun v c' =>
    if c'.rest.isEmpty then (.ok v, c') else c'.fail .trailingData

end Bencode.Reader

namespace Bencode

/-- Decodes a whole input. -/
def decode (data : Bytes) (limits : Limits := {}) : Except Error Value :=
  (Reader.document limits (Cursor.ofBytes data)).1

end Bencode
