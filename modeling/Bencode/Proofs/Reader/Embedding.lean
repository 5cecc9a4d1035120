import Bencode.Proofs.Reader.Tree

/-! # Reading in a longer input

`Cursor.embed n s` is the same place in an input with `n` more bytes in front and the text `s` behind.
What stands in front only moves the offsets. What stands behind is not looked at, unless the shorter
input ended inside what was to be read. `Embeds` relates the two outcomes; it passes through a chain of
readers, so that each reader is compared with itself once.
-/
namespace Bencode

/-- The input ended inside what was to be read. -/
def Fault.isTruncation : Fault → Bool
  | .unexpectedEnd | .unterminated _ => true
  | _ => false

/-- An error that more input may cure. -/
def Error.isTruncation : Error → Bool
  | .malformed _ fault => fault.isTruncation
  | .sourceExhausted _ _ => true
  | _ => false

/-- The same error with `n` more bytes in front: offsets move, and nothing else speaks of places. -/
def Error.shift (n : Nat) : Error → Error
  | .malformed offset fault => .malformed (offset + n) fault
  | e => e

def Cursor.embed (n : Nat) (s : Bytes) (c : Cursor) : Cursor := ⟨c.offset + n, c.rest ++ s⟩

namespace Cursor
variable {n : Nat} {s : Bytes} {c : Cursor}

theorem rest_embed {b : UInt8} {rest : Bytes} (h : c.rest = b :: rest) :
    (c.embed n s).rest = b :: (rest ++ s) := by
  rw [embed, h, List.cons_append]

theorem embed_nil : c.embed n [] = ⟨c.offset + n, c.rest⟩ := by
  rw [embed, List.append_nil]

theorem rest_embed_nil (h : c.rest = []) : (c.embed n []).rest = [] := by
  rw [embed_nil, h]

theorem next_embed {b : UInt8} {rest : Bytes} (h : c.rest = b :: rest) :
    (c.embed n s).next = c.next.embed n s := by
  obtain ⟨offset, _⟩ := c
  subst h
  simp only [embed, List.cons_append, next_cons, Nat.add_right_comm]

theorem advance_embed {len : Nat} (h : len ≤ c.rest.length) :
    (c.embed n s).advance len = (c.advance len).embed n s := by
  simp only [embed, advance, List.drop_append_of_le_length h, Nat.add_right_comm]

end Cursor

namespace Outcome
variable {α β : Type}

def embed (n : Nat) (s : Bytes) (r : Outcome α) : Outcome α :=
  (r.1.mapError (Error.shift n), r.2.embed n s)

def isTruncated (r : Outcome α) : Bool :=
  match r.1 with
  | .error e => e.isTruncation
  | .ok _ => false

@[simp] theorem embed_ok (n : Nat) (s : Bytes) (a : α) (c : Cursor) :
    embed n s (.ok a, c) = (.ok a, c.embed n s) := rfl

@[simp] theorem embed_error (n : Nat) (s : Bytes) (e : Error) (c : Cursor) :
    embed n s ((.error e, c) : Outcome α) = (.error (e.shift n), c.embed n s) := rfl

end Outcome

/-- The second outcome is the first in the longer input, unless the first one is cut off and there is
more to read. -/
def Embeds {α : Type} (n : Nat) (s : Bytes) (r r' : Outcome α) : Prop :=
  s = [] ∨ r.isTruncated = false → r' = r.embed n s

namespace Embeds
variable {α β : Type} {n : Nat} {s : Bytes} {r r' : Outcome α} {c : Cursor}

theorem ok (a : α) (c : Cursor) : Embeds n s (.ok a, c) (.ok a, c.embed n s) := fun _ => rfl

theorem fail (c : Cursor) (fault : Fault) :
    Embeds n s (c.fail fault : Outcome α) ((c.embed n s).fail fault) := fun _ => rfl

/-- A reader that was cut off has to be compared only where nothing was added behind. -/
theorem of_truncated (ht : r.isTruncated = true) (h : s = [] → r' = r.embed n s) :
    Embeds n s r r' := by
  rintro (hs | hr)
  · exact h hs
  · exact absurd (ht.symm.trans hr) (by decide)

theorem andThen {f g : α → Cursor → Outcome β} (h : Embeds n s r r')
    (hf : ∀ a c, r = (.ok a, c) → Embeds n s (f a c) (g a (c.embed n s))) :
    Embeds n s (r.andThen f) (r'.andThen g) := by
  obtain ⟨e | a, c⟩ := r
  · intro hs
    rw [h hs]
    rfl
  · intro hs
    rw [h (.inr rfl)]
    exact hf a c rfl hs

theorem map (f : α → β) (h : Embeds n s r r') : Embeds n s (r.map f) (r'.map f) := by
  rw [Outcome.map_eq_andThen, Outcome.map_eq_andThen]
  exact h.andThen fun a c _ => .ok (f a) c

end Embeds

namespace Reader
open Cursor

variable {n : Nat} {s : Bytes} {limits : Limits} {item : Reader Value}

-- The text read so far stays the same: only the end of the input can tell the two runs apart.
theorem collect_embeds (n : Nat) (s : Bytes) (terminator : UInt8) (text : Bytes) (offset : Nat)
    (rest : Bytes) :
    Embeds n s (collect terminator text offset rest)
      (collect terminator text (offset + n) (rest ++ s)) := by
  fun_induction collect terminator text offset rest with
  | case1 text offset =>
    refine .of_truncated rfl fun hs => ?_
    subst hs
    rfl
  | case2 text offset rest =>
    rw [List.cons_append, collect, if_pos rfl]
    exact .ok text _
  | case3 text offset b rest ht hb =>
    rw [List.cons_append, collect, if_neg ht, if_pos hb]
    exact .fail _ _
  | case4 text offset b rest ht hb hl =>
    rw [List.cons_append, collect, if_neg ht, if_neg hb, if_pos hl]
    exact .fail _ _
  | case5 text offset b rest ht hb hl ih =>
    rw [List.cons_append, collect, if_neg ht, if_neg hb, if_neg hl, Nat.add_right_comm]
    exact ih

theorem numberOf_add (n offset : Nat) (text : Bytes) :
    numberOf (offset + n) text = (numberOf offset text).mapError (Error.shift n) := by
  unfold numberOf
  dsimp only
  split
  · rfl
  · split <;> rfl

theorem number_embeds (n : Nat) (s : Bytes) (terminator : UInt8) (c : Cursor) :
    Embeds n s (number terminator c) (number terminator (c.embed n s)) := by
  refine (collect_embeds n s terminator [] c.offset c.rest).andThen fun text c₁ _ => ?_
  intro _
  rw [Outcome.embed, ← numberOf_add]
  rfl

theorem take_embeds (n : Nat) (s : Bytes) (c : Cursor) (len : Nat) :
    Embeds n s (c.take len) ((c.embed n s).take len) := by
  by_cases hl : len ≤ c.rest.length
  · have hl' : len ≤ (c.rest ++ s).length := by
      rw [List.length_append]
      omega
    have htake : (c.rest ++ s).take len = c.rest.take len := List.take_append_of_le_length hl
    rw [take_of_le hl, take_of_le (c := c.embed n s) hl', advance_embed hl, embed, htake]
    exact .ok _ (c.advance len)
  · rw [take_of_lt (Nat.not_le.1 hl)]
    refine .of_truncated rfl fun hs => ?_
    subst hs
    rw [embed_nil, take_of_lt (c := ⟨c.offset + n, c.rest⟩) (Nat.not_le.1 hl), Outcome.embed_error,
      embed_nil]
    rfl

theorem integer_embeds (n : Nat) (s : Bytes) {c : Cursor} {b : UInt8} {rest : Bytes}
    (h : c.rest = b :: rest) : Embeds n s (integer c) (integer (c.embed n s)) := by
  rw [integer, integer, next_embed h]
  refine (number_embeds n s Mark.close c.next).andThen fun m c₁ hm => ?_
  obtain ⟨more, hc, -⟩ := number_stop hm
  rw [next_embed hc]
  exact .ok _ _

theorem string_embeds (n : Nat) (s : Bytes) (limits : Limits) (c : Cursor) :
    Embeds n s (string limits c) (string limits (c.embed n s)) := by
  refine (number_embeds n s Mark.colon c).andThen fun m c₁ hm => ?_
  obtain ⟨more, hc, -⟩ := number_stop hm
  split
  · exact .fail c₁ _
  · split
    · exact .fail c₁ _
    · rw [next_embed hc]
      exact take_embeds n s c₁.next _

theorem items_embeds (hitem : ∀ c, Embeds n s (item.run c) (item.run (c.embed n s))) (c : Cursor) :
    Embeds n s (items item c) (items item (c.embed n s)) := by
  induction c using items_induction item with
  | nil c hr =>
    rw [items_nil hr]
    refine .of_truncated rfl fun hs => ?_
    subst hs
    rw [items_nil (rest_embed_nil hr)]
    rfl
  | close c rest hr =>
    rw [items_close hr, items_close (rest_embed hr), next_embed hr]
    exact .ok _ _
  | cons c b rest hr hb ih =>
    rw [items_cons hr hb, items_cons (rest_embed hr) hb]
    exact (hitem c).andThen fun v c₁ hv => (ih v c₁ hv).map _

theorem entries_embeds (hitem : ∀ c, Embeds n s (item.run c) (item.run (c.embed n s)))
    (previous : Option Bytes) (c : Cursor) :
    Embeds n s (entries limits item previous c) (entries limits item previous (c.embed n s)) := by
  induction previous, c using entries_induction limits item with
  | nil previous c hr =>
    rw [entries_nil hr]
    refine .of_truncated rfl fun hs => ?_
    subst hs
    rw [entries_nil (rest_embed_nil hr)]
    rfl
  | close previous c rest hr =>
    rw [entries_close hr, entries_close (rest_embed hr), next_embed hr]
    exact .ok _ _
  | invalid previous c b rest hr hb hd =>
    rw [entries_invalid hr hb hd, entries_invalid (rest_embed hr) hb hd]
    exact .fail c _
  | cons previous c b rest hr hb hd ih =>
    rw [entries_cons hr hb hd, entries_cons (rest_embed hr) hb hd]
    refine (string_embeds n s limits c).andThen fun key c₁ hk => ?_
    cases orderFault? limits previous key with
    | none => exact (hitem c₁).andThen fun v c₂ hv => (ih key c₁ v c₂ hk hv).map _
    -- the fault stands where the key begins and not at the cursor, and both move by `n`
    | some fault => exact fun _ => rfl

theorem value_embeds (hitem : ∀ c, Embeds n s (item.run c) (item.run (c.embed n s))) (c : Cursor) :
    Embeds n s (value limits item c) (value limits item (c.embed n s)) := by
  cases hr : c.rest with
  | nil =>
    rw [value_nil hr]
    refine .of_truncated rfl fun hs => ?_
    subst hs
    rw [value_nil (rest_embed_nil hr)]
    rfl
  | cons b rest =>
    rw [value_cons hr, value_cons (rest_embed hr), next_embed hr]
    split
    · exact integer_embeds n s hr
    · split
      · exact (items_embeds hitem c.next).map _
      · split
        · exact (entries_embeds hitem none c.next).map _
        · split
          · exact (string_embeds n s limits c).map _
          · exact .fail c _

theorem tree_embeds (n : Nat) (s : Bytes) (limits : Limits) (levels : Nat) (c : Cursor) :
    Embeds n s ((tree limits levels).run c) ((tree limits levels).run (c.embed n s)) := by
  induction levels generalizing c with
  | zero => exact .fail c _
  | succ levels ih => exact value_embeds ih c

end Reader

end Bencode
