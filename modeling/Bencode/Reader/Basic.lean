import Bencode.Cursor

/-! # Readers that make progress

A reader turns the input at a cursor into a value. Its proof says that every value costs input, which
bounds the loops that repeat a reader.
-/
namespace Bencode

structure Reader (α : Type) where
  run : Cursor → Outcome α
  progress : ∀ {c c' : Cursor} {a : α}, run c = (.ok a, c') → c'.rest.length < c.rest.length

namespace Reader

/-- Fails everywhere with the given fault. -/
def failing {α : Type} (fault : Fault) : Reader α where
  run c := c.fail fault
  progress h := by simp [Cursor.fail] at h

/-- Items up to the closing mark of a list, which is consumed. -/
def items (item : Reader Value) (c : Cursor) : Outcome (List Value) :=
  match c.rest with
  | [] => c.fail (.unterminated .list)
  | b :: _ =>
    if b = Mark.close then (.ok [], c.next)
    else
      match _h : item.run c with
      | (.error e, c') => (.error e, c')
      | (.ok v, c') => (items item c').map (v :: ·)
termination_by c.rest.length
decreasing_by exact item.progress _h

theorem items_progress {item : Reader Value} {c c' : Cursor} {vs : List Value}
    (h : items item c = (.ok vs, c')) : c'.rest.length < c.rest.length := by
  fun_induction items item c generalizing vs c' with
  | case1 => simp [Cursor.fail] at h
  | case2 c rest hc =>
    simp only [Prod.mk.injEq] at h
    rw [← h.2]
    exact Cursor.length_next_lt (by simp [hc])
  | case3 => simp at h
  | case4 c b rest hc hb v c₁ hv ih =>
    obtain ⟨ws, hr, -⟩ := Outcome.map_eq_ok.1 h
    exact Nat.lt_trans (ih hr) (item.progress hv)

end Reader

end Bencode
