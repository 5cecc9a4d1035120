import Bencode.Proofs.Reader.Number
import Bencode.Reader.Tree
import Bencode.Wire

/-! # One step of each reader

The loops over items and entries are unfolded once as equations between outcomes, so that what follows
about them needs no recursion by hand. Byte strings are read exactly, and no reader goes back.
-/
namespace Bencode.Reader
open Cursor

variable {limits : Limits} {item : Reader Value} {c c' : Cursor} {b : UInt8} {rest : Bytes}

theorem items_nil (h : c.rest = []) : items item c = c.fail (.unterminated .list) := by
  rw [items]
  split
  · rfl
  · next hc => simp [h] at hc

theorem items_close (h : c.rest = Mark.close :: rest) : items item c = (.ok [], c.next) := by
  rw [items]
  split
  · next hc => simp [h] at hc
  · next hc =>
    obtain ⟨rfl, -⟩ := List.cons.inj (h.symm.trans hc)
    exact if_pos rfl

theorem items_cons (h : c.rest = b :: rest) (hb : b ≠ Mark.close) :
    items item c = (item.run c).andThen fun v c₁ => (items item c₁).map (v :: ·) := by
  rw [items]
  split
  · next hc => simp [h] at hc
  · next hc =>
    obtain ⟨rfl, -⟩ := List.cons.inj (h.symm.trans hc)
    rw [if_neg hb]
    split <;> next hr => rw [hr]; rfl

/-- The loop over items as an induction: at an item, what is claimed may be assumed behind it. -/
@[elab_as_elim]
theorem items_induction (item : Reader Value) {motive : Cursor → Prop}
    (nil : ∀ c, c.rest = [] → motive c)
    (close : ∀ c rest, c.rest = Mark.close :: rest → motive c)
    (cons : ∀ c b rest, c.rest = b :: rest → b ≠ Mark.close →
      (∀ v c₁, item.run c = (.ok v, c₁) → motive c₁) → motive c) (c : Cursor) : motive c := by
  induction hn : c.rest.length using Nat.strongRecOn generalizing c with
  | ind n ih =>
    cases hr : c.rest with
    | nil => exact nil c hr
    | cons b rest =>
      by_cases hb : b = Mark.close
      · exact close c rest (hb ▸ hr)
      · refine cons c b rest hr hb fun v c₁ hv => ih _ ?_ c₁ rfl
        exact hn ▸ item.progress hv

theorem entries_nil {previous : Option Bytes} (h : c.rest = []) :
    entries limits item previous c = c.fail (.unterminated .dict) := by
  rw [entries]
  split
  · rfl
  · next hc => simp [h] at hc

theorem entries_close {previous : Option Bytes} (h : c.rest = Mark.close :: rest) :
    entries limits item previous c = (.ok [], c.next) := by
  rw [entries]
  split
  · next hc => simp [h] at hc
  · next hc =>
    obtain ⟨rfl, -⟩ := List.cons.inj (h.symm.trans hc)
    exact if_pos rfl

theorem entries_invalid {previous : Option Bytes} (h : c.rest = b :: rest)
    (hb : b ≠ Mark.close) (hn : isNumberByte b true = false) :
    entries limits item previous c = c.fail (.invalidKey b) := by
  rw [entries]
  split
  · next hc => simp [h] at hc
  · next hc =>
    obtain ⟨rfl, -⟩ := List.cons.inj (h.symm.trans hc)
    rw [if_neg hb, if_pos (by simp [hn])]

/-- What follows a key that was just read. -/
def entriesAfter (limits : Limits) (item : Reader Value) (key : Bytes) (c : Cursor) :
    Outcome (List (Bytes × Value)) :=
  (item.run c).andThen fun v c₁ => (entries limits item (some key) c₁).map ((key, v) :: ·)

theorem entries_cons {previous : Option Bytes} (h : c.rest = b :: rest) (hb : b ≠ Mark.close)
    (hn : isNumberByte b true = true) :
    entries limits item previous c = (string limits c).andThen fun key c₁ =>
      (orderFault? limits previous key).elim (entriesAfter limits item key c₁)
        fun fault => (.error (.malformed c.offset fault), c₁) := by
  rw [entries]
  split
  · next hc => simp [h] at hc
  · next hc =>
    obtain ⟨rfl, -⟩ := List.cons.inj (h.symm.trans hc)
    rw [if_neg hb, if_neg (by simp [hn])]
    split
    · next hs => rw [hs]; rfl
    · next key c₁ hs =>
      rw [hs, Outcome.andThen_ok]
      split
      · next ho => rw [ho]; rfl
      · next ho =>
        rw [ho, Option.elim_none, entriesAfter]
        split <;> next hr => rw [hr]; rfl

/-- The loop over entries as an induction: at a key, what is claimed may be assumed behind its
value. -/
@[elab_as_elim]
theorem entries_induction (limits : Limits) (item : Reader Value)
    {motive : Option Bytes → Cursor → Prop}
    (nil : ∀ previous c, c.rest = [] → motive previous c)
    (close : ∀ previous c rest, c.rest = Mark.close :: rest → motive previous c)
    (invalid : ∀ previous c b rest, c.rest = b :: rest → b ≠ Mark.close →
      isNumberByte b true = false → motive previous c)
    (cons : ∀ previous c b rest, c.rest = b :: rest → b ≠ Mark.close →
      isNumberByte b true = true →
      (∀ key c₁ v c₂, string limits c = (.ok key, c₁) → item.run c₁ = (.ok v, c₂) →
        motive (some key) c₂) → motive previous c)
    (previous : Option Bytes) (c : Cursor) : motive previous c := by
  induction hn : c.rest.length using Nat.strongRecOn generalizing previous c with
  | ind n ih =>
    cases hr : c.rest with
    | nil => exact nil previous c hr
    | cons b rest =>
      by_cases hb : b = Mark.close
      · exact close previous c rest (hb ▸ hr)
      · cases hd : isNumberByte b true with
        | false => exact invalid previous c b rest hr hb hd
        | true =>
          refine cons previous c b rest hr hb hd fun key c₁ v c₂ hk hv => ih _ ?_ (some key) c₂ rfl
          exact hn ▸ Nat.lt_trans (item.progress hv) (string_progress hk)

theorem orderFault?_eq_none_iff {previous : Option Bytes} {key : Bytes} :
    orderFault? limits previous key = none ↔
      (limits.strictKeys = true → ∀ p ∈ previous, p < key) := by
  cases previous with
  | none => simp [orderFault?]
  | some p =>
    cases hs : limits.strictKeys with
    | false => simp [orderFault?, hs]
    | true =>
      by_cases hp : p < key
      · simp [orderFault?, hs, hp]
      · by_cases he : key = p <;> simp [orderFault?, hs, hp, he]

theorem orderFault?_eq_some {previous : Option Bytes} {key : Bytes} {fault : Fault}
    (h : orderFault? limits previous key = some fault) :
    limits.strictKeys = true ∧ ∃ p, previous = some p ∧
      (fault = .duplicateKey key ∧ key = p ∨ fault = .keyOrder key ∧ key < p) := by
  cases previous with
  | none => simp [orderFault?] at h
  | some p =>
    rw [orderFault?] at h
    split at h
    · simp at h
    · next ho =>
      obtain ⟨hstrict, hp⟩ : limits.strictKeys = true ∧ ¬ p < key := by simpa using ho
      refine ⟨hstrict, p, rfl, ?_⟩
      split at h
      · next he =>
        cases h
        exact .inl ⟨rfl, he⟩
      · next he =>
        cases h
        have hcmp : key < p ∨ key = p ∨ p < key := Std.Trichotomous.rel_or_eq_or_rel_swap
        rcases hcmp with hlt | heq | hlt
        · exact .inr ⟨rfl, hlt⟩
        · exact absurd heq he
        · exact absurd hlt hp

theorem value_nil (h : c.rest = []) : value limits item c = c.fail .unexpectedEnd := by
  rw [value, h]

theorem value_cons (h : c.rest = b :: rest) : value limits item c =
    if b = Mark.integer then integer c
    else if b = Mark.list then (items item c.next).map .list
    else if b = Mark.dict then (entries limits item none c.next).map Value.ofEntries
    else if isDigit b then (string limits c).map .bytes
    else c.fail (.invalidLead b) := by
  rw [value, h]

theorem value_digit (h : c.rest = b :: rest) (hb : isDigit b = true) :
    value limits item c = (string limits c).map .bytes := by
  rw [value_cons h, if_neg (ne_of_isDigit hb rfl), if_neg (ne_of_isDigit hb rfl),
    if_neg (ne_of_isDigit hb rfl), if_pos hb]

theorem integer_eq_ok_iff {v : Value} : integer c = (.ok v, c') ↔
    ∃ n, v = .integer n ∧ c.next.Passes (Decimal.ofInt n.toInt ++ [Mark.close]) c' := by
  rw [integer, Outcome.andThen_eq_ok]
  constructor
  · rintro ⟨n, c₁, hn, he⟩
    simp only [Prod.mk.injEq, Except.ok.injEq] at he
    obtain ⟨more, hp, hm⟩ := (number_eq_ok_iff rfl).1 hn
    exact ⟨n, he.1.symm, he.2 ▸ hp.trans (passes_next hm)⟩
  · rintro ⟨n, rfl, h⟩
    obtain ⟨c₁, hp, hc⟩ := h.split
    have hr : c₁.rest = Mark.close :: c'.rest := hc.1
    exact ⟨n, c₁, (number_eq_ok_iff rfl).2 ⟨_, hp, hr⟩, by rw [(passes_next hr).unique hc]⟩

/-- What follows a length that was just read, from its colon on. -/
def body (limits : Limits) (n : Int64) (c : Cursor) : Outcome Bytes :=
  if n.toInt < 0 then c.fail .negativeLength
  else if limits.maxStringLength < n.toInt.toNat then
    c.fail (.stringTooLong n.toInt.toNat limits.maxStringLength)
  else c.next.take n.toInt.toNat

theorem string_eq_andThen (limits : Limits) (c : Cursor) :
    string limits c = (number Mark.colon c).andThen (body limits) := rfl

private theorem toInt_length {b : Bytes} (h : b.length < 2 ^ 63) :
    (Int64.ofInt b.length).toInt = b.length := Int64.toInt_ofInt_of_le (by omega) (by omega)

/-- Reading the length of a written byte string stops at its colon. -/
private theorem number_stringWire {b : Bytes} (h : b.length < 2 ^ 63)
    (hp : c.Passes (stringWire b) c') :
    ∃ c₁, number Mark.colon c = (.ok (Int64.ofInt b.length), c₁) ∧ c₁.next.Passes b c' := by
  obtain ⟨c₁, hd, hb⟩ := Passes.split (s := Decimal.digits b.length) hp
  obtain ⟨hr, hn⟩ := hb.next_of_cons
  rw [← Decimal.ofInt_natCast, ← toInt_length h] at hd
  exact ⟨c₁, (number_eq_ok_iff rfl).2 ⟨_, hd, hr⟩, hn⟩

theorem string_eq_ok_iff {b : Bytes} : string limits c = (.ok b, c') ↔
    (b.length ≤ limits.maxStringLength ∧ b.length < 2 ^ 63) ∧ c.Passes (stringWire b) c' := by
  constructor
  · intro h
    obtain ⟨n, c₁, hn, h⟩ := Outcome.andThen_eq_ok.1 h
    obtain ⟨more, hp, hm⟩ := (number_eq_ok_iff rfl).1 hn
    have hlt := n.toInt_lt
    split at h
    · simp [fail] at h
    · split at h
      · simp [fail] at h
      · obtain ⟨hl, ht⟩ := take_eq_ok_iff.1 h
        have hint : n.toInt = b.length := by omega
        rw [hint, Decimal.ofInt_natCast] at hp
        exact ⟨⟨by omega, by omega⟩, hp.trans (.cons hm ht)⟩
  · rintro ⟨⟨hmax, hlt⟩, hp⟩
    obtain ⟨c₁, hn, hb⟩ := number_stringWire hlt hp
    refine Outcome.andThen_eq_ok.2 ⟨_, c₁, hn, ?_⟩
    rw [toInt_length hlt, if_neg (by omega), Int.toNat_natCast, if_neg (by omega)]
    exact take_eq_ok_iff.2 ⟨rfl, hb⟩

/-- A byte string above the limit is refused at its colon. -/
theorem string_tooLong {b : Bytes} (hlt : b.length < 2 ^ 63)
    (hmax : limits.maxStringLength < b.length) (hp : c.Passes (stringWire b) c') :
    ∃ c₁ : Cursor, string limits c = c₁.fail (.stringTooLong b.length limits.maxStringLength) := by
  obtain ⟨c₁, hn, -⟩ := number_stringWire hlt hp
  refine ⟨c₁, ?_⟩
  rw [string, hn, Outcome.andThen_ok, toInt_length hlt, if_neg (by omega), Int.toNat_natCast,
    if_pos hmax]

end Bencode.Reader

namespace Bencode.Outcome.StepClosed
open Reader

variable {P : {α : Type} → Cursor → Outcome α → Prop} {limits : Limits} {item : Reader Value}

theorem body (h : StepClosed P) (limits : Limits) (n : Int64) (c : Cursor) :
    P c (Reader.body limits n c) := by
  unfold Reader.body
  split
  · exact h.fail c _
  · split
    · exact h.fail c _
    · exact h.of_next (h.take c.next _)

theorem string (h : StepClosed P) (limits : Limits) (c : Cursor) : P c (Reader.string limits c) :=
  h.andThen (h.number Mark.colon c) fun n c₁ _ => h.body limits n c₁

theorem integer (h : StepClosed P) (c : Cursor) : P c (Reader.integer c) :=
  h.of_next (h.andThen (h.number Mark.close c.next) fun n c₁ _ => h.next (Value.integer n) c₁)

theorem items (h : StepClosed P) (hitem : ∀ c, P c (item.run c)) (c : Cursor) :
    P c (Reader.items item c) := by
  induction c using items_induction item with
  | nil c hr =>
    rw [items_nil hr]
    exact h.fail c _
  | close c rest hr =>
    rw [items_close hr]
    exact h.next [] c
  | cons c b rest hr hb ih =>
    rw [items_cons hr hb]
    exact h.andThen (hitem c) fun v c₁ hv => h.map _ (ih v c₁ hv)

theorem entries (h : StepClosed P) (hitem : ∀ c, P c (item.run c)) (previous : Option Bytes)
    (c : Cursor) : P c (Reader.entries limits item previous c) := by
  induction previous, c using entries_induction limits item with
  | nil previous c hr =>
    rw [entries_nil hr]
    exact h.fail c _
  | close previous c rest hr =>
    rw [entries_close hr]
    exact h.next [] c
  | invalid previous c b rest hr hb hd =>
    rw [entries_invalid hr hb hd]
    exact h.fail c _
  | cons previous c b rest hr hb hd ih =>
    rw [entries_cons hr hb hd]
    refine h.andThen (h.string limits c) fun key c₁ hk => ?_
    cases orderFault? limits previous key with
    | none => exact h.andThen (hitem c₁) fun v c₂ hv => h.map _ (ih key c₁ v c₂ hk hv)
    | some fault => exact h.refuse _ c₁ fun _ _ he => by cases he

theorem value (h : StepClosed P) (hitem : ∀ c, P c (item.run c)) (c : Cursor) :
    P c (Reader.value limits item c) := by
  cases hr : c.rest with
  | nil =>
    rw [value_nil hr]
    exact h.fail c _
  | cons b rest =>
    rw [value_cons hr]
    split
    · exact h.integer c
    · split
      · exact h.map _ (h.of_next (h.items hitem c.next))
      · split
        · exact h.map _ (h.of_next (h.entries hitem none c.next))
        · split
          · exact h.map _ (h.string limits c)
          · exact h.fail c _

theorem tree (h : StepClosed P) (limits : Limits) (levels : Nat) (c : Cursor) :
    P c ((Reader.tree limits levels).run c) := by
  induction levels generalizing c with
  | zero => exact h.fail c _
  | succ levels ih => exact h.value ih c

theorem document (h : StepClosed P) (limits : Limits) (c : Cursor) :
    P c (Reader.document limits c) := by
  refine h.andThen (h.tree limits limits.maxDepth c) fun v c₁ _ => ?_
  split
  · exact h.stay v c₁
  · exact h.fail c₁ _

end Bencode.Outcome.StepClosed

namespace Bencode.Reader
open Cursor Outcome

variable {limits : Limits} {item : Reader Value}

theorem reaches_body (limits : Limits) (n : Int64) (c : Cursor) : c.Reaches (body limits n c).2 :=
  reaches_closed.body limits n c

theorem reaches_items (h : ∀ c : Cursor, c.Reaches (item.run c).2) (c : Cursor) :
    c.Reaches (items item c).2 := reaches_closed.items h c

theorem reaches_entries (h : ∀ c : Cursor, c.Reaches (item.run c).2) (previous : Option Bytes)
    (c : Cursor) : c.Reaches (entries limits item previous c).2 := reaches_closed.entries h previous c

theorem reaches_entriesAfter (h : ∀ c : Cursor, c.Reaches (item.run c).2) (key : Bytes)
    (c : Cursor) : c.Reaches (entriesAfter limits item key c).2 :=
  reaches_andThen (h c) fun _ c₁ _ => reaches_entries h (some key) c₁

theorem reaches_tree (limits : Limits) (levels : Nat) (c : Cursor) :
    c.Reaches ((tree limits levels).run c).2 := reaches_closed.tree limits levels c

theorem reaches_document (limits : Limits) (c : Cursor) : c.Reaches (document limits c).2 :=
  reaches_closed.document limits c

end Bencode.Reader
