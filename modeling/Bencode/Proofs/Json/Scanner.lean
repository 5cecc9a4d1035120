import Bencode.Proofs.Json.Grammar
import Mathlib.Data.List.TakeWhile

/-! # Scanning numbers and strings

A scanner takes a number or a string off the front of a text and answers with it and the rest. `Reads` says
that a reader follows a rule of the grammar: what it takes is derived by the rule, and what the rule derives
it takes, in front of anything that does not go on with the same number.
-/
namespace Bencode.Json

variable {α : Type}

def digits? (s : List Char) : Option (List Char × List Char) :=
  if s.takeWhile Char.isDigit = [] then none
  else some (s.takeWhile Char.isDigit, s.dropWhile Char.isDigit)

def integral? : List Char → Option (List Char × List Char)
  | '0' :: s => some (['0'], s)
  | s => digits? s

def fraction? : List Char → Option (List Char × List Char)
  | '.' :: s => digits? s
  | s => some ([], s)

def signed? : List Char → Option (Int × List Char)
  | '+' :: s => (digits? s).map (Prod.map (fun ds => (digitsValue ds : Int)) id)
  | '-' :: s => (digits? s).map (Prod.map (fun ds => -(digitsValue ds : Int)) id)
  | s => (digits? s).map (Prod.map (fun ds => (digitsValue ds : Int)) id)

def exponent? : List Char → Option (Int × List Char)
  | c :: s => if c = 'e' ∨ c = 'E' then signed? s else some (0, c :: s)
  | [] => some (0, [])

def unsigned? (s : List Char) : Option (Rat × List Char) :=
  (integral? s).bind fun i => (fraction? i.2).bind fun f =>
    (exponent? f.2).map (Prod.map (decimal i.1 f.1) id)

def number? : List Char → Option (Rat × List Char)
  | '-' :: s => (unsigned? s).map (Prod.map (fun q => -q) id)
  | s => unsigned? s

def unit? (c₁ c₂ c₃ c₄ : Char) : Option Nat :=
  (hexDigit? c₁).bind fun n₁ => (hexDigit? c₂).bind fun n₂ => (hexDigit? c₃).bind fun n₃ =>
    (hexDigit? c₄).map fun n₄ => ((n₁ * 16 + n₂) * 16 + n₃) * 16 + n₄

/-- The elements of a string up to its closing quote. -/
def elements? : List Char → Option (List Element × List Char)
  | [] => none
  | '\x22' :: s => some ([], s)
  | '\\' :: 'u' :: c₁ :: c₂ :: c₃ :: c₄ :: s =>
    match unit? c₁ c₂ c₃ c₄ with
    | none => none
    | some n => (elements? s).map (Prod.map (.unit n :: ·) id)
  -- a `u` without four digits comes here too, and is not one of the escaped characters
  | '\\' :: c :: s =>
    match escaped? c with
    | none => none
    | some d => (elements? s).map (Prod.map (.char d :: ·) id)
  | c :: s =>
    if c = '\\' ∨ c.toNat < 0x20 then none
    else (elements? s).map (Prod.map (.char c :: ·) id)

def string? (s : List Char) : Option (String × List Char) :=
  (elements? s).map (Prod.map (fun es => String.ofList (characters es)) id)

def skipSpace (s : List Char) : List Char := s.dropWhile isSpace

/-- What comes next is not of the given kind. -/
def Past (p : Char → Bool) (s : List Char) : Prop := ∀ c, s.head? = some c → p c = false

theorem past_nil (p : Char → Bool) : Past p [] := fun _ h => by cases h

theorem past_cons {p : Char → Bool} {c : Char} {s : List Char} (h : p c = false) : Past p (c :: s) := by
  intro d hd
  cases hd
  exact h

/-- The reader takes what the rule derives, if it is no longer than `n`, in front of what may come next, and
takes nothing else. -/
structure Reads (n : Nat) (next : List Char → Prop) (read : List Char → Option (α × List Char))
    (rule : List Char → α → Prop) : Prop where
  sound : ∀ {s x rest}, read s = some (x, rest) → ∃ text, s = text ++ rest ∧ rule text x
  complete : ∀ {text x rest}, rule text x → text.length ≤ n → next rest →
    read (text ++ rest) = some (x, rest)

section
variable {β : Type} {n : Nat} {next : List Char → Prop} {read : List Char → Option (α × List Char)}
  {rule : List Char → α → Prop} {f : α → β} {s rest : List Char}

theorem Reads.sound_map (h : Reads n next read rule) {y : β}
    (hs : (read s).map (Prod.map f id) = some (y, rest)) :
    ∃ text x, s = text ++ rest ∧ rule text x ∧ f x = y := by
  obtain ⟨⟨x, more⟩, hr, heq⟩ := Option.map_eq_some_iff.1 hs
  obtain ⟨rfl, rfl⟩ := Prod.mk.inj heq
  obtain ⟨text, rfl, hx⟩ := h.sound hr
  exact ⟨text, x, rfl, hx, rfl⟩

theorem Reads.complete_map (h : Reads n next read rule) {text : List Char} {x : α} (hx : rule text x)
    (hn : text.length ≤ n) (hrest : next rest) :
    (read (text ++ rest)).map (Prod.map f id) = some (f x, rest) := by
  rw [h.complete hx hn hrest, Option.map_some, Prod.map_apply, id]

end

section
variable {p : Char → Bool} {text rest : List Char}

theorem takeWhile_append_past (h : ∀ c ∈ text, p c = true) (hrest : Past p rest) :
    (text ++ rest).takeWhile p = text := by
  rw [List.takeWhile_append_of_pos h]
  cases rest with
  | nil => rw [List.takeWhile_nil, List.append_nil]
  | cons c rest => rw [List.takeWhile_cons_of_neg (by simp [hrest c rfl]), List.append_nil]

theorem dropWhile_append_past (h : ∀ c ∈ text, p c = true) (hrest : Past p rest) :
    (text ++ rest).dropWhile p = rest := by
  rw [List.dropWhile_append_of_pos h]
  cases rest with
  | nil => rfl
  | cons c rest => rw [List.dropWhile_cons_of_neg (by simp [hrest c rfl])]

theorem skipSpace_append (h : Space text) (hrest : Past isSpace rest) :
    skipSpace (text ++ rest) = rest :=
  dropWhile_append_past h hrest

/-- What is skipped is space. -/
theorem exists_skipSpace (s : List Char) : ∃ w, Space w ∧ s = w ++ skipSpace s :=
  ⟨s.takeWhile isSpace, fun _ hc => List.mem_takeWhile_imp hc, List.takeWhile_append_dropWhile.symm⟩

end

theorem reads_digits? (n : Nat) :
    Reads n (Past Char.isDigit) digits? fun text ds => Digits text ∧ ds = text where
  sound h := by
    unfold digits? at h
    split at h
    · cases h
    · next hne =>
      cases h
      exact ⟨_, List.takeWhile_append_dropWhile.symm,
        ⟨hne, fun _ hc => List.mem_takeWhile_imp hc⟩, rfl⟩
  complete h _ hrest := by
    obtain ⟨⟨hne, hdigits⟩, rfl⟩ := h
    rw [digits?, takeWhile_append_past hdigits hrest, dropWhile_append_past hdigits hrest, if_neg hne]

/-- The characters that may go on with a number after its integral part, after its fraction or at its end. -/
def inFraction (c : Char) : Bool := c.isDigit || c = '.'

def inNumber (c : Char) : Bool := c.isDigit || c = '.' || c = 'e' || c = 'E'

theorem reads_integral? (n : Nat) :
    Reads n (Past Char.isDigit) integral? fun text i => Integral text ∧ i = text where
  sound := by
    intro s i rest h
    unfold integral? at h
    split at h
    · next s =>
      cases h
      exact ⟨['0'], rfl, .zero, rfl⟩
    · next s hzero =>
      obtain ⟨text, rfl, hdigits, rfl⟩ := (reads_digits? n).sound h
      cases i with
      | nil => exact absurd rfl hdigits.1
      | cons d ds => exact ⟨_, rfl, .positive (fun hd => hzero _ (by rw [hd]; rfl)) hdigits, rfl⟩
  complete := by
    rintro text _ rest ⟨h, rfl⟩ hn hrest
    cases h with
    | zero => rfl
    | @positive d ds h₀ h =>
      rw [List.cons_append, integral?, ← List.cons_append]
      · exact (reads_digits? n).complete ⟨h, rfl⟩ hn hrest
      · intro s hs
        exact h₀ (List.cons.inj hs).1

theorem reads_fraction? (n : Nat) : Reads n (Past inFraction) fraction? Fraction where
  sound := by
    intro s ds rest h
    unfold fraction? at h
    split at h
    · obtain ⟨text, rfl, hdigits, rfl⟩ := (reads_digits? n).sound h
      exact ⟨_, rfl, .present hdigits⟩
    · cases h
      exact ⟨[], rfl, .absent⟩
  complete := by
    intro text ds rest h hn hrest
    cases h with
    | absent =>
      rw [List.nil_append, fraction?]
      intro s hs
      simpa [inFraction] using hrest '.' (by rw [hs]; rfl)
    | present h =>
      refine (reads_digits? n).complete ⟨h, rfl⟩ (Nat.le_of_succ_le hn) fun c hc => ?_
      simpa [inFraction] using (Bool.or_eq_false_iff.1 (hrest c hc)).1

theorem Digits.head {ds : List Char} (h : Digits ds) : ∃ d es, ds = d :: es ∧ d.isDigit = true := by
  obtain ⟨hne, hdigits⟩ := h
  cases ds with
  | nil => exact absurd rfl hne
  | cons d es => exact ⟨d, es, rfl, hdigits d List.mem_cons_self⟩

theorem reads_signed? (n : Nat) : Reads n (Past Char.isDigit) signed? Signed where
  sound := by
    intro s e rest h
    unfold signed? at h
    split at h
    · obtain ⟨ds, _, rfl, ⟨hdigits, rfl⟩, rfl⟩ := (reads_digits? n).sound_map h
      exact ⟨_, rfl, .plus hdigits⟩
    · obtain ⟨ds, _, rfl, ⟨hdigits, rfl⟩, rfl⟩ := (reads_digits? n).sound_map h
      exact ⟨_, rfl, .minus hdigits⟩
    · obtain ⟨ds, _, rfl, ⟨hdigits, rfl⟩, rfl⟩ := (reads_digits? n).sound_map h
      exact ⟨_, rfl, .bare hdigits⟩
  complete := by
    intro text e rest h hn hrest
    cases h with
    | bare h =>
      obtain ⟨d, es, rfl, hd⟩ := h.head
      rw [List.cons_append, signed?, ← List.cons_append]
      · exact (reads_digits? n).complete_map ⟨h, rfl⟩ hn hrest
      · rintro s hs
        cases hs
        exact absurd hd (by decide)
      · rintro s hs
        cases hs
        exact absurd hd (by decide)
    | plus h => exact (reads_digits? n).complete_map ⟨h, rfl⟩ (Nat.le_of_succ_le hn) hrest
    | minus h => exact (reads_digits? n).complete_map ⟨h, rfl⟩ (Nat.le_of_succ_le hn) hrest

theorem reads_exponent? (n : Nat) : Reads n (Past inNumber) exponent? Exponent where
  sound := by
    intro s e rest h
    unfold exponent? at h
    split at h
    · next c s =>
      split at h
      · next hc =>
        obtain ⟨text, rfl, hsigned⟩ := (reads_signed? n).sound h
        exact ⟨c :: text, rfl, .present hc hsigned⟩
      · cases h
        exact ⟨[], rfl, .absent⟩
    · cases h
      exact ⟨[], rfl, .absent⟩
  complete := by
    intro text e rest h hn hrest
    cases h with
    | absent =>
      cases rest with
      | nil => rfl
      | cons c rest =>
        have hc := hrest c rfl
        simp only [inNumber, Bool.or_eq_false_iff, decide_eq_false_iff_not] at hc
        rw [List.nil_append, exponent?, if_neg (not_or.2 ⟨hc.1.2, hc.2⟩)]
    | present he h =>
      rw [List.cons_append, exponent?, if_pos he]
      refine (reads_signed? n).complete h (Nat.le_of_succ_le hn) fun c hc => ?_
      have hc := hrest c hc
      simp only [inNumber, Bool.or_eq_false_iff] at hc
      exact hc.1.1.1

theorem Exponent.past {text rest : List Char} {e : Int} (h : Exponent text e) (hrest : Past inNumber rest) :
    Past inFraction (text ++ rest) := by
  cases h with
  | absent =>
    intro c hc
    have hc := hrest c hc
    simp only [inNumber, Bool.or_eq_false_iff] at hc
    rw [inFraction, hc.1.1.1, hc.1.1.2]
    rfl
  | present he h =>
    refine past_cons ?_
    rcases he with rfl | rfl <;> rfl

theorem Fraction.past {text ds rest : List Char} (h : Fraction text ds) (hrest : Past inFraction rest) :
    Past Char.isDigit (text ++ rest) := by
  cases h with
  | absent => exact fun c hc => (Bool.or_eq_false_iff.1 (hrest c hc)).1
  | present h => exact past_cons rfl

theorem reads_unsigned? (n : Nat) : Reads n (Past inNumber) unsigned? Unsigned where
  sound := by
    intro s q rest h
    obtain ⟨⟨i, s₁⟩, hi, hmore⟩ := Option.bind_eq_some_iff.1 h
    obtain ⟨⟨ds, s₂⟩, hf, hmore⟩ := Option.bind_eq_some_iff.1 hmore
    obtain ⟨_, rfl, integral, rfl⟩ := (reads_integral? n).sound hi
    obtain ⟨f, rfl, fraction⟩ := (reads_fraction? n).sound hf
    obtain ⟨e, x, rfl, exponent, rfl⟩ := (reads_exponent? n).sound_map hmore
    refine ⟨i ++ f ++ e, ?_, .intro integral fraction exponent⟩
    rw [List.append_assoc, List.append_assoc]
  complete := by
    rintro text q rest ⟨integral, fraction, exponent⟩ hn hrest
    rw [List.length_append, List.length_append] at hn
    have hpoint := exponent.past hrest
    have hi := (reads_integral? n).complete ⟨integral, rfl⟩ (by omega) (fraction.past hpoint)
    have hf := (reads_fraction? n).complete fraction (by omega) hpoint
    rw [unsigned?, List.append_assoc, List.append_assoc, hi, Option.bind_some, hf, Option.bind_some]
    exact (reads_exponent? n).complete_map exponent (by omega) hrest

theorem Integral.head {text : List Char} (h : Integral text) :
    ∃ c s, text = c :: s ∧ c.isDigit = true := by
  cases h with
  | zero => exact ⟨'0', [], rfl, rfl⟩
  | positive h₀ h => exact h.head

theorem Unsigned.head {text : List Char} {q : Rat} (h : Unsigned text q) :
    ∃ c s, text = c :: s ∧ c.isDigit = true := by
  obtain ⟨hi, -, -⟩ := h
  obtain ⟨c, s, rfl, hc⟩ := hi.head
  exact ⟨c, _, rfl, hc⟩

theorem Number.head {text : List Char} {q : Rat} (h : Number text q) :
    ∃ c s, text = c :: s ∧ (c = '-' ∨ c.isDigit = true) := by
  cases h with
  | positive h =>
    obtain ⟨c, s, rfl, hc⟩ := h.head
    exact ⟨c, s, rfl, .inr hc⟩
  | negative h => exact ⟨'-', _, rfl, .inl rfl⟩

theorem reads_number? (n : Nat) : Reads n (Past inNumber) number? Number where
  sound := by
    intro s q rest h
    unfold number? at h
    split at h
    · obtain ⟨text, x, rfl, hx, rfl⟩ := (reads_unsigned? n).sound_map h
      exact ⟨_, rfl, .negative hx⟩
    · obtain ⟨text, rfl, hq⟩ := (reads_unsigned? n).sound h
      exact ⟨_, rfl, .positive hq⟩
  complete := by
    intro text q rest h hn hrest
    cases h with
    | positive h =>
      obtain ⟨c, s, rfl, hc⟩ := h.head
      rw [List.cons_append, number?, ← List.cons_append]
      · exact (reads_unsigned? n).complete h hn hrest
      · rintro s hs
        cases hs
        exact absurd hc (by decide)
    | negative h => exact (reads_unsigned? n).complete_map h (Nat.le_of_succ_le hn) hrest

/-- A fraction and an exponent may come to an integer. -/
example : number? "-1.50e1,".toList = some (-15, [',']) := by decide +kernel

/-- Whatever comes next. -/
def Any (_ : List Char) : Prop := True

theorem unit?_eq_some_iff {c₁ c₂ c₃ c₄ : Char} {n : Nat} :
    unit? c₁ c₂ c₃ c₄ = some n ↔ ∃ n₁ n₂ n₃ n₄, hexDigit? c₁ = some n₁ ∧ hexDigit? c₂ = some n₂ ∧
      hexDigit? c₃ = some n₃ ∧ hexDigit? c₄ = some n₄ ∧ ((n₁ * 16 + n₂) * 16 + n₃) * 16 + n₄ = n := by
  simp only [unit?, Option.bind_eq_some_iff, Option.map_eq_some_iff]
  constructor
  · rintro ⟨n₁, h₁, n₂, h₂, n₃, h₃, n₄, h₄, rfl⟩
    exact ⟨n₁, n₂, n₃, n₄, h₁, h₂, h₃, h₄, rfl⟩
  · rintro ⟨n₁, n₂, n₃, n₄, h₁, h₂, h₃, h₄, rfl⟩
    exact ⟨n₁, h₁, n₂, h₂, n₃, h₃, n₄, h₄, rfl⟩

theorem elements_of_elements? {s rest : List Char} {es : List Element}
    (h : elements? s = some (es, rest)) :
    ∃ text, s = text ++ '\x22' :: rest ∧ Elements text es := by
  fun_induction elements? s generalizing es rest with
  | case1 => cases h
  | case2 s =>
    cases h
    exact ⟨[], rfl, .nil⟩
  | case3 => cases h
  | case4 c₁ c₂ c₃ c₄ s n hn ih =>
    obtain ⟨⟨fs, t⟩, hs, heq⟩ := Option.map_eq_some_iff.1 h
    cases heq
    obtain ⟨text, rfl, htext⟩ := ih hs
    obtain ⟨n₁, n₂, n₃, n₄, h₁, h₂, h₃, h₄, rfl⟩ := unit?_eq_some_iff.1 hn
    exact ⟨_, rfl, .numbered h₁ h₂ h₃ h₄ htext⟩
  | case5 => cases h
  | case6 c s _ d hd ih =>
    obtain ⟨⟨fs, t⟩, hs, heq⟩ := Option.map_eq_some_iff.1 h
    cases heq
    obtain ⟨text, rfl, htext⟩ := ih hs
    exact ⟨_, rfl, .escaped hd htext⟩
  | case7 => cases h
  | case8 c s hquote _ _ hc ih =>
    obtain ⟨⟨fs, t⟩, hs, heq⟩ := Option.map_eq_some_iff.1 h
    cases heq
    obtain ⟨text, rfl, htext⟩ := ih hs
    obtain ⟨hbackslash, hcontrol⟩ := not_or.1 hc
    exact ⟨_, rfl, .unescaped (Nat.le_of_not_lt hcontrol) hquote hbackslash htext⟩

theorem elements?_of_elements {text : List Char} {es : List Element} (h : Elements text es)
    (rest : List Char) : elements? (text ++ '\x22' :: rest) = some (es, rest) := by
  induction h with
  | nil => rfl
  | unescaped hc hquote hbackslash _ ih =>
    rw [List.cons_append, elements?, if_neg (not_or.2 ⟨hbackslash, Nat.not_lt.2 hc⟩), ih]
    · rfl
    · exact hquote
    · intro _ _ _ _ _ hb _
      exact hbackslash hb
    · intro _ _ hb _
      exact hbackslash hb
  | @escaped c d _ _ hc _ ih =>
    have hu : c ≠ 'u' := fun hu => by
      rw [hu] at hc
      cases hc
    rw [List.cons_append, List.cons_append, elements?]
    · simp only [hc, ih]
      rfl
    · intro _ _ _ _ _ hcu _
      exact hu hcu
  | numbered h₁ h₂ h₃ h₄ _ ih =>
    simp only [List.cons_append, elements?, unit?_eq_some_iff.2 ⟨_, _, _, _, h₁, h₂, h₃, h₄, rfl⟩, ih]
    rfl

theorem reads_string? (n : Nat) : Reads n Any string? Quoted where
  sound := by
    intro s k rest h
    obtain ⟨⟨es, t⟩, hs, heq⟩ := Option.map_eq_some_iff.1 h
    cases heq
    obtain ⟨text, rfl, htext⟩ := elements_of_elements? hs
    exact ⟨text ++ ['\x22'], by rw [List.append_assoc]; rfl, .intro htext⟩
  complete := by
    rintro _ _ rest ⟨htext⟩ - -
    rw [string?, List.append_assoc, List.singleton_append, elements?_of_elements htext rest]
    rfl

/-- A pair of surrogates is one character, and a single one is replaced. -/
example : string? "\\ud83d\\ude00\\ud83d\x22".toList = some ("😀\uFFFD", []) := by decide +kernel

end Bencode.Json
