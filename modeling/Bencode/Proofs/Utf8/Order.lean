import Bencode.Proofs.Utf8

/-! # UTF-8 is one to one and keeps the order

Strict decoding accepts the encodings of texts and nothing else, and encodings compare byte by byte as their
texts compare character by character. So among byte strings that are UTF-8 lossy decoding confuses no two,
and sorting them sorts their texts.
-/
namespace Bencode.Utf8

/-- Strict decoding accepts the bytes. -/
def Valid (b : Bytes) : Prop := (decode? b).isSome = true

instance (b : Bytes) : Decidable (Valid b) := inferInstanceAs (Decidable (_ = true))

theorem toUInt8_eq {n : Nat} {b : UInt8} (h : n = b.toNat) : n.toUInt8 = b := by
  rw [h]
  exact UInt8.ofNat_toNat

theorem toNat_of_isTail {b : UInt8} (h : isTail b = true) : 0x80 ≤ b.toNat ∧ b.toNat < 0xC0 := by
  simp only [isTail, Bool.and_eq_true, decide_eq_true_eq, UInt8.le_iff_toNat_le, UInt8.reduceToNat] at h
  omega

theorem toNat_of_isSecond {lead b : UInt8} (h : isSecond lead b = true) :
    (0x80 ≤ b.toNat ∧ b.toNat < 0xC0) ∧ (lead.toNat = 0xE0 → 0xA0 ≤ b.toNat) ∧
      (lead.toNat = 0xED → b.toNat ≤ 0x9F) ∧ (lead.toNat = 0xF0 → 0x90 ≤ b.toNat) ∧
      (lead.toNat = 0xF4 → b.toNat ≤ 0x8F) := by
  simp only [isSecond, isTail, ← UInt8.toNat_inj, UInt8.reduceToNat] at h
  repeat' split at h
  all_goals
    simp only [Bool.and_eq_true, decide_eq_true_eq, UInt8.le_iff_toNat_le, UInt8.reduceToNat] at h
    omega

theorem toNat_of_tailLength? {lead : UInt8} {n : Nat} (h : tailLength? lead = some n) :
    n = 0 ∧ lead.toNat < 0x80 ∨ n = 1 ∧ 0xC2 ≤ lead.toNat ∧ lead.toNat ≤ 0xDF ∨
      n = 2 ∧ 0xE0 ≤ lead.toNat ∧ lead.toNat ≤ 0xEF ∨
      n = 3 ∧ 0xF0 ≤ lead.toNat ∧ lead.toNat ≤ 0xF4 := by
  simp only [tailLength?, UInt8.le_iff_toNat_le, UInt8.lt_iff_toNat_lt, UInt8.reduceToNat] at h
  grind

section
variable {a b c d : UInt8}

theorem encodeChar_one (ha : a.toNat < 0x80) : encodeChar (Char.ofNat a.toNat) = [a] := by
  have hn : (Char.ofNat a.toNat).toNat = a.toNat := toNat_ofNat (.inl (by omega))
  simp only [encodeChar, hn, if_pos ha, toUInt8_eq rfl]

theorem encodeChar_two (ha : 0xC2 ≤ a.toNat ∧ a.toNat ≤ 0xDF) (hb : isSecond a b = true) :
    encodeChar (Char.ofNat (a.toNat % 32 * 64 + payload b)) = [a, b] := by
  obtain ⟨hb, -⟩ := toNat_of_isSecond hb
  rw [payload]
  generalize hn : a.toNat % 32 * 64 + b.toNat % 64 = n
  have hchar : (Char.ofNat n).toNat = n := toNat_ofNat (.inl (by omega))
  simp only [encodeChar, hchar]
  rw [if_neg (by omega), if_pos (by omega), toUInt8_eq (b := a) (by omega),
    toUInt8_eq (b := b) (by omega)]

theorem encodeChar_three (ha : 0xE0 ≤ a.toNat ∧ a.toNat ≤ 0xEF) (hb : isSecond a b = true)
    (hc : isTail c = true) :
    encodeChar (Char.ofNat ((a.toNat % 16 * 64 + payload b) * 64 + payload c)) = [a, b, c] := by
  obtain ⟨hb, he0, hed, -⟩ := toNat_of_isSecond hb
  have hc := toNat_of_isTail hc
  rw [payload, payload]
  generalize hn : (a.toNat % 16 * 64 + b.toNat % 64) * 64 + c.toNat % 64 = n
  have hchar : (Char.ofNat n).toNat = n := toNat_ofNat (by omega)
  simp only [encodeChar, hchar]
  rw [if_neg (by omega), if_neg (by omega), if_pos (by omega), toUInt8_eq (b := a) (by omega),
    toUInt8_eq (b := b) (by omega), toUInt8_eq (b := c) (by omega)]

theorem encodeChar_four (ha : 0xF0 ≤ a.toNat ∧ a.toNat ≤ 0xF4) (hb : isSecond a b = true)
    (hc : isTail c = true) (hd : isTail d = true) :
    encodeChar (Char.ofNat (((a.toNat % 8 * 64 + payload b) * 64 + payload c) * 64 + payload d)) =
      [a, b, c, d] := by
  obtain ⟨hb, -, -, hf0, hf4⟩ := toNat_of_isSecond hb
  have hc := toNat_of_isTail hc
  have hd := toNat_of_isTail hd
  rw [payload, payload, payload]
  generalize hn : ((a.toNat % 8 * 64 + b.toNat % 64) * 64 + c.toNat % 64) * 64 + d.toNat % 64 = n
  have hchar : (Char.ofNat n).toNat = n := toNat_ofNat (by omega)
  simp only [encodeChar, hchar]
  rw [if_neg (by omega), if_neg (by omega), if_neg (by omega), toUInt8_eq (b := a) (by omega),
    toUInt8_eq (b := b) (by omega), toUInt8_eq (b := c) (by omega), toUInt8_eq (b := d) (by omega)]

end

/-- What is found to be a character is the encoding of this character. -/
theorem encodeChar_of_scan {lead : UInt8} {rest : Bytes} {c : Char} {tail : Nat}
    (h : scan lead rest = .char c tail) : encodeChar c ++ rest.drop tail = lead :: rest := by
  revert h
  fun_cases scan lead rest with
  | case2 rest htail =>
    have hlead := toNat_of_tailLength? htail
    rintro ⟨⟩
    rw [encodeChar_one (by omega)]
    rfl
  | case3 htail b rest hb =>
    have hlead := toNat_of_tailLength? htail
    rintro ⟨⟩
    rw [encodeChar_two (by omega) hb]
    rfl
  | case6 htail b c rest hb hc =>
    have hlead := toNat_of_tailLength? htail
    rintro ⟨⟩
    rw [encodeChar_three (by omega) hb hc]
    rfl
  | case12 n h0 h1 h2 htail b c d rest hb hc hd =>
    have hlead := toNat_of_tailLength? htail
    rintro ⟨⟩
    rw [encodeChar_four (by grind) hb hc hd]
    rfl
  | _ => rintro ⟨⟩

theorem encode_of_decode? {b : Bytes} {text : List Char} (h : decode? b = some text) :
    encode text = b := by
  fun_induction decode? b generalizing text with
  | case1 =>
    cases h
    rfl
  | case2 lead rest c tail hscan ih =>
    obtain ⟨more, hmore, rfl⟩ := Option.map_eq_some_iff.1 h
    rw [encode, List.flatMap_cons, ← encode, ih hmore, encodeChar_of_scan hscan]
  | case3 => cases h

/-- Strict decoding is the inverse of encoding. -/
theorem decode?_eq_some_iff {b : Bytes} {text : List Char} :
    decode? b = some text ↔ encode text = b := by
  constructor
  · exact encode_of_decode?
  · rintro rfl
    exact decode?_encode text

theorem valid_iff {b : Bytes} : Valid b ↔ ∃ text, encode text = b := by
  rw [Valid, Option.isSome_iff_exists]
  simp only [decode?_eq_some_iff]

theorem lossy_encode (text : List Char) : lossy (encode text) = text :=
  lossy_of_decode? (decode?_encode text)

theorem Valid.encode_lossy {b : Bytes} (h : Valid b) : encode (lossy b) = b := by
  obtain ⟨text, rfl⟩ := valid_iff.1 h
  rw [lossy_encode]

theorem toUInt8_cons_lt_iff {m n : Nat} (hm : m < 256) (hn : n < 256) (x y : Bytes) :
    m.toUInt8 :: x < n.toUInt8 :: y ↔ m < n ∨ m = n ∧ x < y := by
  rw [List.cons_lt_cons_iff, UInt8.lt_iff_toNat_lt, ← UInt8.toNat_inj, toNat_toUInt8 hm, toNat_toUInt8 hn]

/-- Characters are told apart before what follows them counts. -/
theorem encodeChar_append_lt {c d : Char} (h : c < d) (x y : Bytes) :
    encodeChar c ++ x < encodeChar d ++ y := by
  have hlt : c.toNat < d.toNat := h
  have hc := toNat_valid c
  have hd := toNat_valid d
  simp only [encodeChar]
  generalize c.toNat = m at hlt hc
  generalize d.toNat = n at hlt hd
  -- more bytes begin with a greater one, and among as many bytes the digits to the base 64 decide
  repeat' split
  all_goals
    simp (disch := omega) only [List.cons_append, List.nil_append, toUInt8_cons_lt_iff]
    omega

theorem encode_lt_encode {s t : List Char} (h : s < t) : encode s < encode t := by
  induction s generalizing t with
  | nil =>
    obtain _ | ⟨d, t⟩ := t
    · exact absurd h (List.lt_irrefl [])
    · obtain ⟨lead, tail, hbytes, -⟩ := scan_encodeChar d []
      rw [encode, encode, List.flatMap_cons, hbytes]
      exact List.nil_lt_cons lead (tail ++ t.flatMap encodeChar)
  | cons c s ih =>
    obtain _ | ⟨d, t⟩ := t
    · exact absurd h (List.not_lt_nil (c :: s))
    · rw [encode, encode, List.flatMap_cons, List.flatMap_cons]
      rcases List.cons_lt_cons_iff.1 h with hcd | ⟨rfl, hst⟩
      · exact encodeChar_append_lt hcd _ _
      · exact List.append_left_lt (ih hst)

/-- The bytes of texts are in the order of the texts. -/
theorem encode_lt_encode_iff {s t : List Char} : encode s < encode t ↔ s < t := by
  refine ⟨fun h => ?_, encode_lt_encode⟩
  rcases Std.lt_trichotomy s t with hst | rfl | hts
  · exact hst
  · exact absurd h (List.lt_irrefl _)
  · exact absurd (encode_lt_encode hts) (List.lt_asymm h)

section
variable {a b : Bytes}

theorem Valid.lossy_inj (ha : Valid a) (hb : Valid b) (h : lossy a = lossy b) : a = b := by
  rw [← ha.encode_lossy, h, hb.encode_lossy]

theorem Valid.lossy_lt_iff (ha : Valid a) (hb : Valid b) : lossy a < lossy b ↔ a < b := by
  rw [← encode_lt_encode_iff, ha.encode_lossy, hb.encode_lossy]

end

end Bencode.Utf8
