import Bencode.Text.Utf8

/-! # UTF-8 there and back

Decoding finds the characters of a text in the bytes that encoding makes of it. The bytes of a character are
told from their lead byte, and the bounds of the second byte hold of them because the character is none of
the surrogates.
-/
namespace Bencode.Utf8

theorem toNat_toUInt8 {n : Nat} (h : n < 256) : n.toUInt8.toNat = n := by
  rw [Nat.toUInt8, UInt8.toNat_ofNat', Nat.mod_eq_of_lt h]

theorem isTail_toUInt8 {n : Nat} (h : 0x80 ≤ n ∧ n < 0xC0) : isTail n.toUInt8 = true := by
  have hn : n.toUInt8.toNat = n := toNat_toUInt8 (by omega)
  simp only [isTail, Bool.and_eq_true, decide_eq_true_eq, UInt8.le_iff_toNat_le, hn, UInt8.reduceToNat]
  omega

theorem payload_toUInt8 {n : Nat} (h : n < 64) : payload (0x80 + n).toUInt8 = n := by
  rw [payload, toNat_toUInt8 (by omega)]
  omega

theorem isSecond_toUInt8 {lead n : Nat} (hlead : lead < 256) (h : 0x80 ≤ n ∧ n < 0xC0)
    (he0 : lead = 0xE0 → 0xA0 ≤ n) (hed : lead = 0xED → n ≤ 0x9F) (hf0 : lead = 0xF0 → 0x90 ≤ n)
    (hf4 : lead = 0xF4 → n ≤ 0x8F) : isSecond lead.toUInt8 n.toUInt8 = true := by
  have hn : n.toUInt8.toNat = n := toNat_toUInt8 (by omega)
  have hl : lead.toUInt8.toNat = lead := toNat_toUInt8 hlead
  simp only [isSecond, isTail, ← UInt8.toNat_inj, hl, UInt8.reduceToNat]
  repeat' split
  all_goals
    simp only [Bool.and_eq_true, decide_eq_true_eq, UInt8.le_iff_toNat_le, hn, UInt8.reduceToNat]
    omega

theorem tailLength?_toUInt8 {n : Nat} (h : n < 256) :
    tailLength? n.toUInt8 =
      if n < 0x80 then some 0
      else if 0xC2 ≤ n ∧ n ≤ 0xDF then some 1
      else if 0xE0 ≤ n ∧ n ≤ 0xEF then some 2
      else if 0xF0 ≤ n ∧ n ≤ 0xF4 then some 3
      else none := by
  simp only [tailLength?, UInt8.le_iff_toNat_le, UInt8.lt_iff_toNat_lt, toNat_toUInt8 h,
    UInt8.reduceToNat]

section
variable {a b c d : Nat} {rest : Bytes}

theorem scan_one (ha : a < 0x80) : scan a.toUInt8 rest = .char (Char.ofNat a) 0 := by
  have hlead : a.toUInt8.toNat = a := toNat_toUInt8 (by omega)
  have htail : tailLength? a.toUInt8 = some 0 := by rw [tailLength?_toUInt8 (by omega), if_pos ha]
  simp only [scan, htail, hlead]

theorem scan_two (ha : 0xC2 ≤ a ∧ a ≤ 0xDF) (hb : b < 64) :
    scan a.toUInt8 ((0x80 + b).toUInt8 :: rest) = .char (Char.ofNat (a % 32 * 64 + b)) 1 := by
  have hlead : a.toUInt8.toNat = a := toNat_toUInt8 (by omega)
  have htail : tailLength? a.toUInt8 = some 1 := by
    rw [tailLength?_toUInt8 (by omega), if_neg (by omega), if_pos ha]
  have hsecond : isSecond a.toUInt8 (0x80 + b).toUInt8 = true :=
    isSecond_toUInt8 (by omega) (by omega) (by omega) (by omega) (by omega) (by omega)
  simp only [scan, htail, hsecond, if_true, hlead, payload_toUInt8 hb]

theorem scan_three (ha : 0xE0 ≤ a ∧ a ≤ 0xEF) (hb : b < 64) (hc : c < 64) (he0 : a = 0xE0 → 0x20 ≤ b)
    (hed : a = 0xED → b < 0x20) :
    scan a.toUInt8 ((0x80 + b).toUInt8 :: (0x80 + c).toUInt8 :: rest) =
      .char (Char.ofNat ((a % 16 * 64 + b) * 64 + c)) 2 := by
  have hlead : a.toUInt8.toNat = a := toNat_toUInt8 (by omega)
  have htail : tailLength? a.toUInt8 = some 2 := by
    rw [tailLength?_toUInt8 (by omega), if_neg (by omega), if_neg (by omega), if_pos ha]
  have hsecond : isSecond a.toUInt8 (0x80 + b).toUInt8 = true :=
    isSecond_toUInt8 (by omega) (by omega) (by omega) (by omega) (by omega) (by omega)
  have hthird : isTail (0x80 + c).toUInt8 = true := isTail_toUInt8 (by omega)
  simp only [scan, htail, hsecond, hthird, if_true, hlead, payload_toUInt8 hb, payload_toUInt8 hc]

theorem scan_four (ha : 0xF0 ≤ a ∧ a ≤ 0xF4) (hb : b < 64) (hc : c < 64) (hd : d < 64)
    (hf0 : a = 0xF0 → 0x10 ≤ b) (hf4 : a = 0xF4 → b < 0x10) :
    scan a.toUInt8 ((0x80 + b).toUInt8 :: (0x80 + c).toUInt8 :: (0x80 + d).toUInt8 :: rest) =
      .char (Char.ofNat (((a % 8 * 64 + b) * 64 + c) * 64 + d)) 3 := by
  have hlead : a.toUInt8.toNat = a := toNat_toUInt8 (by omega)
  have htail : tailLength? a.toUInt8 = some 3 := by
    rw [tailLength?_toUInt8 (by omega), if_neg (by omega), if_neg (by omega), if_neg (by omega),
      if_pos ha]
  have hsecond : isSecond a.toUInt8 (0x80 + b).toUInt8 = true :=
    isSecond_toUInt8 (by omega) (by omega) (by omega) (by omega) (by omega) (by omega)
  have hthird : isTail (0x80 + c).toUInt8 = true := isTail_toUInt8 (by omega)
  have hfourth : isTail (0x80 + d).toUInt8 = true := isTail_toUInt8 (by omega)
  simp only [scan, htail, hsecond, hthird, hfourth, if_true, hlead, payload_toUInt8 hb,
    payload_toUInt8 hc, payload_toUInt8 hd]

end

theorem toNat_valid (c : Char) : c.toNat < 0xD800 ∨ 0xDFFF < c.toNat ∧ c.toNat < 0x110000 := c.valid

theorem toNat_ofNat {n : Nat} (h : n < 0xD800 ∨ 0xDFFF < n ∧ n < 0x110000) :
    (Char.ofNat n).toNat = n := by
  rw [Char.ofNat, dif_pos h]
  rfl

/-- The bytes of a character, as they stand in front of others, are found to be this character. -/
theorem scan_encodeChar (c : Char) (rest : Bytes) :
    ∃ lead tail, encodeChar c = lead :: tail ∧ scan lead (tail ++ rest) = .char c tail.length := by
  have hvalid := toNat_valid c
  have hchar : Char.ofNat c.toNat = c := Char.ofNat_toNat c
  simp only [encodeChar]
  generalize c.toNat = n at hvalid hchar
  -- the digits of the number to the base 64 make up the number again
  split
  · exact ⟨_, [], rfl, hchar ▸ scan_one (by omega)⟩
  split
  · have hn : (0xC0 + n / 64) % 32 * 64 + n % 64 = n := by omega
    refine ⟨_, [_], rfl, (scan_two (by omega) (by omega)).trans ?_⟩
    rw [hn, hchar, List.length_singleton]
  split
  · have hn : ((0xE0 + n / 4096) % 16 * 64 + n / 64 % 64) * 64 + n % 64 = n := by omega
    refine ⟨_, [_, _], rfl,
      (scan_three (by omega) (by omega) (by omega) (by omega) (by omega)).trans ?_⟩
    rw [hn, hchar, List.length_cons, List.length_singleton]
  · have hn : (((0xF0 + n / 262144) % 8 * 64 + n / 4096 % 64) * 64 + n / 64 % 64) * 64 + n % 64 = n := by
      omega
    refine ⟨_, [_, _, _], rfl,
      (scan_four (by omega) (by omega) (by omega) (by omega) (by omega) (by omega)).trans ?_⟩
    rw [hn, hchar, List.length_cons, List.length_cons, List.length_singleton]

theorem decode?_encode (text : List Char) : decode? (encode text) = some text := by
  induction text with
  | nil => rw [encode, List.flatMap_nil, decode?]
  | cons c text ih =>
    obtain ⟨lead, tail, hbytes, hscan⟩ := scan_encodeChar c (encode text)
    have hencode : encode (c :: text) = lead :: (tail ++ encode text) := by
      rw [encode, List.flatMap_cons, hbytes]
      rfl
    rw [hencode, decode?, hscan]
    simp only [List.drop_left, ih, Option.map_some]

end Bencode.Utf8
