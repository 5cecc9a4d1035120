import Bencode.Decimal
import Mathlib.Algebra.Group.Int.Defs
import Mathlib.Algebra.Group.Nat.Defs
import Mathlib.Data.List.Induction

/-! # Canonical decimals by their spelling

`Canonical` says how the decimal of a number may be spelled, without saying how it is computed. The
decimal that `ofInt` writes is the only one that follows these rules, so a number and its spelling
determine each other.
-/
namespace Bencode

theorem digitValue_pos {b : UInt8} (h : isDigit b = true) (h₀ : b ≠ Mark.zero) :
    0 < digitValue b := by
  simp only [isDigit, Bool.and_eq_true, decide_eq_true_eq, UInt8.le_iff_toNat_le] at h
  have hne : b.toNat ≠ 48 := fun he => h₀ (UInt8.toNat_inj.1 he)
  have hle : 48 ≤ b.toNat := h.1
  simp only [digitValue]
  omega

theorem ofNat_digitValue {b : UInt8} (h : isDigit b = true) :
    48 + (digitValue b).toUInt8 = b := by
  simp only [isDigit, Bool.and_eq_true, decide_eq_true_eq, UInt8.le_iff_toNat_le] at h
  have hle : 48 ≤ b.toNat := h.1
  have hlt := UInt8.toNat_lt b
  apply UInt8.toNat_inj.1
  rw [UInt8.toNat_add]
  simp only [UInt8.reduceToNat, Nat.toUInt8, UInt8.toNat_ofNat', digitValue]
  omega

theorem isDigit_ofNat {d : Nat} (h : d < 10) : isDigit (48 + d.toUInt8) = true := by
  have hd : (48 + d.toUInt8).toNat = 48 + d := by
    rw [UInt8.toNat_add]
    simp only [UInt8.reduceToNat, Nat.toUInt8, UInt8.toNat_ofNat']
    omega
  simp only [isDigit, Bool.and_eq_true, decide_eq_true_eq, UInt8.le_iff_toNat_le, hd,
    UInt8.reduceToNat]
  omega

theorem ne_of_isDigit {a b : UInt8} (ha : isDigit a = true) (hb : isDigit b = false) : a ≠ b :=
  fun he => by simp [he, hb] at ha

namespace Decimal

/-- Digits without a leading zero, and a minus only in front of a number that is not zero. -/
inductive Canonical : Bytes → Int → Prop where
  | zero : Canonical [Mark.zero] 0
  | positive {d : UInt8} {ds : Bytes} (h₀ : d ≠ Mark.zero)
      (h : ∀ b ∈ d :: ds, isDigit b = true) : Canonical (d :: ds) (value (d :: ds))
  | negative {d : UInt8} {ds : Bytes} (h₀ : d ≠ Mark.zero)
      (h : ∀ b ∈ d :: ds, isDigit b = true) :
      Canonical (Mark.minus :: d :: ds) (-(value (d :: ds) : Int))

theorem value_append (s t : Bytes) : value (s ++ t) = value s * 10 ^ t.length + value t := by
  induction t using List.reverseRecOn with
  | nil => simp [value]
  | append_singleton t b ih =>
    have hm : 10 * (value s * 10 ^ t.length) = value s * (10 ^ t.length * 10) := by
      rw [Nat.mul_left_comm, Nat.mul_comm 10]
    rw [← List.append_assoc, value_append_digit, value_append_digit, ih, List.length_append,
      List.length_singleton, Nat.pow_succ, Nat.mul_add]
    omega

theorem value_pos {d : UInt8} (ds : Bytes) (h₀ : d ≠ Mark.zero) (h : isDigit d = true) :
    0 < value (d :: ds) := by
  have hv := value_append [d] ds
  have hd : value [d] = digitValue d := by simp [value]
  rw [List.singleton_append, hd] at hv
  have hp := Nat.mul_pos (digitValue_pos h h₀) (Nat.pow_pos (n := ds.length) (by decide : 0 < 10))
  omega

theorem isDigit_of_mem_digits {n : Nat} {b : UInt8} (h : b ∈ digits n) : isDigit b = true := by
  induction n using Nat.strongRecOn with
  | ind n ih =>
    rw [digits] at h
    split at h
    · next hn => exact List.mem_singleton.1 h ▸ isDigit_ofNat hn
    · next hn =>
      rcases List.mem_append.1 h with h | h
      · exact ih (n / 10) (by omega) h
      · exact List.mem_singleton.1 h ▸ isDigit_ofNat (Nat.mod_lt _ (by decide))

/-- Whatever follows, a text that begins with the digits of a number begins with a digit. -/
theorem exists_digits_append_eq_cons (n : Nat) (more : Bytes) :
    ∃ d rest, digits n ++ more = d :: rest ∧ isDigit d = true := by
  obtain ⟨d, ds, hd⟩ := List.exists_cons_of_ne_nil (digits_ne_nil n)
  have hdigit : isDigit d = true := isDigit_of_mem_digits (n := n) (hd ▸ List.mem_cons_self)
  exact ⟨d, ds ++ more, by rw [hd, List.cons_append], hdigit⟩

theorem ofInt_ne_nil (n : Int) : ofInt n ≠ [] := by
  unfold ofInt
  split
  · exact List.cons_ne_nil _ _
  · exact digits_ne_nil _

/-- Writing out the number that digits denote gives the digits back, unless a zero leads. -/
theorem digits_value {d : UInt8} {ds : Bytes} (h₀ : d ≠ Mark.zero)
    (h : ∀ b ∈ d :: ds, isDigit b = true) : digits (value (d :: ds)) = d :: ds := by
  induction ds using List.reverseRecOn with
  | nil =>
    have hd : value [d] = digitValue d := by simp [value]
    rw [hd, digits, if_pos (digitValue_lt (h d (by simp))), ofNat_digitValue (h d (by simp))]
  | append_singleton ds b ih =>
    have hb : isDigit b = true := h b (by simp)
    have hds : ∀ a ∈ d :: ds, isDigit a = true := fun a ha => h a (List.mem_append_left [b] ha)
    have hlt := digitValue_lt hb
    have hpos := value_pos ds h₀ (h d (by simp))
    have hv : value (d :: (ds ++ [b])) = 10 * value (d :: ds) + digitValue b :=
      value_append_digit (d :: ds) b
    have hdiv : value (d :: (ds ++ [b])) / 10 = value (d :: ds) := by omega
    have hmod : value (d :: (ds ++ [b])) % 10 = digitValue b := by omega
    rw [digits, if_neg (by omega), hdiv, hmod, ih hds, ofNat_digitValue hb, List.cons_append]

theorem digits_zero : digits 0 = [Mark.zero] := by
  rw [digits]
  rfl

/-- The digits of a number that is not zero do not begin with a zero. -/
theorem exists_digits_eq_cons {n : Nat} (hn : n ≠ 0) :
    ∃ d ds, digits n = d :: ds ∧ d ≠ Mark.zero := by
  induction n using Nat.strongRecOn with
  | ind n ih =>
    by_cases h : n < 10
    · refine ⟨48 + n.toUInt8, [], by rw [digits, if_pos h], fun he => hn ?_⟩
      have hv := value_digits n
      rw [digits, if_pos h, he] at hv
      exact hv.symm
    · obtain ⟨d, ds, hd, h₀⟩ := ih (n / 10) (by omega) (by omega)
      exact ⟨d, ds ++ [48 + (n % 10).toUInt8], by rw [digits, if_neg h, hd, List.cons_append], h₀⟩

theorem canonical_digits (n : Nat) : Canonical (digits n) n := by
  by_cases hn : n = 0
  · subst hn
    exact digits_zero ▸ .zero
  · obtain ⟨d, ds, hd, h₀⟩ := exists_digits_eq_cons hn
    have hv := value_digits n
    rw [hd] at hv ⊢
    exact hv ▸ .positive h₀ fun b hb => isDigit_of_mem_digits (n := n) (hd ▸ hb)

theorem canonical_ofInt (n : Int) : Canonical (ofInt n) n := by
  rw [ofInt]
  split
  · next hn =>
    obtain ⟨d, ds, hd, h₀⟩ := exists_digits_eq_cons (n := n.natAbs) (by omega)
    have hv : value (d :: ds) = n.natAbs := hd ▸ value_digits n.natAbs
    have hneg : n = -(value (d :: ds) : Int) := by omega
    rw [hd, hneg]
    exact .negative h₀ fun b hb => isDigit_of_mem_digits (n := n.natAbs) (hd ▸ hb)
  · next hn =>
    have habs : (n.natAbs : Int) = n := by omega
    simpa only [habs] using canonical_digits n.natAbs

theorem Canonical.eq_ofInt {text : Bytes} {n : Int} (h : Canonical text n) : text = ofInt n := by
  cases h with
  | zero => rw [ofInt, if_neg (by decide), Int.natAbs_zero, digits_zero]
  | positive h₀ h => rw [ofInt, if_neg (by omega), Int.natAbs_natCast, digits_value h₀ h]
  | @negative d ds h₀ h =>
    have hpos := value_pos ds h₀ (h d (by simp))
    rw [ofInt, if_pos (by omega), Int.natAbs_neg, Int.natAbs_natCast, digits_value h₀ h]

theorem ofInt_natCast (n : Nat) : ofInt n = digits n := by
  rw [ofInt, if_neg (by omega), Int.natAbs_natCast]

theorem length_digits_le {n k : Nat} (h : n < 10 ^ (k + 1)) : (digits n).length ≤ k + 1 := by
  induction k generalizing n with
  | zero => rw [digits, if_pos (by simpa using h)]; simp
  | succ k ih =>
    rw [digits]
    split
    · simp
    · have hlt : n / 10 < 10 ^ (k + 1) := by
        rw [Nat.div_lt_iff_lt_mul (by decide), ← Nat.pow_succ]
        exact h
      have := ih hlt
      simp only [List.length_append, List.length_singleton]
      omega

theorem lt_ten_pow_length_digits (n : Nat) : n < 10 ^ (digits n).length := by
  induction n using Nat.strongRecOn with
  | ind n ih =>
    rw [digits]
    split
    · next hn => simpa using hn
    · next hn =>
      have hdiv : n / 10 < 10 ^ (digits (n / 10)).length := ih (n / 10) (by omega)
      rw [List.length_append, List.length_singleton, Nat.pow_succ]
      omega

theorem length_digits_le_iff {n k : Nat} : (digits n).length ≤ k + 1 ↔ n < 10 ^ (k + 1) := by
  refine ⟨fun h => ?_, length_digits_le⟩
  have hpow : 10 ^ (digits n).length ≤ 10 ^ (k + 1) := Nat.pow_le_pow_right (by decide) h
  exact Nat.lt_of_lt_of_le (lt_ten_pow_length_digits n) hpow

/-- The decimals of at most twenty characters; a minus takes the place of one digit. -/
theorem length_ofInt_le_iff {n : Int} :
    (ofInt n).length ≤ 20 ↔ -10 ^ 19 < n ∧ n < 10 ^ 20 := by
  have hshort : (digits n.natAbs).length ≤ 18 + 1 ↔ n.natAbs < 10 ^ 19 := length_digits_le_iff
  have hlong : (digits n.natAbs).length ≤ 19 + 1 ↔ n.natAbs < 10 ^ 20 := length_digits_le_iff
  rw [ofInt]
  split
  · rw [List.length_cons]
    omega
  · omega

/-- A sign and nineteen digits are enough for every signed 64-bit integer. -/
theorem length_ofInt_le (n : Int64) : (ofInt n.toInt).length ≤ 20 := by
  have hlo := Int64.le_toInt n
  have hhi := Int64.toInt_lt n
  exact length_ofInt_le_iff.2 (by omega)

end Decimal

end Bencode
