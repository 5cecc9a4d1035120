import Bencode.Proofs.RoundTrip

/-! # Decoding without key order and encoding again

Without strict keys an input may have its entries in any order and a key more than once. Encoding what
was decoded writes the same tree with sorted keys and each key once: no longer than the input, within
the limits that the input kept to, and accepted under strict keys. Doing so twice changes nothing more.
-/
namespace Bencode

namespace Value

theorem wireEntries_append (es fs : List (Bytes × Value)) :
    wireEntries (es ++ fs) = wireEntries es ++ wireEntries fs := by
  induction es with
  | nil => rfl
  | cons e es ih => simp only [List.cons_append, wireEntries, ih, List.append_assoc]

/-- A new entry is written once, and it may take the place of an old one. -/
theorem length_wireEntries_insert_le (k : Bytes) (v : Value) (es : List (Bytes × Value)) :
    (wireEntries (Entries.insert k v es)).length ≤
      (wireEntries es).length + (stringWire k ++ v.wire).length := by
  induction es with
  | nil => simp [Entries.insert, wireEntries]
  | cons e es ih =>
    obtain ⟨l, w⟩ := e
    rw [List.length_append] at ih ⊢
    rw [Entries.insert]
    split
    · next hk =>
      simp only [wireEntries, List.length_append]
      omega
    · split
      · simp only [wireEntries, List.length_append]
        omega
      · simp only [wireEntries, List.length_append]
        omega

theorem length_wireEntries_ofList_le (es : List (Bytes × Value)) :
    (wireEntries (Entries.ofList es)).length ≤ (wireEntries es).length := by
  induction es using List.reverseRecOn with
  | nil => exact Nat.le_refl _
  | append_singleton es e ih =>
    have hinsert := length_wireEntries_insert_le e.1 e.2 (Entries.ofList es)
    have hlast : wireEntries [e] = stringWire e.1 ++ e.2.wire := List.append_nil _
    rw [Entries.ofList_concat, wireEntries_append, hlast, List.length_append]
    omega

theorem length_wireItems_map_le {f : Value → Value} {vs : List Value}
    (h : ∀ v ∈ vs, (f v).wire.length ≤ v.wire.length) :
    (wireItems (vs.map f)).length ≤ (wireItems vs).length := by
  induction vs with
  | nil => exact Nat.le_refl _
  | cons v vs ih =>
    obtain ⟨hv, hvs⟩ := List.forall_mem_cons.1 h
    have hrest := ih hvs
    simp only [List.map_cons, wireItems, List.length_append]
    omega

theorem length_wireEntries_map_le {f : Value → Value} {es : List (Bytes × Value)}
    (h : ∀ e ∈ es, (f e.2).wire.length ≤ e.2.wire.length) :
    (wireEntries (es.map fun e => (e.1, f e.2))).length ≤ (wireEntries es).length := by
  induction es with
  | nil => exact Nat.le_refl _
  | cons e es ih =>
    obtain ⟨he, hes⟩ := List.forall_mem_cons.1 h
    have hrest := ih hes
    simp only [List.map_cons, wireEntries, List.length_append]
    omega

theorem length_wire_settled_le (v : Value) : v.settled.wire.length ≤ v.wire.length := by
  induction v with
  | list vs ih =>
    have hitems := length_wireItems_map_le ih
    rw [settled_list, wire, wire]
    simp only [List.length_cons, List.length_append]
    omega
  | dict es ih =>
    have hsettled := length_wireEntries_map_le ih
    have hkept := length_wireEntries_ofList_le (es.map fun e => (e.1, e.2.settled))
    rw [settled_dict, ofEntries, wire, wire]
    simp only [List.length_cons, List.length_append]
    omega
  | _ => exact Nat.le_refl _

end Value

open Value

/-- What was decoded is written no longer than it was read. -/
theorem length_wire_le_of_decode {b : Bytes} {limits : Limits} {v : Value}
    (h : decode b limits = .ok v) : v.wire.length ≤ b.length := by
  obtain ⟨w, -, -, rfl, rfl⟩ := decode_eq_ok_iff.1 h
  exact length_wire_settled_le w

/-- Decoding without strict keys and encoding again is a normal form: the encoding exists, is no
longer than the input, and is read back to the same tree under strict keys and the same limits. So
doing both once more gives the same bytes. -/
theorem encode_of_decode_lax {b : Bytes} {maxDepth maxStringLength : Nat} {v : Value}
    (h : decode b ⟨maxDepth, maxStringLength, false⟩ = .ok v) :
    ∃ c, encode v = .ok c ∧ c.length ≤ b.length ∧
      decode c ⟨maxDepth, maxStringLength, true⟩ = .ok v ∧
      (decode c ⟨maxDepth, maxStringLength, false⟩).bind encode = .ok c := by
  obtain ⟨hw, hd, hl⟩ := wellWritten_of_decode h
  have hencode : encode v = .ok v.wire := encode_eq_ok_iff.2 ⟨hw.holeFree, rfl⟩
  have hstrict : decode v.wire ⟨maxDepth, maxStringLength, true⟩ = .ok v :=
    decode_wire_of_within hw ⟨hd, hl⟩
  have hlax : decode v.wire ⟨maxDepth, maxStringLength, false⟩ = .ok v :=
    decode_wire_of_within hw ⟨hd, hl⟩
  refine ⟨v.wire, hencode, length_wire_le_of_decode h, hstrict, ?_⟩
  rw [hlax]
  exact hencode

/-- The input is `d1:bi1e1:ai2e1:bi3ee`, in which the keys are out of order and one comes twice. -/
theorem encode_of_decode_lax_repeated : ∃ c,
    decode [100, 49, 58, 98, 105, 49, 101, 49, 58, 97, 105, 50, 101, 49, 58, 98, 105, 51, 101, 101]
        ⟨2, 1, false⟩ = .ok (.dict [([97], .integer 2), ([98], .integer 3)]) ∧
      encode (.dict [([97], .integer 2), ([98], .integer 3)]) = .ok c ∧ c.length ≤ 20 ∧
      decode c ⟨2, 1, true⟩ = .ok (.dict [([97], .integer 2), ([98], .integer 3)]) := by
  have h : decode [100, 49, 58, 98, 105, 49, 101, 49, 58, 97, 105, 50, 101, 49, 58, 98, 105, 51, 101,
      101] ⟨2, 1, false⟩ = .ok (.dict [([97], .integer 2), ([98], .integer 3)]) := by decide +kernel
  obtain ⟨c, hc, hl, hs, -⟩ := encode_of_decode_lax h
  exact ⟨c, h, hc, hl, hs⟩

end Bencode
