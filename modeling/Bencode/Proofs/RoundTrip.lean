import Bencode.Proofs.Reader.Acceptance

/-! # Decoding and encoding undo each other

Under strict keys an input is accepted only if it is the wire form of the answer, so decoding loses
nothing. In the other direction every tree that a dictionary type can hold is decoded from its
encoding, under strict keys or not, as long as it keeps to the limits.
-/
namespace Bencode
open Value Reader

/-- Under strict keys the answer is written as the text was from which it was read. -/
theorem wire_of_document {limits : Limits} {c c' : Cursor} {v : Value}
    (hs : limits.strictKeys = true) (h : document limits c = (.ok v, c')) :
    v.HoleFree ∧ v.wire = c.rest := by
  obtain ⟨⟨w, hw, -, rfl, hp⟩, hend⟩ := document_eq_ok_iff.1 h
  have htext : c.rest = w.wire ++ c'.rest := hp.1
  rw [hend, List.append_nil] at htext
  rw [settled_of_sorted (hw.sorted hs)]
  exact ⟨hw.holeFree, htext.symm⟩

theorem wire_of_decode {b : Bytes} {limits : Limits} {v : Value}
    (hs : limits.strictKeys = true) (h : decode b limits = .ok v) : v.HoleFree ∧ v.wire = b :=
  wire_of_document hs (Prod.ext h rfl)

/-- What strict decoding accepts is canonical: encoding the answer gives the input back. -/
theorem encode_of_decode_strict {b : Bytes} {maxDepth maxStringLength : Nat} {v : Value}
    (h : decode b ⟨maxDepth, maxStringLength, true⟩ = .ok v) :
    v.HoleFree ∧ encode v = .ok b := by
  have hv := wire_of_decode rfl h
  exact ⟨hv.1, encode_eq_ok_iff.2 hv⟩

/-- The input is `d1:ali-5e0:ee`. -/
theorem encode_of_decode_strict_nested :
    decode [100, 49, 58, 97, 108, 105, 45, 53, 101, 48, 58, 101, 101] ⟨3, 1, true⟩ =
        .ok (.dict [([97], .list [.integer (-5), .bytes []])]) ∧
      (Value.dict [([97], .list [.integer (-5), .bytes []])]).HoleFree ∧
      encode (.dict [([97], .list [.integer (-5), .bytes []])]) =
        .ok [100, 49, 58, 97, 108, 105, 45, 53, 101, 48, 58, 101, 101] := by
  have h : decode [100, 49, 58, 97, 108, 105, 45, 53, 101, 48, 58, 101, 101] ⟨3, 1, true⟩ =
      .ok (.dict [([97], .list [.integer (-5), .bytes []])]) := by decide +kernel
  exact ⟨h, encode_of_decode_strict h⟩

/-- Whatever is decoded is sorted, can be written again and keeps to the limits. -/
theorem wellWritten_of_decode {b : Bytes} {limits : Limits} {v : Value}
    (h : decode b limits = .ok v) : v.WellWritten true ∧ v.Within limits limits.maxDepth := by
  obtain ⟨w, hw, hl, rfl, -⟩ := decode_eq_ok_iff.1 h
  exact ⟨hw.settled, hl.settled⟩

/-- Decoding the wire form of a sorted tree gives the tree, or names a limit that it exceeds. -/
theorem decode_wire {v : Value} (hw : v.WellWritten true) (limits : Limits) :
    decode v.wire limits = .ok v ∨
      ∃ e, decode v.wire limits = .error e ∧ Exceeds limits limits.maxDepth v.depth v.strings e := by
  have h := decode_wire_of_wellWritten (hw.relax limits.strictKeys)
  rwa [settled_of_sorted (hw.sorted rfl)] at h

theorem decode_wire_of_within {v : Value} {limits : Limits} (hw : v.WellWritten true)
    (hl : v.Within limits limits.maxDepth) : decode v.wire limits = .ok v := by
  rcases decode_wire hw limits with h | ⟨e, -, he⟩
  · exact h
  · exact absurd hl he.not_within

/-- Decoding undoes encoding exactly within the limits. Beyond them it fails, and the error names the
depth of the tree or the length of one of its byte strings. -/
theorem decode_encode {v : Value} (hfree : v.HoleFree) (hsorted : v.Sorted)
    (hlength : ∀ s ∈ v.strings, s.length < 2 ^ 63) (limits : Limits) :
    ∃ b, encode v = .ok b ∧
      (v.depth ≤ limits.maxDepth ∧ (∀ s ∈ v.strings, s.length ≤ limits.maxStringLength) →
        decode b limits = .ok v) ∧
      (¬ (v.depth ≤ limits.maxDepth ∧ ∀ s ∈ v.strings, s.length ≤ limits.maxStringLength) →
        ∃ e, decode b limits = .error e ∧
          Exceeds limits limits.maxDepth v.depth v.strings e) := by
  have hw : v.WellWritten true := ⟨hfree, fun _ => hsorted, hlength⟩
  refine ⟨v.wire, encode_eq_ok_iff.2 ⟨hfree, rfl⟩, fun ⟨hd, hl⟩ => ?_, fun hover => ?_⟩
  · exact decode_wire_of_within hw ⟨hd, hl⟩
  · rcases decode_wire hw limits with h | h
    · obtain ⟨-, hd, hl⟩ := wellWritten_of_decode h
      exact absurd ⟨hd, hl⟩ hover
    · exact h

/-- Three levels are enough for a list in a dictionary, two are not. -/
theorem decode_encode_nested : ∃ b,
    encode (.dict [([97], .list [.integer (-5), .bytes []])]) = .ok b ∧
      decode b ⟨3, 1, true⟩ = .ok (.dict [([97], .list [.integer (-5), .bytes []])]) ∧
      ∃ e, decode b ⟨2, 1, false⟩ = .error e ∧ Exceeds ⟨2, 1, false⟩ 2 3 [[97], []] e := by
  have hfree : (Value.dict [([97], .list [.integer (-5), .bytes []])]).HoleFree := by
    simp [HoleFree, HoleFreeEntries, HoleFreeItems]
  have hsorted : (Value.dict [([97], .list [.integer (-5), .bytes []])]).Sorted := by
    simp [Value.Sorted, SortedEntries, SortedItems, Entries.Sorted, Entries.keys]
  have hlength : ∀ s ∈ (Value.dict [([97], .list [.integer (-5), .bytes []])]).strings,
      s.length < 2 ^ 63 := by
    simp [strings, stringsEntries, stringsItems]
  obtain ⟨b, hb, hv, -⟩ := decode_encode hfree hsorted hlength ⟨3, 1, true⟩
  obtain ⟨b', hb', -, he⟩ := decode_encode hfree hsorted hlength ⟨2, 1, false⟩
  obtain rfl : b = b' := Except.ok.inj (hb.symm.trans hb')
  exact ⟨b, hb, hv (by decide), he (by decide)⟩

end Bencode
