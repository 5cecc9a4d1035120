import Bencode.Proofs.Evidence
import Bencode.Proofs.Reader.Embedding

/-! # What decoding depends on

Decoding from a position is decoding what is left there: what stands in front only moves the offsets.
What stands behind an input matters only if the input was accepted or cut off. More bytes behind an
accepted input are trailing data, more bytes behind a refused one leave the error as it was, unless
it says that the input ended too early. So no accepted input begins another.
-/
namespace Bencode
open Cursor Reader

namespace Reader

variable {n : Nat} {s : Bytes} {limits : Limits} {c c' : Cursor} {v : Value}

theorem document_embeds_nil (n : Nat) (limits : Limits) (c : Cursor) :
    Embeds n [] (document limits c) (document limits (c.embed n [])) := by
  refine (tree_embeds n [] limits limits.maxDepth c).andThen fun v c₁ _ => ?_
  have hrest : (c₁.embed n []).rest = c₁.rest := by rw [embed_nil]
  rw [hrest]
  split
  · exact .ok v c₁
  · exact .fail c₁ _

/-- Behind a value that ended the input, anything more is trailing data. -/
theorem document_embed_of_ok (hs : s ≠ []) (h : document limits c = (.ok v, c')) :
    document limits (c.embed n s) = (c'.embed n s).fail .trailingData := by
  obtain ⟨hw, hrest⟩ := document_eq_ok_iff.1 h
  have htree : (tree limits limits.maxDepth).run c = (.ok v, c') := tree_eq_ok_iff.2 hw
  have hmore : (c'.embed n s).rest.isEmpty = false := by
    simpa [embed, hrest] using hs
  rw [document, tree_embeds n s limits limits.maxDepth c (.inr (htree ▸ rfl)), htree,
    Outcome.embed_ok, Outcome.andThen_ok, hmore, if_neg Bool.false_ne_true]

/-- An error that was not for want of input stays what it is. -/
theorem document_embed_of_error {e : Error} (he : e.isTruncation = false)
    (h : document limits c = (.error e, c')) :
    document limits (c.embed n s) = (.error (e.shift n), c'.embed n s) := by
  have hembeds := tree_embeds n s limits limits.maxDepth c
  rw [document] at h ⊢
  cases htree : (tree limits limits.maxDepth).run c with
  | mk result c₁ =>
    rw [htree] at h hembeds
    cases result with
    | error e' =>
      obtain ⟨rfl, rfl⟩ : e' = e ∧ c₁ = c' := by simpa using h
      rw [hembeds (.inr he)]
      rfl
    | ok u =>
      rw [hembeds (.inr rfl), Outcome.embed_ok, Outcome.andThen_ok]
      rw [Outcome.andThen_ok] at h
      split at h
      · simp at h
      · next hrest =>
        obtain ⟨rfl, rfl⟩ : .malformed c₁.offset .trailingData = e ∧ c₁ = c' := by
          simpa [fail] using h
        have hmore : (c₁.embed n s).rest.isEmpty = false := by
          cases hc : c₁.rest with
          | nil => exact absurd (by rw [hc]; rfl) hrest
          | cons b rest => rw [rest_embed hc]; rfl
        rw [hmore, if_neg Bool.false_ne_true]
        rfl

end Reader

/-- Decoding from a position gives what decoding the rest of the data gives, with the offsets moved,
and stops as far behind the position. -/
theorem decode_from_position (data : Bytes) (start : Nat) (limits : Limits) :
    Input.decode ⟨data, start⟩ limits =
      ((decode (data.drop start) limits).mapError (Error.shift start),
        ⟨data, start + (Input.decode ⟨data.drop start, 0⟩ limits).2.position⟩) := by
  have hplace : place data start = (Cursor.ofBytes (data.drop start)).embed start [] := by
    rw [embed_nil, Cursor.ofBytes, Nat.zero_add]
    rfl
  have hrun : document limits (place data start) =
      (document limits (.ofBytes (data.drop start))).embed start [] :=
    hplace ▸ document_embeds_nil start limits (.ofBytes (data.drop start)) (.inl rfl)
  have hoffset : (document limits (place data start)).2.offset =
      start + (document limits (.ofBytes (data.drop start))).2.offset := by
    rw [hrun, Nat.add_comm]
    rfl
  have hresult : (document limits (place data start)).1 =
      (decode (data.drop start) limits).mapError (Error.shift start) := congrArg Prod.fst hrun
  exact Prod.ext hresult (congrArg (Input.mk data) hoffset)

/-- Behind its first byte `xli1ee` is read to the end. The leading zero of `xli01e` is refused at 5, and at 4
if the first byte is not there. -/
theorem decode_from_position_one :
    Input.decode ⟨[120, 108, 105, 49, 101, 101], 1⟩ {} =
        (.ok (.list [.integer 1]), ⟨[120, 108, 105, 49, 101, 101], 6⟩) ∧
      decode [108, 105, 48, 49, 101] = .error (.malformed 4 .leadingZero) ∧
      (Input.decode ⟨[120, 108, 105, 48, 49, 101], 1⟩ {}).1 = .error (.malformed 5 .leadingZero) := by
  have hlist : decode [108, 105, 49, 101, 101] = .ok (.list [.integer 1]) := by decide +kernel
  have hend : (Input.decode ⟨[108, 105, 49, 101, 101], 0⟩ {}).2.position = 5 := by decide +kernel
  have hzero : decode [108, 105, 48, 49, 101] = .error (.malformed 4 .leadingZero) := by decide +kernel
  refine ⟨?_, hzero, ?_⟩
  · rw [decode_from_position, List.drop_succ_cons, List.drop_zero, hlist, hend]
    rfl
  · rw [decode_from_position, List.drop_succ_cons, List.drop_zero, hzero]
    rfl

/-- The ways in which an input of `n` bytes can end too early. -/
inductive CutOff (n : Nat) : Error → Prop where
  | unexpectedEnd : CutOff n (.malformed n .unexpectedEnd)
  | unterminated (container : Kind) : CutOff n (.malformed n (.unterminated container))
  | sourceExhausted (expected available : Nat) : CutOff n (.sourceExhausted expected available)

theorem Error.shift_zero (e : Error) : e.shift 0 = e := by
  cases e <;> rfl

theorem offset_of_document_eq_ok {b : Bytes} {limits : Limits} {v : Value} {c : Cursor}
    (h : document limits (.ofBytes b) = (.ok v, c)) : c.offset = b.length := by
  have hc : c = place b b.length := place_of_document_eq_ok (Nat.zero_le _) h
  rw [hc]
  rfl

theorem decode_append_of_ok {b s : Bytes} {limits : Limits} {v : Value} (hs : s ≠ [])
    (h : decode b limits = .ok v) :
    decode (b ++ s) limits = .error (.malformed b.length .trailingData) := by
  have hrun : document limits (.ofBytes b) = (.ok v, (document limits (.ofBytes b)).2) := Prod.ext h rfl
  have hmore := document_embed_of_ok (n := 0) hs hrun
  have hoffset := offset_of_document_eq_ok hrun
  rw [← hoffset]
  exact congrArg Prod.fst hmore

theorem decode_append_of_error {b s : Bytes} {limits : Limits} {e : Error}
    (he : e.isTruncation = false) (h : decode b limits = .error e) :
    decode (b ++ s) limits = .error e := by
  have hrun : document limits (.ofBytes b) = (.error e, (document limits (.ofBytes b)).2) :=
    Prod.ext h rfl
  have hmore := document_embed_of_error (n := 0) (s := s) he hrun
  rw [Error.shift_zero] at hmore
  exact congrArg Prod.fst hmore

theorem cutOff_of_isTruncation {b : Bytes} {limits : Limits} {e : Error}
    (he : e.isTruncation = true) (h : decode b limits = .error e) : CutOff b.length e := by
  have hrun : document limits (place b 0) = (.error e, (document limits (place b 0)).2) :=
    Prod.ext h rfl
  cases e with
  | sourceExhausted expected available => exact .sourceExhausted expected available
  | malformed offset fault =>
    have hev := (document_explained limits (Nat.zero_le _) offset fault _ hrun).evidence
    cases fault with
    | unexpectedEnd =>
      obtain rfl : offset = b.length := hev.1
      exact .unexpectedEnd
    | unterminated container =>
      have hend : offset = b.length := by
        cases container with
        | list => exact hev.1
        | dict => exact hev.1
        | _ => exact hev.elim
      subst hend
      exact .unterminated container
    | _ => exact absurd he Bool.false_ne_true
  | _ => exact absurd he Bool.false_ne_true

/-- More bytes behind an accepted input are trailing data, and behind a refused one they leave the
error as it is, unless that error says that the input ended too early. So what begins an accepted
input is refused as cut off, where it ends, and is never accepted itself. -/
theorem decode_append (b s : Bytes) (limits : Limits) (hs : s ≠ []) :
    (∀ v, decode b limits = .ok v →
      decode (b ++ s) limits = .error (.malformed b.length .trailingData)) ∧
    (∀ e, decode b limits = .error e → e.isTruncation = false → decode (b ++ s) limits = .error e) ∧
    (∀ v, decode (b ++ s) limits = .ok v → ∃ e, decode b limits = .error e ∧ CutOff b.length e) ∧
    ∀ v w, ¬ (decode b limits = .ok v ∧ decode (b ++ s) limits = .ok w) := by
  refine ⟨fun v => decode_append_of_ok hs, fun e h he => decode_append_of_error he h, ?_, ?_⟩
  · intro v hv
    cases hb : decode b limits with
    | ok u =>
      rw [decode_append_of_ok hs hb] at hv
      simp at hv
    | error e =>
      cases he : e.isTruncation with
      | true => exact ⟨e, rfl, cutOff_of_isTruncation he hb⟩
      | false =>
        rw [decode_append_of_error he hb] at hv
        simp at hv
  · rintro v w ⟨hv, hw⟩
    rw [decode_append_of_ok hs hv] at hw
    simp at hw

/-- `li1e` is cut off before the end of `li1ee`, which is accepted. In `li1eee` the last byte is too
much, and in `li01ee` nothing behind the leading zero matters. -/
theorem decode_append_list :
    decode [108, 105, 49, 101, 101] = .ok (.list [.integer 1]) ∧
      (∃ e, decode [108, 105, 49, 101] = .error e ∧ CutOff 4 e) ∧
      decode [108, 105, 49, 101, 101, 101] = .error (.malformed 5 .trailingData) ∧
      decode [108, 105, 48, 49, 101, 101] = .error (.malformed 4 .leadingZero) := by
  have h : decode [108, 105, 49, 101, 101] = .ok (.list [.integer 1]) := by decide +kernel
  have hzero : decode [108, 105, 48, 49, 101] = .error (.malformed 4 .leadingZero) := by
    decide +kernel
  have hcut := (decode_append [108, 105, 49, 101] [101] {} (by decide)).2.2.1
  have hmore := (decode_append [108, 105, 49, 101, 101] [101] {} (by decide)).1
  have hsame := (decode_append [108, 105, 48, 49, 101] [101] {} (by decide)).2.1
  exact ⟨h, hcut _ h, hmore _ h, hsame _ hzero rfl⟩

end Bencode
