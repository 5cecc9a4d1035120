import Bencode.Proofs.Grammar
import Bencode.Script.Tree

/-! # Three ways to a dictionary

A dictionary comes from a list of entries in three ways: its keys are set one after another in a hole, it is
made of all entries at once, or it is read from a text in which they stand as listed. In each way the last
entry with a key counts and the keys come out sorted. Only reading under strict keys looks at the order
in which the entries were listed.
-/
namespace Bencode

open Value

/-- The script that sets one key of the root after another. -/
def TreeStep.setKeys (es : List (Bytes × Value)) : List TreeStep :=
  es.map fun e => .slot [] (.setKey e.1 e.2)

/-- In a dictionary each step enters its key, so that the script folds over the entries. -/
theorem run_setKeys_dict [Growth] (es fs : List (Bytes × Value)) :
    (∀ r ∈ Script.run TreeStep.apply (TreeStep.setKeys es) (.dict fs), r.1 = .done) ∧
      Script.final TreeStep.apply (TreeStep.setKeys es) (.dict fs) =
        .dict (es.foldl (fun fs e => Entries.insert e.1 e.2 fs) fs) := by
  induction es generalizing fs with
  | nil => exact ⟨List.forall_mem_nil _, rfl⟩
  | cons e es ih =>
    obtain ⟨hdone, hfinal⟩ := ih (Entries.insert e.1 e.2 fs)
    exact ⟨List.forall_mem_cons.2 ⟨rfl, hdone⟩, hfinal⟩

/-- The first key makes a dictionary of the hole. -/
theorem run_setKeys_hole [Growth] {es : List (Bytes × Value)} (h : es ≠ []) :
    (∀ r ∈ Script.run TreeStep.apply (TreeStep.setKeys es) .hole, r.1 = .done) ∧
      Script.final TreeStep.apply (TreeStep.setKeys es) .hole = .ofEntries es := by
  obtain ⟨e, es, rfl⟩ := List.exists_cons_of_ne_nil h
  obtain ⟨hdone, hfinal⟩ := run_setKeys_dict es [e]
  exact ⟨List.forall_mem_cons.2 ⟨rfl, hdone⟩, hfinal⟩

/-- The letter d, the encodings of each key and its value as listed, and the letter e. -/
def entriesText (es : List (Bytes × Value)) : Bytes :=
  Mark.dict :: (es.flatMap (fun e => (Value.bytes e.1).wire ++ e.2.wire) ++ [Mark.close])

theorem entriesText_eq_wire (es : List (Bytes × Value)) : entriesText es = (Value.dict es).wire := by
  have hentries : es.flatMap (fun e => (Value.bytes e.1).wire ++ e.2.wire) = wireEntries es := by
    induction es with
    | nil => rfl
    | cons e es ih => rw [List.flatMap_cons, ih, wireEntries, wire]
  rw [entriesText, hentries, wire]

variable {es : List (Bytes × Value)}

theorem settled_dict_of_sorted (h : ∀ e ∈ es, e.2.Sorted) : (Value.dict es).settled = .ofEntries es :=
  settled_dict_of_settled fun e he => settled_of_sorted (h e he)

theorem decode_entriesText_lax {limits : Limits} (hlax : limits.strictKeys = false)
    (hsorted : ∀ e ∈ es, e.2.Sorted) (hw : (Value.dict es).WellWritten false)
    (hl : (Value.dict es).Within limits limits.maxDepth) :
    decode (entriesText es) limits = .ok (.ofEntries es) := by
  rw [decode_eq_ok_iff, hlax]
  exact ⟨.dict es, hw, hl, settled_dict_of_sorted hsorted, (entriesText_eq_wire es).symm⟩

/-- No other written tree has this text, so under strict keys the listed order is the order of the keys. -/
theorem decode_entriesText_strict_iff {limits : Limits} (hstrict : limits.strictKeys = true)
    (hsorted : ∀ e ∈ es, e.2.Sorted) (hw : (Value.dict es).WellWritten false)
    (hl : (Value.dict es).Within limits limits.maxDepth) :
    (∃ v, decode (entriesText es) limits = .ok v) ↔ Entries.Sorted es := by
  have htext := entriesText_eq_wire es
  constructor
  · rintro ⟨v, h⟩
    rw [decode_eq_ok_iff, hstrict] at h
    obtain ⟨w, hw', -, -, hwire⟩ := h
    have heq : w = .dict es := derives_unique (derives_iff.2 ⟨hw'.relax false, hwire⟩)
      (derives_iff.2 ⟨hw, htext.symm⟩)
    subst heq
    exact (sorted_dict.1 (hw'.sorted rfl)).1
  · intro hes
    refine ⟨_, decode_eq_ok_iff.2 ⟨.dict es, ?_, hl, rfl, htext.symm⟩⟩
    exact ⟨hw.holeFree, fun _ => sorted_dict.2 ⟨hes, hsorted⟩, hw.length_lt⟩

/-- Setting keys one after another, making a dictionary of all entries and reading them without strict
keys give the same dictionary, in which each key has its last value. Under strict keys they are read just
if the keys as listed increase. -/
theorem dictionary_made_set_or_read [Growth] (es : List (Bytes × Value)) (hne : es ≠ [])
    (hfree : ∀ e ∈ es, e.2.HoleFree) (hsorted : ∀ e ∈ es, e.2.Sorted)
    (maxDepth maxStringLength : Nat) (hdepth : ∀ e ∈ es, e.2.depth + 1 ≤ maxDepth)
    (hkey : ∀ e ∈ es, e.1.length ≤ maxStringLength ∧ e.1.length < 2 ^ 63)
    (hstring : ∀ e ∈ es, ∀ s ∈ e.2.strings, s.length ≤ maxStringLength ∧ s.length < 2 ^ 63) :
    ((∀ r ∈ Script.run TreeStep.apply (TreeStep.setKeys es) .hole, r.1 = .done) ∧
      Script.final TreeStep.apply (TreeStep.setKeys es) .hole = .ofEntries es) ∧
    ((∀ e ∈ es, encode (.bytes e.1) = .ok (Value.bytes e.1).wire ∧ encode e.2 = .ok e.2.wire) ∧
      decode (entriesText es) ⟨maxDepth, maxStringLength, false⟩ = .ok (.ofEntries es)) ∧
    ((Value.ofEntries es).Sorted ∧
      (∀ before k v after, es = before ++ (k, v) :: after → k ∉ Entries.keys after →
        (Value.ofEntries es).get? k = some v) ∧
      ∀ k, k ∉ Entries.keys es → (Value.ofEntries es).get? k = none) ∧
    ((∃ v, decode (entriesText es) ⟨maxDepth, maxStringLength, true⟩ = .ok v) ↔
      (Entries.keys es).Pairwise (· < ·)) := by
  have hw : (Value.dict es).WellWritten false := by
    have hvalue (e : Bytes × Value) (he : e ∈ es) : e.2.WellWritten false :=
      ⟨hfree e he, fun _ => hsorted e he, fun s hs => (hstring e he s hs).2⟩
    refine wellWritten_dict.2 ⟨fun hstrict => ?_, fun e he => ⟨(hkey e he).2, hvalue e he⟩⟩
    cases hstrict
  have hl (strict : Bool) :
      (Value.dict es).Within ⟨maxDepth, maxStringLength, strict⟩ maxDepth := by
    obtain ⟨e, he⟩ := List.exists_mem_of_ne_nil es hne
    obtain ⟨levels, rfl⟩ := Nat.exists_eq_succ_of_ne_zero (n := maxDepth)
      (Nat.ne_of_gt (Nat.lt_of_lt_of_le (Nat.succ_pos _) (hdepth e he)))
    refine within_dict.2 fun e he => ⟨(hkey e he).1, Nat.le_of_succ_le_succ (hdepth e he), ?_⟩
    exact fun s hs => (hstring e he s hs).1
  refine ⟨run_setKeys_hole hne, ⟨fun e he => ⟨rfl, ?_⟩, ?_⟩, ⟨?_, ?_, ?_⟩, ?_⟩
  · exact encode_eq_ok_iff.2 ⟨hfree e he, rfl⟩
  · exact decode_entriesText_lax rfl hsorted hw (hl false)
  · rw [← settled_dict_of_sorted hsorted]
    exact sorted_settled _
  · rintro before k v after rfl hk
    exact Entries.get?_ofList_last hk before v
  · intro k hk
    exact (Entries.get?_ofList k es).trans (Entries.get?_reverse_eq_none hk)
  · exact decode_entriesText_strict_iff rfl hsorted hw (hl true)

/-- The keys are listed as `b`, `a`, `b`, and the text is `d1:bi1e1:ai2e1:bi3ee`. -/
theorem dictionary_made_set_or_read_repeated :
    Script.final TreeStep.apply
        (TreeStep.setKeys [([98], .integer 1), ([97], .integer 2), ([98], .integer 3)]) .hole =
        .dict [([97], .integer 2), ([98], .integer 3)] ∧
      decode [100, 49, 58, 98, 105, 49, 101, 49, 58, 97, 105, 50, 101, 49, 58, 98, 105, 51, 101, 101]
        ⟨2, 1, false⟩ = .ok (.dict [([97], .integer 2), ([98], .integer 3)]) ∧
      ¬ ∃ v, decode
        [100, 49, 58, 98, 105, 49, 101, 49, 58, 97, 105, 50, 101, 49, 58, 98, 105, 51, 101, 101]
        ⟨2, 1, true⟩ = .ok v := by
  have htext : entriesText [([98], .integer 1), ([97], .integer 2), ([98], .integer 3)] =
      [100, 49, 58, 98, 105, 49, 101, 49, 58, 97, 105, 50, 101, 49, 58, 98, 105, 51, 101, 101] := by
    decide +kernel
  have h := dictionary_made_set_or_read
    [([98], .integer 1), ([97], .integer 2), ([98], .integer 3)] (List.cons_ne_nil _ _)
    (by simp [HoleFree]) (by simp [Value.Sorted]) 2 1 (by simp [depth]) (by simp)
    (by simp [strings])
  rw [htext] at h
  refine ⟨h.1.2, h.2.1.2, ?_⟩
  rw [h.2.2.2]
  decide

end Bencode
