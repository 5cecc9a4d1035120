import Bencode.Proofs.Value
import Bencode.Sink.File
import Mathlib.Data.ENat.Basic

/-! # Writing to a sink of any kind

A sink is taken here as a set `P` of states that its `add` does not leave, and in which `add` appends
all of its argument or fails. Some sinks also have a `room`: an `add` fails just if the contents would
exceed it. Chunks that are written one by one then stand at the end of such a sink up to the first that
it refuses, and with a room those are as many as fit.
-/
namespace Bencode

namespace Sink

variable {σ : Type} [Sink σ] {P : σ → Prop} {room : ℕ∞}

/-- What a sink in a state of `P` takes comes to stand at its end, and it stays in `P`. -/
structure Appends (P : σ → Prop) : Prop where
  keeps : ∀ {s s' : σ} {b : Bytes}, P s → add s b = .ok s' → P s'
  contents_add : ∀ {s s' : σ} {b : Bytes}, P s → add s b = .ok s' → contents s' = contents s ++ b

/-- A sink in a state of `P` takes whatever fits into its room, and nothing else. -/
def HasRoom (P : σ → Prop) (room : ℕ∞) : Prop :=
  ∀ (s : σ) (b : Bytes), P s →
    ((∃ s', add s b = .ok s') ↔ (((contents s).length + b.length : ℕ) : ℕ∞) ≤ room)

/-- Without a limit to its room a sink takes everything. -/
theorem HasRoom.takes (h : HasRoom P ⊤) {s : σ} (hs : P s) (b : Bytes) : ∃ s', add s b = .ok s' :=
  (h s b hs).2 le_top

theorem appends_bytes : Appends fun _ : Bytes => True where
  keeps _ _ := trivial
  contents_add _ h := (Except.ok.inj h).symm

theorem hasRoom_bytes : HasRoom (fun _ : Bytes => True) ⊤ :=
  fun s b _ => iff_of_true ⟨s ++ b, rfl⟩ le_top

theorem appends_buffer : Appends fun _ : Buffer => True where
  keeps _ _ := trivial
  contents_add {s s' b} _ h := by
    have hs : s' = ⟨s.bytes ++ b⟩ := (Except.ok.inj h).symm
    rw [hs]
    exact Array.toList_appendList

theorem hasRoom_buffer : HasRoom (fun _ : Buffer => True) ⊤ :=
  fun s b _ => iff_of_true ⟨⟨s.bytes ++ b⟩, rfl⟩ le_top

theorem add_bounded_of_le {s : Bounded} {b : Bytes} (h : s.bytes.length + b.length ≤ s.room) :
    add s b = .ok { s with bytes := s.bytes ++ b } := if_pos h

theorem add_bounded_of_lt {s : Bounded} {b : Bytes} (h : s.room < s.bytes.length + b.length) :
    add s b = .error (.storage .full) := if_neg (Nat.not_le.2 h)

theorem appends_bounded (n : ℕ) : Appends fun s : Bounded => s.room = n := by
  have hadd {s s' : Bounded} {b : Bytes} (h : add s b = .ok s') :
      s' = { s with bytes := s.bytes ++ b } := by
    rcases Nat.lt_or_ge s.room (s.bytes.length + b.length) with hlt | hle
    · rw [add_bounded_of_lt hlt] at h
      cases h
    · rw [add_bounded_of_le hle] at h
      exact (Except.ok.inj h).symm
  constructor
  · intro s s' b hs h
    rw [hadd h]
    exact hs
  · intro s s' b _ h
    rw [hadd h]
    rfl

theorem hasRoom_bounded (n : ℕ) : HasRoom (fun s : Bounded => s.room = n) n := by
  intro s b hs
  rw [Nat.cast_le]
  subst hs
  constructor
  · rintro ⟨s', h⟩
    by_contra hlt
    rw [add_bounded_of_lt (Nat.not_le.1 hlt)] at h
    cases h
  · intro hle
    exact ⟨_, add_bounded_of_le hle⟩

/-- Writing at the end of a file appends and leaves the position at the end. -/
theorem write_file_at_end {f : OpenFile} (b : Bytes) (hf : f.position = f.contents.length) :
    f.write b = ⟨f.contents ++ b, (f.contents ++ b).length⟩ := by
  simp [OpenFile.write, hf]

theorem file_add (s : FileSink) (b : Bytes) (hs : s.file.position = s.file.contents.length) :
    (s.add b).file = ⟨s.file.contents ++ b, (s.file.contents ++ b).length⟩ := by
  unfold FileSink.add
  split
  · next hb =>
    rw [List.isEmpty_iff.1 hb, List.append_nil, ← hs]
  · exact write_file_at_end b hs

/-- A file appends as long as its position is at its end. -/
theorem appends_file : Appends fun s : FileSink => s.file.position = s.file.contents.length := by
  have hadd {s s' : FileSink} {b : Bytes} (h : add s b = .ok s') : s' = s.add b :=
    (Except.ok.inj h).symm
  constructor
  · intro s s' b hs h
    rw [hadd h, file_add s b hs]
  · intro s s' b hs h
    have hfile := file_add s b hs
    rw [hadd h]
    exact congrArg OpenFile.contents hfile

theorem hasRoom_file :
    HasRoom (fun s : FileSink => s.file.position = s.file.contents.length) ⊤ :=
  fun s b _ => iff_of_true ⟨s.add b, rfl⟩ le_top

/-- All chunks are written, or those in front of one that the sink refuses in its last state. -/
theorem Appends.write (hP : Appends P) {s : σ} (hs : P s) (chunks : List Bytes) :
    (∃ s', Sink.write s chunks = (.ok (), s') ∧ P s' ∧
        contents s' = contents s ++ chunks.flatten) ∨
      ∃ lead chunk rest s' e, chunks = lead ++ chunk :: rest ∧
        Sink.write s chunks = (.error e, s') ∧ P s' ∧
        contents s' = contents s ++ lead.flatten ∧ add s' chunk = .error e := by
  induction chunks generalizing s with
  | nil => exact .inl ⟨s, rfl, hs, (List.append_nil _).symm⟩
  | cons chunk chunks ih =>
    rw [Sink.write]
    cases hadd : add s chunk with
    | error e =>
      exact .inr ⟨[], chunk, chunks, s, e, rfl, rfl, hs, (List.append_nil _).symm, hadd⟩
    | ok s₁ =>
      have hs₁ : P s₁ := hP.keeps hs hadd
      have hc : contents s₁ = contents s ++ chunk := hP.contents_add hs hadd
      rcases ih hs₁ with ⟨s', hw, hs', hc'⟩ | ⟨lead, refused, rest, s', e, hsplit, hw, hs', hc', he⟩
      · refine .inl ⟨s', hw, hs', ?_⟩
        rw [hc', hc, List.append_assoc, List.flatten_cons]
      · refine .inr ⟨chunk :: lead, refused, rest, s', e, ?_, hw, hs', ?_, he⟩
        · rw [hsplit, List.cons_append]
        · rw [hc', hc, List.append_assoc, List.flatten_cons]

/-- What does not exceed the room never will. -/
theorem HasRoom.appends_within (hroom : HasRoom P room) (hP : Appends P) :
    Appends fun s => P s ∧ ((contents s).length : ℕ∞) ≤ room where
  keeps {s s' b} hs h := by
    refine ⟨hP.keeps hs.1 h, ?_⟩
    rw [hP.contents_add hs.1 h, List.length_append]
    exact (hroom s b hs.1).1 ⟨s', h⟩
  contents_add hs h := hP.contents_add hs.1 h

/-- The longest run of leading chunks for which there is room behind the given contents. -/
structure LongestFit (room : ℕ∞) (before : Bytes) (chunks lead : List Bytes) : Prop where
  leads : lead <+: chunks
  fits : ((before.length + lead.flatten.length : ℕ) : ℕ∞) ≤ room
  longest : ∀ more, more <+: chunks → ((before.length + more.flatten.length : ℕ) : ℕ∞) ≤ room →
    more <+: lead

/-- With a room, all chunks are written if they fit. Otherwise as many leading ones are as fit, and the
one behind them, which the sink refuses, is not empty. -/
theorem HasRoom.write (hroom : HasRoom P room) (hP : Appends P) {s : σ} (hs : P s)
    (hc : ((contents s).length : ℕ∞) ≤ room) (chunks : List Bytes) :
    (((contents s).length + chunks.flatten.length : ℕ) : ℕ∞) ≤ room ∧
        (∃ s', Sink.write s chunks = (.ok (), s') ∧ contents s' = contents s ++ chunks.flatten) ∨
      room < (((contents s).length + chunks.flatten.length : ℕ) : ℕ∞) ∧
        ∃ lead chunk rest s' e, chunks = lead ++ chunk :: rest ∧ chunk ≠ [] ∧
          Sink.write s chunks = (.error e, s') ∧ contents s' = contents s ++ lead.flatten ∧
          add s' chunk = .error e ∧ LongestFit room (contents s) chunks lead := by
  rcases (hroom.appends_within hP).write ⟨hs, hc⟩ chunks with
    ⟨s', hw, ⟨-, hfit⟩, hs'⟩ | ⟨lead, chunk, rest, s', e, hsplit, hw, ⟨hP', hfit⟩, hs', he⟩
  · rw [hs', List.length_append] at hfit
    exact .inl ⟨hfit, s', hw, hs'⟩
  · have hover : room < (((contents s).length + lead.flatten.length + chunk.length : ℕ) : ℕ∞) := by
      have hno : ¬ ∃ s₁, add s' chunk = .ok s₁ := by
        rintro ⟨s₁, h⟩
        rw [he] at h
        cases h
      rw [hroom s' chunk hP', not_le, hs', List.length_append] at hno
      exact hno
    rw [hs', List.length_append] at hfit
    have hlead : lead ++ [chunk] <+: chunks := ⟨rest, by rw [hsplit, List.append_assoc]; rfl⟩
    have htoo (more : List Bytes) (hm : lead ++ [chunk] <+: more) :
        room < (((contents s).length + more.flatten.length : ℕ) : ℕ∞) := by
      obtain ⟨tail, rfl⟩ := hm
      refine hover.trans_le (Nat.cast_le.2 ?_)
      simp only [List.flatten_append, List.flatten_cons, List.flatten_nil, List.append_nil,
        List.length_append]
      omega
    have hchunk : chunk ≠ [] := by
      rintro rfl
      exact absurd hover (not_lt.2 hfit)
    refine .inr ⟨htoo chunks hlead, lead, chunk, rest, s', e, hsplit, hchunk, hw, hs', he, ?_⟩
    refine ⟨⟨chunk :: rest, hsplit.symm⟩, hfit, fun more hm hle => ?_⟩
    rcases List.prefix_or_prefix_of_prefix hm hlead with h | h
    · rcases List.prefix_concat_iff.1 h with rfl | h
      · exact absurd (htoo _ List.prefix_rfl) (not_lt.2 hle)
      · exact h
    · exact absurd (htoo more h) (not_lt.2 hle)

end Sink

end Bencode
