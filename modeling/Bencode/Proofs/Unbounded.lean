import Bencode.Proofs.Writing
import Bencode.Script.Stream

/-! # Sinks that never refuse

A sink that takes whatever it is given and shows nothing but its contents only appends and is emptied:
`SinkStep.effect` says so of one step, with the reply to it. Each step on such a sink has that effect on
its contents, so the runs of a script on all of them show the same. `Unbounded` and `Transparent` are what
this rests on. A file is such a sink as long as its length, its position, the count of bytes and the last
byte that is remembered all belong to the same contents, which is `FileSink.Synced`.
-/
namespace Bencode

/-- The reply to a step and what it makes of the contents: bytes come behind them, the text of a tree
comes as a whole, and a tree with a hole changes nothing. -/
def SinkStep.effect (step : SinkStep) (b : Bytes) : Reply × Bytes :=
  match step with
  | .add more => (.done, b ++ more)
  | .addByte x => (.done, b ++ [x])
  | .clear => (.done, [])
  | .write format v =>
    match v.findHole with
    | some p => (.failed (.unassigned p), b)
    | none => (.done, b ++ (format.chunks v).flatten)
  | .invalid cause => (.failed cause, b)

/-- What is remembered of the file is what it holds, and the position is at its end. -/
structure FileSink.Synced (s : FileSink) : Prop where
  position_eq : s.file.position = s.file.contents.length
  written_eq : s.written = s.file.contents.length
  last_eq : s.last = s.file.contents.getLast?

namespace Sink

variable {σ : Type} [Sink σ] {P : σ → Prop} {s : σ}

/-- In a state of `P` the sink takes everything, and no step leaves `P`. -/
structure Unbounded (P : σ → Prop) : Prop extends Appends P where
  takes : ∀ {s : σ}, P s → ∀ b, ∃ s', add s b = .ok s'
  keeps_clear : ∀ {s : σ}, P s → P (clear s)

/-- Besides, nothing is left of an emptied sink, and the last byte is that of the contents. -/
structure Transparent (P : σ → Prop) : Prop extends Unbounded P where
  contents_clear : ∀ {s : σ}, P s → contents (clear s) = []
  last?_eq : ∀ {s : σ}, P s → last? s = (contents s).getLast?

theorem transparent_bytes : Transparent fun _ : Bytes => True where
  toAppends := appends_bytes
  takes := hasRoom_bytes.takes
  keeps_clear _ := trivial
  contents_clear _ := rfl
  last?_eq _ := rfl

theorem transparent_buffer : Transparent fun _ : Buffer => True where
  toAppends := appends_buffer
  takes := hasRoom_buffer.takes
  keeps_clear _ := trivial
  contents_clear _ := rfl
  last?_eq {s} _ := s.bytes.getLast?_toList.symm

/-- Adding nothing changes nothing, so the last byte is remembered across it. -/
theorem synced_add {s : FileSink} (h : s.Synced) (b : Bytes) : (s.add b).Synced := by
  have hfile := file_add s b h.position_eq
  constructor
  · rw [hfile]
  · rw [hfile]
    unfold FileSink.add
    split
    · next hb =>
      rw [List.isEmpty_iff.1 hb, List.append_nil]
      exact h.written_eq
    · rw [List.length_append, h.written_eq]
  · rw [hfile]
    unfold FileSink.add
    split
    · next hb =>
      rw [List.isEmpty_iff.1 hb, List.append_nil]
      exact h.last_eq
    · next hb =>
      have hne : b ≠ [] := fun he => hb (List.isEmpty_iff.2 he)
      rw [List.getLast?_append, List.getLast?_eq_some_getLast hne, Option.some_or]

theorem synced_empty : FileSink.Synced {} := ⟨rfl, rfl, rfl⟩

/-- An emptied file is as good as new: it is cut to no bytes and the position moved back. -/
theorem clear_file (s : FileSink) : s.clear = {} := by
  simp [FileSink.clear, OpenFile.setLength, OpenFile.seek]

theorem transparent_file : Transparent FileSink.Synced where
  keeps {s s' b} hs h := by
    have hs' : s' = s.add b := (Except.ok.inj h).symm
    exact hs' ▸ synced_add hs b
  contents_add hs h := appends_file.contents_add hs.position_eq h
  takes hs := hasRoom_file.takes hs.position_eq
  keeps_clear {s} _ := by
    have hclear : clear s = ({} : FileSink) := clear_file s
    rw [hclear]
    exact synced_empty
  contents_clear {s} _ := congrArg (·.file.contents) (clear_file s)
  last?_eq hs := hs.last_eq

theorem Unbounded.write (hP : Unbounded P) (hs : P s) (chunks : List Bytes) :
    ∃ s', Sink.write s chunks = (.ok (), s') ∧ P s' ∧
      contents s' = contents s ++ chunks.flatten := by
  rcases hP.toAppends.write hs chunks with hall | ⟨lead, chunk, rest, s', e, -, -, hs', -, he⟩
  · exact hall
  · obtain ⟨s'', hok⟩ := hP.takes hs' chunk
    rw [he] at hok
    cases hok

/-- The step has had the given effect on the contents, and the sink is still in `P`. -/
structure Shows (P : σ → Prop) (r : Reply × σ) (r' : Reply × Bytes) : Prop where
  reply_eq : r.1 = r'.1
  contents_eq : contents r.2 = r'.2
  stays : P r.2

theorem Unbounded.shows_add (hP : Unbounded P) (hs : P s) (b : Bytes) :
    Shows P ((SinkStep.add b).apply s) (.done, contents s ++ b) := by
  obtain ⟨s', hadd⟩ := hP.takes hs b
  have happly : (SinkStep.add b).apply s = (.done, s') := by
    simp only [SinkStep.apply, SinkStep.apply.done, attempt, hadd, Reply.ofResult]
  rw [happly]
  exact ⟨rfl, hP.contents_add hs hadd, hP.keeps hs hadd⟩

theorem Unbounded.shows_write (hP : Unbounded P) (hs : P s) (format : Format) (v : Value) :
    Shows P ((SinkStep.write format v).apply s) ((SinkStep.write format v).effect (contents s)) := by
  cases hp : v.findHole with
  | some p =>
    have happly : (SinkStep.write format v).apply s = (.failed (.unassigned p), s) := by
      simp only [SinkStep.apply, SinkStep.apply.done, Format.write_of_findHole hp, Reply.ofResult]
    have heffect : (SinkStep.write format v).effect (contents s) =
        (.failed (.unassigned p), contents s) := by simp only [SinkStep.effect, hp]
    rw [happly, heffect]
    exact ⟨rfl, rfl, hs⟩
  | none =>
    have hfree : v.HoleFree := Value.findHole_eq_none_iff.1 hp
    obtain ⟨s', hw, hs', hc⟩ := hP.write hs (format.chunks v)
    have happly : (SinkStep.write format v).apply s = (.done, s') := by
      simp only [SinkStep.apply, SinkStep.apply.done, Format.write_of_holeFree hfree, hw,
        Reply.ofResult]
    have heffect : (SinkStep.write format v).effect (contents s) =
        (.done, contents s ++ (format.chunks v).flatten) := by simp only [SinkStep.effect, hp]
    rw [happly, heffect]
    exact ⟨rfl, hc, hs'⟩

theorem Transparent.shows_effect (hP : Transparent P) (hs : P s) (step : SinkStep) :
    Shows P (step.apply s) (step.effect (contents s)) := by
  cases step with
  | add b => exact hP.shows_add hs b
  | addByte b => exact hP.shows_add hs [b]
  | clear => exact ⟨rfl, hP.contents_clear hs, hP.keeps_clear hs⟩
  | write format v => exact hP.shows_write hs format v
  | invalid cause => exact ⟨rfl, rfl, hs⟩

/-- What a caller sees of a step: the reply, the contents and the last byte. -/
def shown (r : Reply × σ) : Reply × Bytes × Option UInt8 := (r.1, contents r.2, last? r.2)

theorem Transparent.run (hP : Transparent P) (hs : P s) (steps : List SinkStep) :
    (Script.run SinkStep.apply steps s).map shown =
        (Script.run SinkStep.effect steps (contents s)).map (fun r => (r.1, r.2, r.2.getLast?)) ∧
      ∀ r ∈ Script.run SinkStep.apply steps s, P r.2 := by
  induction steps generalizing s with
  | nil => exact ⟨rfl, fun r hr => absurd hr List.not_mem_nil⟩
  | cons step steps ih =>
    have hstep := hP.shows_effect hs step
    obtain ⟨hrest, hstays⟩ := ih hstep.stays
    have hfirst : shown (step.apply s) = ((step.effect (contents s)).1,
        (step.effect (contents s)).2, (step.effect (contents s)).2.getLast?) := by
      unfold shown
      rw [hP.last?_eq hstep.stays, hstep.reply_eq, hstep.contents_eq]
    constructor
    · rw [Script.run, Script.run, List.map_cons, List.map_cons, hfirst, hrest, hstep.contents_eq]
    · intro r hr
      rcases List.mem_cons.1 hr with rfl | hr
      · exact hstep.stays
      · exact hstays r hr

end Sink

/-- All unbounded sinks are the same append-only sink. Started on an empty byte string, buffer and file,
any script shows the same after each of its steps: the reply and the contents that the step's effect
gives, and the last byte of these contents. The buffer's size and the file's count are their length, and
the file stands at its end. -/
theorem SinkStep.run_same_on_every_sink (steps : List SinkStep) :
    let bytes := Script.run SinkStep.apply steps ([] : Bytes)
    let buffer := Script.run SinkStep.apply steps ({} : Buffer)
    let file := Script.run SinkStep.apply steps ({} : FileSink)
    let expected := (Script.run SinkStep.effect steps []).map fun r => (r.1, r.2, r.2.getLast?)
    bytes.map Sink.shown = expected ∧ buffer.map Sink.shown = expected ∧
      file.map Sink.shown = expected ∧
      (∀ r ∈ buffer, r.2.size = (Sink.contents r.2).length) ∧
      ∀ r ∈ file, r.2.written = (Sink.contents r.2).length ∧
        r.2.file.position = (Sink.contents r.2).length := by
  intro bytes buffer file expected
  obtain ⟨hbytes, -⟩ := Sink.transparent_bytes.run (s := []) trivial steps
  obtain ⟨hbuffer, -⟩ := Sink.transparent_buffer.run (s := {}) trivial steps
  obtain ⟨hfile, hsynced⟩ := Sink.transparent_file.run Sink.synced_empty steps
  refine ⟨hbytes, hbuffer, hfile, fun r _ => ?_, fun r hr => ?_⟩
  · exact Array.length_toList.symm
  · exact ⟨(hsynced r hr).written_eq, (hsynced r hr).position_eq⟩

end Bencode
