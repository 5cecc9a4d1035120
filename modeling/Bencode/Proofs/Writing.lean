import Bencode.Proofs.Sink

/-! # Writing a tree to a sink

Both formats refuse a tree with a hole before they touch the sink. A tree without holes goes out in the
chunks of its format, so that a sink which refuses one of them is left with the chunks before it: for the
wire form with a beginning of the encoding, for JSON, which is one chunk, with nothing.
-/
namespace Bencode

namespace Value

theorem exists_findHole {v : Value} (h : ¬ v.HoleFree) : ∃ p, v.findHole = some p := by
  rw [← findHole_eq_none_iff] at h
  exact Option.ne_none_iff_exists'.1 h

theorem assigned_of_findHole {v : Value} {p : Path} (h : v.findHole = some p) :
    v.assigned = .error (.unassigned p) := by
  unfold assigned
  rw [h]

theorem assigned_of_holeFree {v : Value} (h : v.HoleFree) : v.assigned = .ok v := by
  unfold assigned
  rw [findHole_eq_none_iff.2 h]

end Value

theorem jsonText_of_holeFree {v : Value} (h : v.HoleFree) (layout : Json.Layout) :
    jsonText layout v = .ok (String.ofList (v.toJson.text layout 0)) := by
  unfold jsonText
  rw [Value.assigned_of_holeFree h]
  rfl

variable {σ : Type} [Sink σ]

theorem Sink.write_append (s : σ) (as bs : List Bytes) :
    write s (as ++ bs) = Writer.andThen (write · as) (write · bs) s := by
  induction as generalizing s with
  | nil => rfl
  | cons a as ih =>
    rw [List.cons_append, write, Writer.andThen, write]
    cases add s a with
    | ok s' => exact ih s'
    | error e => rfl

namespace Writer

/-- The writer adds the chunks one after another. -/
def Writes (w : Writer σ) (chunks : List Bytes) : Prop := ∀ s, w s = Sink.write s chunks

variable {w w' : Writer σ} {as bs : List Bytes}

theorem writes_nil : Writes (fun s : σ => (.ok (), s)) [] := fun _ => rfl

theorem writes_add (b : Bytes) : (add b : Writer σ).Writes [b] := by
  intro s
  rw [add, Sink.attempt, Sink.write]
  cases Sink.add s b with
  | ok s' => rfl
  | error e => rfl

theorem writes_addByte (b : UInt8) : (addByte b : Writer σ).Writes [[b]] := writes_add [b]

/-- Of two writers in a row the second comes to its chunks just if the first has got through with its own. -/
theorem Writes.andThen (h : w.Writes as) (h' : w'.Writes bs) : (w.andThen w').Writes (as ++ bs) := by
  intro s
  rw [Sink.write_append, Writer.andThen, Writer.andThen, h s]
  cases Sink.write s as with
  | mk r s' =>
    cases r with
    | ok _ => exact h' s'
    | error e => rfl

theorem writes_string (b : Bytes) : (string b : Writer σ).Writes (stringChunks b) :=
  (writes_add _).andThen ((writes_addByte _).andThen (writes_add b))

end Writer

open Writer

namespace Value

theorem writes_writeItemsTo {vs : List Value}
    (h : ∀ v ∈ vs, (v.writeTo : Writer σ).Writes v.chunks) :
    (writeItemsTo vs : Writer σ).Writes (chunksItems vs) := by
  induction vs with
  | nil => exact writes_nil
  | cons v vs ih =>
    obtain ⟨hv, hvs⟩ := List.forall_mem_cons.1 h
    exact hv.andThen (ih hvs)

theorem writes_writeEntriesTo {es : List (Bytes × Value)}
    (h : ∀ e ∈ es, (e.2.writeTo : Writer σ).Writes e.2.chunks) :
    (writeEntriesTo es : Writer σ).Writes (chunksEntries es) := by
  induction es with
  | nil => exact writes_nil
  | cons e es ih =>
    obtain ⟨he, hes⟩ := List.forall_mem_cons.1 h
    exact ((writes_string e.1).andThen he).andThen (ih hes)

/-- The recursive writer adds the chunks of the tree, up to one that is refused. -/
theorem writes_writeTo (v : Value) : (v.writeTo : Writer σ).Writes v.chunks := by
  induction v with
  | integer n => exact (writes_addByte _).andThen ((writes_add _).andThen (writes_addByte _))
  | bytes b => exact writes_string b
  | list vs ih =>
    exact (writes_addByte _).andThen ((writes_writeItemsTo ih).andThen (writes_addByte _))
  | dict es ih =>
    exact (writes_addByte _).andThen ((writes_writeEntriesTo ih).andThen (writes_addByte _))
  | hole => exact writes_nil

end Value

namespace Format

/-- The pieces in which a tree without holes is written. -/
def chunks : Format → Value → List Bytes
  | .wire, v => v.chunks
  | .json layout, v => [Utf8.encode (v.toJson.text layout 0)]

theorem writes_writeTo (format : Format) (v : Value) :
    (format.writeTo v : Writer σ).Writes (format.chunks v) := by
  cases format with
  | wire => exact v.writes_writeTo
  | json layout => exact writes_add _

theorem write_of_findHole {v : Value} {p : Path} (h : v.findHole = some p) (format : Format)
    (s : σ) : format.write v s = (.error (.unassigned p), s) := by
  unfold write
  rw [Value.assigned_of_findHole h]

theorem write_of_holeFree {v : Value} (h : v.HoleFree) (format : Format) (s : σ) :
    format.write v s = Sink.write s (format.chunks v) := by
  unfold write
  rw [Value.assigned_of_holeFree h]
  exact format.writes_writeTo v s

end Format

/-- JSON goes out in one piece or not at all. -/
theorem write_json {P : σ → Prop} (hP : Sink.Appends P) {s : σ} (hs : P s) {v : Value}
    (hv : v.HoleFree) (layout : Json.Layout) :
    let text := Utf8.encode (v.toJson.text layout 0)
    (∃ s', (Format.json layout).write v s = (.ok (), s') ∧
        Sink.contents s' = Sink.contents s ++ text) ∨
      ∃ e, (Format.json layout).write v s = (.error e, s) ∧ Sink.add s text = .error e := by
  intro text
  rw [Format.write_of_holeFree hv, Format.chunks, Sink.write]
  cases hadd : Sink.add s text with
  | ok s' => exact .inl ⟨s', rfl, hP.contents_add hs hadd⟩
  | error e => exact .inr ⟨e, rfl, rfl⟩

/-- Writing to a sink agrees with encoding. A tree with a hole is refused, and the sink stays as it is.
The wire form of any other tree is added to the sink as a whole or, if the sink refuses one of its
chunks, up to that chunk; JSON text as a whole or not at all. Where it is room that the sink lacks, it
is exactly an encoding beyond the room that fails, and what is written of it is the longest run of
leading chunks for which there is room, less than all of it. -/
theorem write_whole_or_leading_chunks {P : σ → Prop} (hP : Sink.Appends P) {s : σ} (hs : P s)
    (v : Value) :
    (¬ v.HoleFree → ∃ p, v.findHole = some p ∧
        ∀ format : Format, format.write v s = (.error (.unassigned p), s)) ∧
      (v.HoleFree → ∃ b, encode v = .ok b ∧
        ((∃ s', Format.wire.write v s = (.ok (), s') ∧
            Sink.contents s' = Sink.contents s ++ b) ∨
          ∃ lead chunk rest s' e, v.chunks = lead ++ chunk :: rest ∧ lead.flatten <+: b ∧
            Format.wire.write v s = (.error e, s') ∧
            Sink.contents s' = Sink.contents s ++ lead.flatten ∧ Sink.add s' chunk = .error e) ∧
        ∀ room : ℕ∞, Sink.HasRoom P room → ((Sink.contents s).length : ℕ∞) ≤ room →
          ((Format.wire.write v s).1 = .ok () ↔
            (((Sink.contents s).length + b.length : ℕ) : ℕ∞) ≤ room) ∧
          ((Format.wire.write v s).1 ≠ .ok () → ∃ lead,
            Sink.LongestFit room (Sink.contents s) v.chunks lead ∧
            Sink.contents (Format.wire.write v s).2 = Sink.contents s ++ lead.flatten ∧
            lead.flatten <+: b ∧ lead.flatten ≠ b)) ∧
      (v.HoleFree → ∀ layout : Json.Layout, ∃ text, jsonText layout v = .ok text ∧
        ((∃ s', (Format.json layout).write v s = (.ok (), s') ∧
            Sink.contents s' = Sink.contents s ++ Utf8.encode text.toList) ∨
          ∃ e, (Format.json layout).write v s = (.error e, s) ∧
            Sink.add s (Utf8.encode text.toList) = .error e)) := by
  have hbegins {lead rest : List Bytes} {chunk : Bytes} (h : v.chunks = lead ++ chunk :: rest) :
      v.wire = lead.flatten ++ (chunk ++ rest.flatten) := by
    rw [← Value.flatten_chunks, h, List.flatten_append, List.flatten_cons]
  refine ⟨fun hv => ?_, fun hv => ⟨v.wire, encode_eq_ok_iff.2 ⟨hv, rfl⟩, ?_, ?_⟩, fun hv layout => ?_⟩
  · obtain ⟨p, hp⟩ := Value.exists_findHole hv
    exact ⟨p, hp, fun format => Format.write_of_findHole hp format s⟩
  · rw [Format.write_of_holeFree hv, Format.chunks]
    rcases hP.write hs v.chunks with ⟨s', hw, -, hs'⟩ | ⟨lead, chunk, rest, s', e, hsplit, hw, -, h⟩
    · rw [Value.flatten_chunks] at hs'
      exact .inl ⟨s', hw, hs'⟩
    · exact .inr ⟨lead, chunk, rest, s', e, hsplit, ⟨_, (hbegins hsplit).symm⟩, hw, h⟩
  · intro room hroom hc
    rw [Format.write_of_holeFree hv, Format.chunks]
    have hwrite := hroom.write hP hs hc v.chunks
    rw [Value.flatten_chunks] at hwrite
    rcases hwrite with ⟨hfit, s', hw, -⟩ |
      ⟨hover, lead, chunk, rest, s', e, hsplit, hchunk, hw, hs', -, hlongest⟩
    · rw [hw]
      exact ⟨iff_of_true rfl hfit, fun h => absurd rfl h⟩
    · rw [hw]
      refine ⟨iff_of_false (fun h => nomatch h) (not_le.2 hover), fun _ => ?_⟩
      refine ⟨lead, hlongest, hs', ⟨_, (hbegins hsplit).symm⟩, fun heq => ?_⟩
      rw [hbegins hsplit, List.self_eq_append_right, List.append_eq_nil_iff] at heq
      exact hchunk heq.1
  · refine ⟨_, jsonText_of_holeFree hv layout, ?_⟩
    rw [String.toList_ofList]
    exact write_json hP hs hv layout

/-- Room for seven bytes with one taken: of `l0:i123ee` all up to the letter i fits, also the empty body of the
string. The number does not, and nothing of it is written, although two of its digits would fit. A tree with
a hole leaves the sink as it is. -/
theorem write_whole_or_leading_chunks_bounded :
    (Value.list [.bytes [], .integer 123]).HoleFree ∧
      (Value.list [.bytes [], .integer 123]).chunks =
        [[108], [48], [58], [], [105], [49, 50, 51], [101], [101]] ∧
      (∃ lead, Sink.LongestFit 7 [120] (Value.list [.bytes [], .integer 123]).chunks lead ∧
        (Format.wire.write (.list [.bytes [], .integer 123]) (⟨7, [120]⟩ : Bounded)).2.bytes =
          120 :: lead.flatten) ∧
      Format.wire.write (.list [.bytes [], .integer 123]) (⟨7, [120]⟩ : Bounded) =
        (.error (.storage .full), ⟨7, [120, 108, 48, 58, 105]⟩) ∧
      (Format.wire.write (.list [.hole]) (⟨7, [120]⟩ : Bounded)).2.bytes = [120] := by
  have hfree : (Value.list [.bytes [], .integer 123]).HoleFree := by
    simp [Value.HoleFree, Value.HoleFreeItems]
  have hs : (⟨7, [120]⟩ : Bounded).room = 7 := rfl
  have hP := Sink.appends_bounded 7
  obtain ⟨b, -, -, hroom⟩ :=
    (write_whole_or_leading_chunks hP hs (.list [.bytes [], .integer 123])).2.1 hfree
  obtain ⟨-, hcut⟩ := hroom 7 (Sink.hasRoom_bounded 7) (by decide)
  obtain ⟨lead, hlead, hc, -⟩ := hcut (by decide +kernel)
  obtain ⟨p, -, hhole⟩ := (write_whole_or_leading_chunks hP hs (.list [.hole])).1
    (by simp [Value.HoleFree, Value.HoleFreeItems])
  exact ⟨hfree, by decide +kernel, ⟨lead, hlead, hc⟩, by decide +kernel,
    congrArg (·.2.bytes) (hhole .wire)⟩

end Bencode
