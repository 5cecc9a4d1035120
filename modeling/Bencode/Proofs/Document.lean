import Bencode.Proofs.FirstHole
import Bencode.Proofs.Reachable
import Bencode.Proofs.Unbounded

/-! # What a document writes

A document is blank, or a hole lies in its tree, or the tree is complete, and this alone decides how a
writing ends. A tree that was read stays until a step puts another in its place, so that under strict keys
the text that was read is written from then on. A failed reading leaves a blank document, and looking at
it puts no more than a hole there, which does not count as a tree.
-/
namespace Bencode

/-- The step looks at the tree it is taken to and changes nothing. -/
def TreeStep.readOnly : TreeStep → Bool
  | .set _ _ | .slot _ _ => false
  | _ => true

theorem TreeStep.apply_of_readOnly [Growth] {step : TreeStep} (h : step.readOnly = true) (v : Value) :
    (step.apply v).2 = v := by
  cases step with
  | set p w => cases h
  | slot p step => cases h
  | _ => rfl

/-- The step writes the tree, looks at it or has nothing to do with it. -/
def DocumentStep.keepsTree : DocumentStep → Bool
  | .read _ | .setRoot _ | .takeRoot => false
  | .build step => step.readOnly
  | _ => true

namespace Document

variable {limits : Limits} {d : Document} {v : Value} {σ : Type} [Sink σ] {P : σ → Prop} {s : σ}
  {step : DocumentStep} {steps : List DocumentStep}

/-- There is no tree, or nothing but a hole. -/
def Blank (d : Document) : Prop := d.root? = none ∨ d.root? = some .hole

/-- A hole lies below the root. -/
def Incomplete (d : Document) : Prop :=
  ∃ root p, d.root? = some root ∧ p ≠ [] ∧ root.follow? p = some .hole

/-- There is a tree, and no path of it leads to a hole. -/
def Complete (d : Document) : Prop := ∃ root, d.root? = some root ∧ ∀ p, root.follow? p ≠ some .hole

/-- From a bare hole no path leads on. -/
theorem eq_nil_of_follow?_hole {p : Path} (h : Value.hole.follow? p = some .hole) : p = [] := by
  cases p with
  | nil => rfl
  | cons t p =>
    obtain ⟨w, hw, -⟩ := Value.follow?_cons_eq_some.1 h
    rw [Value.child?_hole] at hw
    cases hw

theorem blank_or_incomplete_or_complete (d : Document) : d.Blank ∨ d.Incomplete ∨ d.Complete := by
  cases hroot : d.root? with
  | none => exact .inl (.inl hroot)
  | some root =>
    by_cases hpaths : ∀ p, root.follow? p ≠ some .hole
    · exact .inr (.inr ⟨root, hroot, hpaths⟩)
    · obtain ⟨p, hp⟩ := not_forall_not.1 hpaths
      cases p with
      | nil =>
        have hhole : root = .hole := Option.some.inj hp
        exact .inl (.inr (hhole ▸ hroot))
      | cons t p => exact .inr (.inl ⟨root, t :: p, hroot, List.cons_ne_nil t p, hp⟩)

theorem Blank.eq_hole (hd : d.Blank) (hroot : d.root? = some v) : v = .hole := by
  rcases hd with h | h
  · rw [h] at hroot
    cases hroot
  · exact Option.some.inj (hroot.symm.trans h)

theorem Blank.not_incomplete (hd : d.Blank) : ¬ d.Incomplete := by
  rintro ⟨root, p, hroot, hp, hhole⟩
  have hbare : root = .hole := hd.eq_hole hroot
  subst hbare
  exact hp (eq_nil_of_follow?_hole hhole)

theorem Blank.not_complete (hd : d.Blank) : ¬ d.Complete := by
  rintro ⟨root, hroot, hpaths⟩
  have hbare : root = .hole := hd.eq_hole hroot
  exact hpaths [] (congrArg some hbare)

theorem Incomplete.not_complete (hd : d.Incomplete) : ¬ d.Complete := by
  rintro ⟨root, hroot, hpaths⟩
  obtain ⟨root', p, hroot', -, hhole⟩ := hd
  have hsame : root = root' := Option.some.inj (hroot.symm.trans hroot')
  exact hpaths p (hsame ▸ hhole)

theorem Complete.exists_holeFree (h : d.Complete) (hd : d.KeepsOrder) :
    ∃ root, d.root? = some root ∧ root.HoleFree := by
  obtain ⟨root, hroot, hpaths⟩ := h
  exact ⟨root, hroot, (Value.holeFree_iff_follow? (hd root hroot)).2 hpaths⟩

theorem setRoot_of_root? (h : d.root? = some v) : d.setRoot (d.root?.getD .hole) = d := by
  rw [h, Option.getD_some, setRoot, ← h]

theorem apply_of_keepsTree [Growth] (h : step.keepsTree = true) (hroot : d.root? = some v) :
    (step.apply (d, s)).2.1 = d := by
  cases step with
  | read input => cases h
  | setRoot w => cases h
  | takeRoot => cases h
  | look => exact setRoot_of_root? hroot
  | build step =>
    have hkeep := TreeStep.apply_of_readOnly h (d.root?.getD .hole)
    have hstep : ((DocumentStep.build step).apply (d, s)).2.1 =
        d.setRoot (step.apply (d.root?.getD .hole)).2 := rfl
    rw [hstep, hkeep, setRoot_of_root? hroot]
  | _ => rfl

theorem Blank.getD_hole (hd : d.Blank) : d.root?.getD .hole = .hole := by
  rcases hd with h | h
  · rw [h, Option.getD_none]
  · rw [h, Option.getD_some]

/-- To look for a tree where none is puts a hole there, and to take it away leaves none. -/
theorem Blank.apply [Growth] (hd : d.Blank) (h : step.keepsTree = true ∨ step = .takeRoot) :
    (step.apply (d, s)).2.1.Blank := by
  cases step with
  | read input => simp [DocumentStep.keepsTree] at h
  | setRoot w => simp [DocumentStep.keepsTree] at h
  | takeRoot => exact .inl rfl
  | look => exact .inr (congrArg some hd.getD_hole)
  | build step =>
    have hread : step.readOnly = true := by simpa [DocumentStep.keepsTree] using h
    have hkeep := TreeStep.apply_of_readOnly hread (d.root?.getD .hole)
    exact .inr (congrArg some (hkeep.trans hd.getD_hole))
  | _ => exact hd

theorem write_of_blank (hd : d.Blank) (format : Format) (s : σ) :
    d.write format s = (.error .noRoot, s) := by
  unfold write
  rcases hd with h | h
  · rw [h]
  · rw [h]

theorem write_of_root? (h : d.root? = some v) (hv : v ≠ .hole) (format : Format) (s : σ) :
    d.write format s = format.write v s := by
  unfold write
  rw [h]
  cases v with
  | hole => exact absurd rfl hv
  | _ => rfl

theorem write_of_holeFree (hP : Sink.Unbounded P) (hs : P s) (hroot : d.root? = some v)
    (hfree : v.HoleFree) (format : Format) : ∃ s', d.write format s = (.ok (), s') ∧
      Sink.contents s' = Sink.contents s ++ (format.chunks v).flatten := by
  have hne : v ≠ .hole := by
    intro he
    subst he
    exact hfree
  obtain ⟨s', hw, -, hc⟩ := hP.write hs (format.chunks v)
  refine ⟨s', ?_, hc⟩
  rw [write_of_root? hroot hne, Format.write_of_holeFree hfree, hw]

/-- The error names the hole that comes before all others. -/
theorem write_of_incomplete (hd : d.KeepsOrder) (h : d.Incomplete) (format : Format) (s : σ) :
    ∃ root p, d.root? = some root ∧ d.write format s = (.error (.unassigned p), s) ∧
      root.follow? p = some .hole ∧
      ∀ q, root.follow? q = some .hole → q = p ∨ Path.Before p q := by
  obtain ⟨root, q, hroot, hq, hhole⟩ := h
  have hne : root ≠ .hole := by
    intro he
    subst he
    exact hq (eq_nil_of_follow?_hole hhole)
  obtain ⟨p, hp⟩ := Value.exists_findHole (Value.not_holeFree_of_follow? hhole)
  obtain ⟨hfound, hfirst⟩ := Value.findHole_eq_some (hd root hroot) hp
  refine ⟨root, p, hroot, ?_, hfound, hfirst⟩
  rw [write_of_root? hroot hne, Format.write_of_findHole hp]

/-- What the document is can be told from how a writing to an unbounded sink ends. -/
structure EndsBy (d : Document) (r : Except Error Unit) : Prop where
  noRoot_iff : r = .error .noRoot ↔ d.Blank
  unassigned_iff : (∃ p, r = .error (.unassigned p)) ↔ d.Incomplete
  ok_iff : r = .ok () ↔ d.Complete
  first : ∀ p root, r = .error (.unassigned p) → d.root? = some root →
    root.follow? p = some .hole ∧ ∀ q, root.follow? q = some .hole → q = p ∨ Path.Before p q

theorem endsBy_write (hP : Sink.Unbounded P) (hd : d.KeepsOrder) (hs : P s) (format : Format) :
    d.EndsBy (d.write format s).1 := by
  rcases d.blank_or_incomplete_or_complete with h | h | h
  · rw [write_of_blank h]
    exact {
      noRoot_iff := iff_of_true rfl h
      unassigned_iff := iff_of_false (fun ⟨p, hr⟩ => nomatch hr) h.not_incomplete
      ok_iff := iff_of_false (fun hr => nomatch hr) h.not_complete
      first := fun p root hr => nomatch hr }
  · obtain ⟨root, p, hroot, hw, hfirst⟩ := write_of_incomplete hd h format s
    rw [hw]
    refine ⟨iff_of_false (fun hr => nomatch hr) fun hb => hb.not_incomplete h,
      iff_of_true ⟨p, rfl⟩ h, iff_of_false (fun hr => nomatch hr) h.not_complete, ?_⟩
    intro p' root' hr hroot'
    cases hr
    cases hroot.symm.trans hroot'
    exact hfirst
  · obtain ⟨root, hroot, hfree⟩ := h.exists_holeFree hd
    obtain ⟨s', hw, -⟩ := write_of_holeFree hP hs hroot hfree format
    rw [hw]
    exact {
      noRoot_iff := iff_of_false (fun hr => nomatch hr) fun hb => hb.not_complete h
      unassigned_iff := iff_of_false (fun ⟨p, hr⟩ => nomatch hr) fun hi => hi.not_complete h
      ok_iff := iff_of_true rfl h
      first := fun p root hr => nomatch hr }

theorem limits_apply [Growth] (step : DocumentStep) (d : Document) (s : σ) :
    (step.apply (d, s)).2.1.limits = d.limits := by
  cases step with
  | _ => rfl

theorem Reachable.limits_eq (hd : Reachable limits d) : d.limits = limits := by
  induction hd with
  | new => rfl
  | step _ step _ s ih => exact (limits_apply step _ s).trans ih
  | edit _ _ ih => exact ih

/-- A step leaves an unbounded sink as good as it was. -/
theorem sink_apply [Growth] (hP : Sink.Unbounded P) (hs : P s) (step : DocumentStep) (d : Document) :
    P (step.apply (d, s)).2.2 := by
  cases step with
  | write format =>
    have hwrite : P (d.write format s).2 := by
      unfold write
      split
      · exact hs
      · exact hs
      · next root _ _ => exact (hP.shows_write hs format root).stays
    exact hwrite
  | clear => exact hP.keeps_clear hs
  | _ => exact hs

theorem final_of_keepsTree [Growth] (hP : Sink.Unbounded P) (hs : P s) (hroot : d.root? = some v)
    (hsteps : ∀ step ∈ steps, step.keepsTree = true) :
    (Script.final DocumentStep.apply steps (d, s)).1 = d ∧
      P (Script.final DocumentStep.apply steps (d, s)).2 := by
  induction steps generalizing s with
  | nil => exact ⟨rfl, hs⟩
  | cons step steps ih =>
    obtain ⟨hstep, hsteps⟩ := List.forall_mem_cons.1 hsteps
    have hkept : (step.apply (d, s)).2 = (d, (step.apply (d, s)).2.2) :=
      Prod.ext (apply_of_keepsTree hstep hroot) rfl
    have hrest := ih (sink_apply hP hs step d) hsteps
    rw [← hkept] at hrest
    exact hrest

theorem Blank.final [Growth] (hd : d.Blank)
    (hsteps : ∀ step ∈ steps, step.keepsTree = true ∨ step = .takeRoot) :
    (Script.final DocumentStep.apply steps (d, s)).1.Blank := by
  induction steps generalizing d s with
  | nil => exact hd
  | cons step steps ih =>
    obtain ⟨hstep, hsteps⟩ := List.forall_mem_cons.1 hsteps
    exact ih (hd.apply hstep) hsteps

theorem wire_of_read {input : Input} (hstrict : d.limits.strictKeys = true)
    (hread : (d.read input).1 = .ok v) :
    v.HoleFree ∧ v.wire = input.data.drop input.position := by
  have hdocument : (Reader.document d.limits input.cursor).1 = .ok v := hread
  exact wire_of_document hstrict (Prod.ext hdocument rfl)

theorem root?_of_read {input : Input} (hread : (d.read input).1 = .ok v) :
    (d.read input).2.2.root? = some v := congrArg Except.toOption hread

theorem blank_of_read {input : Input} {e : Error} (hread : (d.read input).1 = .error e) :
    (d.read input).2.2.Blank := .inl (congrArg Except.toOption hread)

/-- What is written in a reachable document, to a sink that never refuses. After a tree was read under
strict keys, each writing appends the text it was read from, as long as no step puts another tree in its
place. After a failed reading, each writing is refused and leaves the sink as it is, as long as no step
puts a tree there. In any document, how a writing ends tells whether it is blank, incomplete or complete.
No step changes the limits, and writing changes nothing in the document. -/
theorem write_in_reachable [Growth] (hP : Sink.Unbounded P) (hd : Reachable limits d) (hs : P s) :
    (∀ input v steps d' s', limits.strictKeys = true → (d.read input).1 = .ok v →
        (∀ step ∈ steps, step.keepsTree = true) →
        Script.final DocumentStep.apply (.read input :: steps) (d, s) = (d', s') →
        ∃ s'', d'.write .wire s' = (.ok (), s'') ∧
          Sink.contents s'' = Sink.contents s' ++ input.data.drop input.position) ∧
      (∀ input e steps d' s', (d.read input).1 = .error e →
        (∀ step ∈ steps, step.keepsTree = true ∨ step = .takeRoot) →
        Script.final DocumentStep.apply (.read input :: steps) (d, s) = (d', s') →
        ∀ format : Format, d'.write format s' = (.error .noRoot, s')) ∧
      (∀ format : Format, d.EndsBy (d.write format s).1) ∧
      d.limits = limits ∧ (∀ step : DocumentStep, (step.apply (d, s)).2.1.limits = limits) ∧
      ∀ format : Format, ((DocumentStep.write format).apply (d, s)).2.1 = d := by
  have hlimits : d.limits = limits := hd.limits_eq
  refine ⟨fun input v steps d' s' hstrict hread hsteps hfinal => ?_,
    fun input e steps d' s' hread hsteps hfinal format => ?_, fun format => ?_, hlimits,
    fun step => (limits_apply step d s).trans hlimits, fun format => rfl⟩
  · have hroot : (d.read input).2.2.root? = some v := root?_of_read hread
    have hrun : Script.final DocumentStep.apply steps ((d.read input).2.2, s) = (d', s') := hfinal
    have hend := final_of_keepsTree hP hs hroot hsteps
    rw [hrun] at hend
    obtain ⟨hkept, hs'⟩ : d' = (d.read input).2.2 ∧ P s' := hend
    obtain ⟨hfree, hwire⟩ := wire_of_read (hlimits ▸ hstrict) hread
    rw [← hkept] at hroot
    obtain ⟨s'', hw, hc⟩ := write_of_holeFree hP hs' hroot hfree .wire
    rw [Format.chunks, Value.flatten_chunks, hwire] at hc
    exact ⟨s'', hw, hc⟩
  · have hrun : Script.final DocumentStep.apply steps ((d.read input).2.2, s) = (d', s') := hfinal
    have hend : (Script.final DocumentStep.apply steps ((d.read input).2.2, s)).1.Blank :=
      (blank_of_read hread).final hsteps
    rw [hrun] at hend
    exact write_of_blank hend format s'
  · exact endsBy_write hP hd.keepsOrder hs format

/-- The text `xli1ee` is read behind its first byte, written and looked at; the second writing puts
`li1ee` behind the first. After `i01e` there is nothing to write, though a hole was put in its place. -/
theorem write_in_reachable_read :
    Script.final DocumentStep.apply [.read ⟨[120, 108, 105, 49, 101, 101], 1⟩, .write .wire, .look]
        (⟨⟨3, 4, true⟩, none⟩, ([] : Bytes)) =
      (⟨⟨3, 4, true⟩, some (.list [.integer 1])⟩, [108, 105, 49, 101, 101]) ∧
    (∃ s'' : Bytes, write ⟨⟨3, 4, true⟩, some (.list [.integer 1])⟩ .wire
          ([108, 105, 49, 101, 101] : Bytes) = (.ok (), s'') ∧
        Sink.contents s'' = [108, 105, 49, 101, 101] ++ [108, 105, 49, 101, 101]) ∧
    Script.final DocumentStep.apply [.read ⟨[105, 48, 49, 101], 0⟩, .look]
        (⟨⟨3, 4, true⟩, none⟩, ([120] : Bytes)) = (⟨⟨3, 4, true⟩, some .hole⟩, [120]) ∧
    write ⟨⟨3, 4, true⟩, some .hole⟩ .wire ([120] : Bytes) = (.error .noRoot, [120]) := by
  have hfirst : Script.final DocumentStep.apply
      [.read ⟨[120, 108, 105, 49, 101, 101], 1⟩, .write .wire, .look]
        (⟨⟨3, 4, true⟩, none⟩, ([] : Bytes)) =
      (⟨⟨3, 4, true⟩, some (.list [.integer 1])⟩, [108, 105, 49, 101, 101]) := by decide +kernel
  have hsecond : Script.final DocumentStep.apply [.read ⟨[105, 48, 49, 101], 0⟩, .look]
      (⟨⟨3, 4, true⟩, none⟩, ([120] : Bytes)) = (⟨⟨3, 4, true⟩, some .hole⟩, [120]) := by
    decide +kernel
  have hread : (read ⟨⟨3, 4, true⟩, none⟩ ⟨[120, 108, 105, 49, 101, 101], 1⟩).1 =
      .ok (.list [.integer 1]) := by decide +kernel
  have hfail : (read ⟨⟨3, 4, true⟩, none⟩ ⟨[105, 48, 49, 101], 0⟩).1 =
      .error (.malformed 3 .leadingZero) := by decide +kernel
  have hnew : Reachable ⟨3, 4, true⟩ ⟨⟨3, 4, true⟩, none⟩ := .new
  have hbytes := Sink.transparent_bytes.toUnbounded
  obtain ⟨hwritten, -⟩ := write_in_reachable hbytes hnew (s := []) trivial
  obtain ⟨-, hrefused, -⟩ := write_in_reachable hbytes hnew (s := [120]) trivial
  refine ⟨hfirst, ?_, hsecond, ?_⟩
  · exact hwritten _ _ [.write .wire, .look] _ _ rfl hread (by decide) hfirst
  · exact hrefused _ _ [.look] _ _ hfail (by simp [DocumentStep.keepsTree]) hsecond .wire

end Document

end Bencode
