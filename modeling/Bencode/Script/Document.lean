import Bencode.Document
import Bencode.Script.Tree

/-! # Scripts that read, build and write a document -/
namespace Bencode

inductive DocumentStep where
  | read (input : Input)
  | write (format : Format)
  | clear
  | setRoot (v : Value)
  | takeRoot
  | look
  | build (step : TreeStep)
  | copy
  | limits
  /-- The value to be stored has no value form. -/
  | invalid (cause : Error)

namespace DocumentStep

variable [Growth] {σ : Type} [Sink σ]

/-- Writing goes to the sink beside the document. -/
def apply (step : DocumentStep) (state : Document × σ) : Reply × Document × σ :=
  let (d, s) := state
  match step with
  | .read input =>
    let (result, input', d') := d.read input
    (.read result input'.position, d', s)
  | .write format =>
    let (r, s') := d.write format s
    (.ofResult (fun _ => .done) r, d, s')
  | .clear => (.done, d, Sink.clear s)
  | .setRoot v => (.done, d.setRoot v, s)
  | .takeRoot =>
    let (v?, d') := d.takeRoot
    (.tree v?, d', s)
  | .look =>
    let (r, d') := d.build Build.look
    (.ofResult (fun v => .tree (some v)) r, d', s)
  | .build t =>
    let (r, d') := d.build fun v => (.ok (t.apply v).1, (t.apply v).2)
    (.ofResult id r, d', s)
  | .copy => (.done, d, s)
  | .limits => (.limits d.limits, d, s)
  | .invalid cause => (.failed cause, d, s)

end DocumentStep

end Bencode
