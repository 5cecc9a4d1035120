import Bencode.Format
import Bencode.Input
import Bencode.Script.Reply

/-! # Scripts on one input or one sink -/
namespace Bencode

inductive InputStep where
  | current
  | more
  | next
  | reset
  | take (n : Nat)
  | decode (limits : Limits)

namespace InputStep

def apply (step : InputStep) (s : Input) : Reply × Input :=
  match step with
  | .current => (.byte s.current?, s)
  | .more => (.flag s.more, s)
  | .next => (.done, s.next)
  | .reset => (.done, s.reset)
  | .take n =>
    let (r, s') := s.take n
    (.ofResult .bytes r, s')
  | .decode limits =>
    let (r, s') := s.decode limits
    (.ofResult (fun v => .tree (some v)) r, s')

end InputStep

inductive SinkStep where
  | add (b : Bytes)
  | addByte (b : UInt8)
  | clear
  | write (format : Format) (v : Value)
  /-- The value to be written has no value form. -/
  | invalid (cause : Error)

namespace SinkStep

variable {σ : Type} [Sink σ]

def apply (step : SinkStep) (s : σ) : Reply × σ :=
  match step with
  | .add b => done (Sink.attempt s (Sink.add · b))
  | .addByte b => done (Sink.attempt s (Sink.addByte · b))
  | .clear => (.done, Sink.clear s)
  | .write format v => done (format.write v s)
  | .invalid cause => (.failed cause, s)
where
  done (r : Except Error Unit × σ) : Reply × σ := (.ofResult (fun _ => .done) r.1, r.2)

end SinkStep

end Bencode
