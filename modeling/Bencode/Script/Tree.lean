import Bencode.Build
import Bencode.Format
import Bencode.Script.Reply

/-! # Scripts that build a tree -/
namespace Bencode

/-- What is done to one slot. -/
inductive SlotStep where
  | look
  | setKey (key : Bytes) (v : Value)
  | setIndex (i : Nat) (v : Value)
  | entry (key : Bytes)
  | element (i : Nat)
  | ensureLength (length : Nat)
  | addInteger (n : Int64)
  | appendBytes (b : Bytes)
  | pushItem (v : Value)
  | popItem
  | removeKey (key : Bytes)
  /-- The value to be stored has no value form. -/
  | invalid (cause : Error)

/-- Steps that look at the tree create nothing; `set` and `slot` create what is missing on the way. -/
inductive TreeStep where
  | get (p : Path) (key : Bytes)
  | getIndex (p : Path) (i : Nat)
  | follow (p : Path)
  | findHole
  | encode
  | json (layout : Json.Layout)
  | stats
  | kind
  | set (p : Path) (v : Value)
  | slot (p : Path) (step : SlotStep)
  /-- The value to be stored has no value form. -/
  | invalid (cause : Error)

namespace SlotStep

variable [Growth]

private def answer {α : Type} (f : α → Reply) (step : Build α) : Build Reply := fun v =>
  let (r, w) := step v
  (r.map f, w)

private def seen : Build Reply := answer (fun v => .tree (some v)) Build.look

def apply : SlotStep → Build Reply
  | .look => seen
  | .setKey k v => answer (fun _ => .done) (Build.atKey k (Build.assign v))
  | .setIndex i v => answer (fun _ => .done) (Build.atIndex i (Build.assign v))
  | .entry k => Build.atKey k seen
  | .element i => Build.atIndex i seen
  | .ensureLength length => answer (fun items => .count items.length) (Build.ensureLength length)
  | .addInteger n => Build.onInteger fun m => (.integer (m + n), m + n)
  | .appendBytes b => Build.onBytes fun c => (.bytes (c ++ b), c ++ b)
  | .pushItem v => Build.onList fun items => (.count (items.length + 1), items ++ [v])
  | .popItem => Build.onList fun items => (.tree items.getLast?, items.dropLast)
  | .removeKey k =>
    Build.onDict fun entries => (.tree (Entries.get? k entries), Entries.erase k entries)
  | .invalid cause => fun v => (.error cause, v)

end SlotStep

namespace TreeStep

variable [Growth]

def apply (step : TreeStep) (v : Value) : Reply × Value :=
  match step with
  | .get p k => (.tree ((v.follow? p).bind (·.get? k)), v)
  | .getIndex p i => (.tree ((v.follow? p).bind (·.item? i)), v)
  | .follow p => (.tree (v.follow? p), v)
  | .findHole => (.path v.findHole, v)
  | .encode => (.ofResult .bytes (Bencode.encode v), v)
  | .json layout => (.ofResult .text (jsonText layout v), v)
  | .stats => (.stats (Stats.collect v), v)
  | .kind => (.kind v.kind, v)
  | .set p w =>
    let (r, v') := Build.set p w v
    (.ofResult (fun _ => .done) r, v')
  | .slot p s =>
    let (r, v') := Build.atPath p s.apply v
    (.ofResult id r, v')
  | .invalid cause => (.failed cause, v)

end TreeStep

end Bencode
