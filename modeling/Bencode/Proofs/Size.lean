import Bencode.Proofs.Normal
import Bencode.Proofs.Stats

/-! # A decoded tree is no bigger than its input

Every node and every key has a least length on the wire, its marks and one digit at the least. The wire form
of a tree is at least as long as these taken together, and the wire form of what was decoded is no longer
than the input, though entries whose keys came again have cost input and are not in the tree. So the
statistics bound what an input can make a reader build.
-/
namespace Bencode

theorem add_two_le_length_stringWire (b : Bytes) : 2 + b.length ≤ (stringWire b).length := by
  have hdigits : 0 < (Decimal.digits b.length).length :=
    List.length_pos_of_ne_nil (Decimal.digits_ne_nil _)
  rw [stringWire, List.length_append, List.length_cons]
  omega

namespace Value

/-- The least length on the wire of a node without its members, but with its keys. -/
def leastLength : Value → Nat
  | .integer _ => 3
  | .bytes b => 2 + b.length
  | .list _ => 2
  | .dict entries => 2 + (entries.map fun e => 2 + e.1.length).sum
  | .hole => 0

theorem sum_leastLength_nodesItems_le {vs : List Value}
    (h : ∀ v ∈ vs, (v.nodes.map leastLength).sum ≤ v.wire.length) :
    ((nodesItems vs).map leastLength).sum ≤ (wireItems vs).length := by
  induction vs with
  | nil => exact Nat.le_refl _
  | cons v vs ih =>
    obtain ⟨hv, hvs⟩ := List.forall_mem_cons.1 h
    have hrest := ih hvs
    rw [nodesItems, wireItems, List.map_append, List.sum_append, List.length_append]
    omega

theorem sum_leastLength_nodesEntries_le {es : List (Bytes × Value)}
    (h : ∀ e ∈ es, (e.2.nodes.map leastLength).sum ≤ e.2.wire.length) :
    (es.map fun e => 2 + e.1.length).sum + ((nodesEntries es).map leastLength).sum ≤
      (wireEntries es).length := by
  induction es with
  | nil => exact Nat.le_refl _
  | cons e es ih =>
    obtain ⟨he, hes⟩ := List.forall_mem_cons.1 h
    have hkey := add_two_le_length_stringWire e.1
    have hrest := ih hes
    rw [nodesEntries, wireEntries, List.map_cons, List.sum_cons, List.map_append, List.sum_append,
      List.length_append, List.length_append]
    omega

/-- The nodes of a tree have room on its wire form side by side. -/
theorem sum_leastLength_le_length_wire (v : Value) :
    (v.nodes.map leastLength).sum ≤ v.wire.length := by
  induction v with
  | integer n =>
    have hdigits : 0 < (Decimal.ofInt n.toInt).length :=
      List.length_pos_of_ne_nil (Decimal.ofInt_ne_nil _)
    simp only [nodes, wire, leastLength, List.map_cons, List.map_nil, List.sum_cons, List.sum_nil,
      List.length_cons, List.length_append, List.length_nil]
    omega
  | bytes b => exact add_two_le_length_stringWire b
  | list vs ih =>
    have hitems := sum_leastLength_nodesItems_le ih
    simp only [nodes, wire, leastLength, List.map_cons, List.sum_cons, List.length_cons, List.length_append,
      List.length_nil]
    omega
  | dict es ih =>
    have hentries := sum_leastLength_nodesEntries_le ih
    simp only [nodes, wire, leastLength, List.map_cons, List.sum_cons, List.length_cons, List.length_append,
      List.length_nil]
    omega
  | hole => exact Nat.le_refl _

end Value

namespace Stats

/-- The least length on the wire of a tree with these counts. -/
def leastLength (s : Stats) : Nat :=
  3 * s.integers + 2 * (s.strings + s.keys + s.lists + s.dicts) + s.stringBytes

theorem leastLength_collect (v : Value) :
    (collect v).leastLength = (v.nodes.map Value.leastLength).sum := by
  have hnode (depth : Nat) (v : Value) (s : Stats) :
      (visitor.enter depth v s).leastLength + v.keySum (fun k => 2 + k.length) =
        s.leastLength + v.leastLength := by
    cases v <;> simp only [Visitor.enter, visitor, leastLength, Value.keySum, Value.leastLength] <;> omega
  have hkey (k : Bytes) (s : Stats) :
      (visitor.onKey k s).leastLength = s.leastLength + (2 + k.length) := by
    simp only [visitor, leastLength]
    omega
  exact measure_collect leastLength rfl hnode hkey v

/-- Whatever the limits, a decoded tree has no holes, is no deeper than allowed, and takes no more room than
its input: three bytes an integer, two for every byte string, key, list and dictionary, and the bytes of the
strings and keys themselves. -/
theorem collect_le_of_decode {b : Bytes} {limits : Limits} {v : Value} (h : decode b limits = .ok v) :
    (collect v).holes = 0 ∧ (collect v).maxDepth ≤ limits.maxDepth ∧
      3 * (collect v).integers +
          2 * ((collect v).strings + (collect v).keys + (collect v).lists + (collect v).dicts) +
          (collect v).stringBytes ≤ b.length := by
  obtain ⟨hwritten, hwithin⟩ := wellWritten_of_decode h
  refine ⟨holes_collect_eq_zero_iff.2 hwritten.holeFree, ?_, ?_⟩
  · rw [maxDepth_collect]
    exact hwithin.depth_le
  · calc (collect v).leastLength
        = (v.nodes.map Value.leastLength).sum := leastLength_collect v
      _ ≤ v.wire.length := Value.sum_leastLength_le_length_wire v
      _ ≤ b.length := length_wire_le_of_decode h

/-- The input is `d1:bi1e1:ali2ee1:bi3ee`, in which the first entry is lost: of its 22 bytes the tree accounts
for 16. -/
theorem collect_le_of_decode_repeated :
    decode [100, 49, 58, 98, 105, 49, 101, 49, 58, 97, 108, 105, 50, 101, 101, 49, 58, 98, 105, 51, 101, 101]
        ⟨3, 1, false⟩ = .ok (.dict [([97], .list [.integer 2]), ([98], .integer 3)]) ∧
      collect (.dict [([97], .list [.integer 2]), ([98], .integer 3)]) =
        { integers := 2, lists := 1, dicts := 1, keys := 2, stringBytes := 2, maxDepth := 3 } ∧
      3 * 2 + 2 * (0 + 2 + 1 + 1) + 2 ≤ 22 := by
  have h : decode [100, 49, 58, 98, 105, 49, 101, 49, 58, 97, 108, 105, 50, 101, 101, 49, 58, 98, 105, 51,
      101, 101] ⟨3, 1, false⟩ = .ok (.dict [([97], .list [.integer 2]), ([98], .integer 3)]) := by
    decide +kernel
  exact ⟨h, rfl, (collect_le_of_decode h).2.2⟩

end Stats

end Bencode
