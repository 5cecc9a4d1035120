import Bencode.Editor.Rules
import Bencode.Proofs.Build.KeyOrder
import Bencode.Proofs.RoundTrip
import Bencode.Script.Document

/-! # Keys in order at all times

No sequence of readings, build steps, edits in place and walks puts a key of a dictionary out of order.
Values are constructed or decoded, and a dictionary is changed by its own operations only; each of these
keeps a sorted tree sorted, so that all trees a document can come to hold are sorted, and so are those that
an editor makes of them. What is written of such a tree is therefore read back under strict keys.
-/
namespace Bencode

/-- Byte strings in the order of their bytes, each in front of its extensions. -/
inductive Bytes.Before : Bytes → Bytes → Prop
  | extension (a : Bytes) (x : UInt8) (t : Bytes) : Before a (a ++ x :: t)
  | byte (r : Bytes) {x y : UInt8} (h : x < y) (s t : Bytes) : Before (r ++ x :: s) (r ++ y :: t)

theorem Bytes.before_of_lt {a b : Bytes} (h : a < b) : Bytes.Before a b := by
  induction a generalizing b with
  | nil =>
    cases b with
    | nil => exact absurd h (List.not_lt_nil _)
    | cons y t => exact .extension [] y t
  | cons x s ih =>
    cases b with
    | nil => exact absurd h (List.not_lt_nil _)
    | cons y t =>
      rcases List.cons_lt_cons_iff.1 h with hlt | ⟨rfl, hlt⟩
      · exact .byte [] hlt s t
      · cases ih hlt with
        | extension _ z u => exact .extension (x :: s) z u
        | byte r hzw u u' => exact .byte (x :: r) hzw u u'

namespace Value

/-- The values there are: scalars, holes, lists and dictionaries made of some, and what decoding answers.
Of entries with equal keys the last one counts when a dictionary is made. -/
inductive Constructed : Value → Prop
  | integer (n : Int64) : Constructed (.integer n)
  | bytes (b : Bytes) : Constructed (.bytes b)
  | list {items : List Value} (h : ∀ v ∈ items, Constructed v) : Constructed (.list items)
  | dict {entries : List (Bytes × Value)} (h : ∀ e ∈ entries, Constructed e.2) :
    Constructed (.ofEntries entries)
  | hole : Constructed .hole
  | decoded {b : Bytes} {limits : Limits} {v : Value} (h : decode b limits = .ok v) : Constructed v

/-- What its own operations make of a list. -/
inductive ItemsEdited (items : List Value) : List Value → Prop
  | none : ItemsEdited items items
  | push {vs : List Value} {v : Value} (h : ItemsEdited items vs) (hv : v.Constructed) :
    ItemsEdited items (vs ++ [v])
  | pop {vs : List Value} (h : ItemsEdited items vs) : ItemsEdited items vs.dropLast
  | insert {vs : List Value} {v : Value} (h : ItemsEdited items vs) (i : Nat) (hv : v.Constructed) :
    ItemsEdited items (vs.insertIdx i v)
  | remove {vs : List Value} (h : ItemsEdited items vs) (i : Nat) :
    ItemsEdited items (vs.eraseIdx i)

/-- What its own operations make of a dictionary. -/
inductive EntriesEdited (entries : List (Bytes × Value)) : List (Bytes × Value) → Prop
  | none : EntriesEdited entries entries
  | insert {es : List (Bytes × Value)} {v : Value} (h : EntriesEdited entries es) (k : Bytes)
    (hv : v.Constructed) : EntriesEdited entries (Entries.insert k v es)
  | remove {es : List (Bytes × Value)} (h : EntriesEdited entries es) (k : Bytes) :
    EntriesEdited entries (Entries.erase k es)

/-- What steps on a tree make of it: build steps, assignments, and changes in place to an integer, a byte
string, a list or a dictionary at the end of a path. A step may fail and leave part of what it did, and the
lengths that lists can grow to need not be the same at each step. -/
inductive Edited (v : Value) : Value → Prop
  | none : Edited v v
  | assign {w : Value} (hw : w.Constructed) : Edited v w
  | step [Growth] {w : Value} (h : Edited v w) (step : TreeStep) (hstep : ∀ u ∈ step.values, u.Constructed) :
    Edited v (step.apply w).2
  | integer [Growth] {w : Value} (h : Edited v w) (p : Path) (f : Int64 → Int64) :
    Edited v (Build.atPath p (Build.onInteger fun n => ((), f n)) w).2
  | bytes [Growth] {w : Value} (h : Edited v w) (p : Path) (f : Bytes → Bytes) :
    Edited v (Build.atPath p (Build.onBytes fun b => ((), f b)) w).2
  | items [Growth] {w : Value} (h : Edited v w) (p : Path) (f : List Value → List Value)
    (hf : ∀ items, (Value.list items).Constructed → ItemsEdited items (f items)) :
    Edited v (Build.atPath p (Build.onList fun items => ((), f items)) w).2
  | entries [Growth] {w : Value} (h : Edited v w) (p : Path)
    (f : List (Bytes × Value) → List (Bytes × Value))
    (hf : ∀ es, (Value.dict es).Constructed → EntriesEdited es (f es)) :
    Edited v (Build.atPath p (Build.onDict fun es => ((), f es)) w).2

variable {v w : Value}

theorem sorted_ofEntries {entries : List (Bytes × Value)} (h : ∀ e ∈ entries, e.2.Sorted) :
    (Value.ofEntries entries).Sorted :=
  sorted_dict.2 ⟨Entries.sorted_ofList entries, fun e he => h e (Entries.mem_of_mem_ofList he)⟩

/-- Just the sorted trees can be constructed. -/
theorem constructed_iff_sorted : v.Constructed ↔ v.Sorted := by
  constructor
  · intro h
    induction h with
    | list _ ih => exact sorted_list.2 ih
    | dict _ ih => exact sorted_ofEntries ih
    | decoded h => exact (wellWritten_of_decode h).1.sorted rfl
    | _ => trivial
  · intro h
    induction v with
    | integer n => exact .integer n
    | bytes b => exact .bytes b
    | list items ih => exact .list fun v hv => ih v hv (sorted_list.1 h v hv)
    | dict entries ih =>
      obtain ⟨hkeys, hvs⟩ := sorted_dict.1 h
      have hdict : (Value.ofEntries entries).Constructed := .dict fun e he => ih e he (hvs e he)
      rwa [ofEntries, Entries.ofList_of_sorted hkeys] at hdict
    | hole => exact .hole

theorem ItemsEdited.sorted {items vs : List Value} (h : ItemsEdited items vs)
    (hitems : (Value.list items).Sorted) : (Value.list vs).Sorted := by
  induction h with
  | none => exact hitems
  | push _ hv ih => exact sorted_list_concat ih (constructed_iff_sorted.1 hv)
  | pop _ ih => exact sorted_list_of_subset ih (List.dropLast_sublist _).subset
  | @insert vs v _ i hv ih =>
    have hcons : (Value.list (v :: vs)).Sorted :=
      sorted_list.2 (List.forall_mem_cons.2 ⟨constructed_iff_sorted.1 hv, sorted_list.1 ih⟩)
    rcases Nat.lt_or_ge vs.length i with hi | hi
    · rwa [List.insertIdx_of_length_lt hi]
    · exact sorted_list_of_subset hcons (List.perm_insertIdx v vs hi).subset
  | @remove vs _ i ih => exact sorted_list_of_subset ih (List.eraseIdx_sublist vs i).subset

theorem EntriesEdited.sorted {entries es : List (Bytes × Value)} (h : EntriesEdited entries es)
    (hentries : (Value.dict entries).Sorted) : (Value.dict es).Sorted := by
  induction h with
  | none => exact hentries
  | insert _ k hv ih => exact sorted_dict_insert ih k (constructed_iff_sorted.1 hv)
  | remove _ k ih => exact sorted_dict_erase ih k

theorem Edited.sorted (h : Edited v w) (hv : v.Sorted) : w.Sorted := by
  induction h with
  | none => exact hv
  | assign hw => exact constructed_iff_sorted.1 hw
  | step _ step hstep ih =>
    exact TreeStep.sorted_apply (fun u hu => constructed_iff_sorted.1 (hstep u hu)) ih
  | integer _ p f ih => exact (Build.keepsOrder_onInteger _).atPath p _ ih
  | bytes _ p f ih => exact (Build.keepsOrder_onBytes _).atPath p _ ih
  | items _ p f hf ih =>
    refine (Build.keepsOrder_onList fun items hitems => ?_).atPath p _ ih
    exact (hf items (constructed_iff_sorted.2 hitems)).sorted hitems
  | entries _ p f hf ih =>
    refine (Build.keepsOrder_onDict fun es hes => ?_).atPath p _ ih
    exact (hf es (constructed_iff_sorted.2 hes)).sorted hes

end Value

open Value

namespace Editor

variable {σ : Type} {editor : Editor σ}

/-- The hooks change what they are shown by steps and operations. -/
structure ByOperations (editor : Editor σ) : Prop where
  node : ∀ v depth s, v.Constructed → Edited v (editor.onNode v depth s).1
  items : ∀ items s, (Value.list items).Constructed → ItemsEdited items (editor.onList items s).1
  entries : ∀ es s, (Value.dict es).Constructed → EntriesEdited es (editor.onDict es s).1

variable {edit : Value → σ → Option (Value × σ)}

theorem sorted_throughItems (hedit : ∀ v s w s', edit v s = some (w, s') → v.Sorted → w.Sorted)
    {vs ws : List Value} {s s' : σ} (h : throughItems edit vs s = some (ws, s'))
    (hvs : ∀ v ∈ vs, v.Sorted) : ∀ w ∈ ws, w.Sorted := by
  induction vs generalizing ws s s' with
  | nil =>
    cases h
    exact hvs
  | cons v vs ih =>
    obtain ⟨hv, hvs⟩ := List.forall_mem_cons.1 hvs
    rw [throughItems] at h
    split at h
    · cases h
    · next w s₁ hw =>
      split at h
      · cases h
      · next ws' s₂ hws =>
        cases h
        exact List.forall_mem_cons.2 ⟨hedit _ _ _ _ hw hv, ih hws hvs⟩

/-- The walk over a dictionary leaves its keys as they are. -/
theorem sorted_throughEntries (hedit : ∀ v s w s', edit v s = some (w, s') → v.Sorted → w.Sorted)
    {es fs : List (Bytes × Value)} {s s' : σ} (h : throughEntries edit es s = some (fs, s'))
    (hes : ∀ e ∈ es, e.2.Sorted) : Entries.keys fs = Entries.keys es ∧ ∀ f ∈ fs, f.2.Sorted := by
  induction es generalizing fs s s' with
  | nil =>
    cases h
    exact ⟨rfl, hes⟩
  | cons e es ih =>
    obtain ⟨k, v⟩ := e
    obtain ⟨hv, hes⟩ := List.forall_mem_cons.1 hes
    rw [throughEntries] at h
    split at h
    · cases h
    · next w s₁ hw =>
      split at h
      · cases h
      · next fs' s₂ hfs =>
        cases h
        obtain ⟨hkeys, hrest⟩ := ih hfs hes
        exact ⟨congrArg (k :: ·) hkeys, List.forall_mem_cons.2 ⟨hedit _ _ _ _ hw hv, hrest⟩⟩

theorem ByOperations.sorted_walkWithin (h : editor.ByOperations) {levels depth : Nat} {v w : Value}
    {s s' : σ} (hwalk : editor.walkWithin levels depth v s = some (w, s')) (hv : v.Sorted) :
    w.Sorted := by
  induction levels generalizing depth v w s s' with
  | zero => cases hwalk
  | succ levels ih =>
    have hnode := (h.node v depth s (constructed_iff_sorted.2 hv)).sorted hv
    rw [walkWithin] at hwalk
    split at hwalk
    · cases hwalk
      trivial
    · cases hwalk
      trivial
    · next items s₁ hon =>
      rw [hon] at hnode
      have hitems := (h.items items s₁ (constructed_iff_sorted.2 hnode)).sorted hnode
      obtain ⟨⟨ws, s₂⟩, hws, heq⟩ := Option.map_eq_some_iff.1 hwalk
      cases heq
      exact sorted_list.2
        (sorted_throughItems (fun _ _ _ _ hw hv => ih hw hv) hws (sorted_list.1 hitems))
    · next es s₁ hon =>
      rw [hon] at hnode
      have hes := (h.entries es s₁ (constructed_iff_sorted.2 hnode)).sorted hnode
      obtain ⟨hkeys, hvs⟩ := sorted_dict.1 hes
      obtain ⟨⟨fs, s₂⟩, hfs, heq⟩ := Option.map_eq_some_iff.1 hwalk
      cases heq
      obtain ⟨hsame, hfs⟩ := sorted_throughEntries (fun _ _ _ _ hw hv => ih hw hv) hfs hvs
      exact sorted_dict.2 ⟨by rwa [Entries.Sorted, hsame], hfs⟩
    · cases hwalk
      trivial

end Editor

/-- The values that the rules put into a tree. -/
def Rules.values (rules : Rules) : List Value :=
  rules.replace.map Prod.snd ++ rules.push.toList ++ rules.insert.toList.map Prod.snd

theorem Rules.mem_values_of_replacement? {rules : Rules} {kind : Kind} {v : Value}
    (h : rules.replacement? kind = some v) : v ∈ rules.values := by
  obtain ⟨r, hr, rfl⟩ := Option.map_eq_some_iff.1 h
  have hmem : r ∈ rules.replace := List.mem_of_find?_eq_some hr
  exact List.mem_append_left _ (List.mem_append_left _ (List.mem_map_of_mem hmem))

theorem Rules.itemsEdited {rules : Rules} (h : ∀ v ∈ rules.values, v.Constructed)
    (items : List Value) : ItemsEdited items (rules.editItems items) := by
  have hpop : ItemsEdited items (if rules.pop then items.dropLast else items) := by
    split
    · exact .pop .none
    · exact .none
  unfold editItems
  cases hpush : rules.push with
  | none => rwa [Option.toList_none, List.append_nil]
  | some v =>
    refine .push hpop (h v ?_)
    exact List.mem_append_left _ (List.mem_append_right _ (by simp [hpush]))

theorem Rules.entriesEdited {rules : Rules} (h : ∀ v ∈ rules.values, v.Constructed)
    (es : List (Bytes × Value)) : EntriesEdited es (rules.editEntries es) := by
  unfold editEntries
  cases hinsert : rules.insert with
  | none =>
    cases rules.remove with
    | none => exact .none
    | some k => exact .remove .none k
  | some e =>
    have he : e.2.Constructed := h e.2 (List.mem_append_right _ (by simp [hinsert]))
    cases rules.remove with
    | none => exact .insert .none e.1 he
    | some k => exact .insert (.remove .none k) e.1 he

/-- Editors by rules edit by operations. -/
theorem Rules.byOperations {rules : Rules} (h : ∀ v ∈ rules.values, v.Constructed) :
    rules.editor.ByOperations where
  node v depth s _ := by
    dsimp only [Rules.editor]
    split
    · cases hr : rules.replacement? v.kind with
      | none => exact .none
      | some w => exact .assign (h w (mem_values_of_replacement? hr))
    · exact .none
  items items s _ := by
    dsimp only [Rules.editor]
    split
    · exact itemsEdited h items
    · exact .none
  entries es s _ := by
    dsimp only [Rules.editor]
    split
    · exact entriesEdited h es
    · exact .none

namespace DocumentStep

/-- The values that the step puts into the document. -/
def values : DocumentStep → List Value
  | .setRoot v => [v]
  | .build step => step.values
  | _ => []

end DocumentStep

theorem Value.sorted_of_document {limits : Limits} {c c' : Cursor} {v : Value}
    (h : Reader.document limits c = (.ok v, c')) : v.Sorted := by
  obtain ⟨⟨w, -, -, rfl, -⟩, -⟩ := Reader.document_eq_ok_iff.1 h
  exact sorted_settled w

namespace Document

/-- The documents that a new one can become: by the steps of scripts and by edits of the root, whatever
the lengths are that lists can grow to at each step. -/
inductive Reachable (limits : Limits) : Document → Prop
  | new : Reachable limits { limits }
  | step [Growth] {σ : Type} [Sink σ] {d : Document} (hd : Reachable limits d) (step : DocumentStep)
    (hstep : ∀ v ∈ step.values, v.Constructed) (s : σ) : Reachable limits (step.apply (d, s)).2.1
  | edit {d : Document} {v : Value} (hd : Reachable limits d)
    (hv : Edited (d.root?.getD .hole) v) : Reachable limits (d.setRoot v)

/-- The root, if there is one, is sorted. -/
def KeepsOrder (d : Document) : Prop := ∀ root, d.root? = some root → root.Sorted

variable {d : Document} {v : Value}

theorem keepsOrder_setRoot (hv : v.Sorted) : (d.setRoot v).KeepsOrder := by
  intro root hroot
  cases hroot
  exact hv

theorem KeepsOrder.getD_hole (hd : d.KeepsOrder) : (d.root?.getD .hole).Sorted := by
  cases hroot : d.root? with
  | none => trivial
  | some root => exact hd root hroot

theorem keepsOrder_read (d : Document) (input : Input) : (d.read input).2.2.KeepsOrder := by
  intro root hroot
  cases hread : Reader.document d.limits input.cursor with
  | mk result c =>
    have hresult : result.toOption = some root := by
      have h : (input.decode d.limits).1.toOption = some root := hroot
      rwa [Input.decode, Input.read, hread] at h
    cases result with
    | error e => cases hresult
    | ok v =>
      cases hresult
      exact sorted_of_document hread

theorem KeepsOrder.step [Growth] {σ : Type} [Sink σ] (hd : d.KeepsOrder) {step : DocumentStep}
    (hstep : ∀ v ∈ step.values, v.Sorted) (s : σ) : (step.apply (d, s)).2.1.KeepsOrder := by
  cases step with
  | read input => exact keepsOrder_read d input
  | setRoot v => exact keepsOrder_setRoot (hstep v List.mem_cons_self)
  | takeRoot =>
    intro root hroot
    cases hroot
  | look => exact keepsOrder_setRoot hd.getD_hole
  | build step => exact keepsOrder_setRoot (TreeStep.sorted_apply hstep hd.getD_hole)
  | _ => exact hd

theorem Reachable.keepsOrder {limits : Limits} (h : Reachable limits d) : d.KeepsOrder := by
  induction h with
  | new =>
    intro root hroot
    cases hroot
  | step _ step hstep s ih => exact ih.step (fun v hv => constructed_iff_sorted.1 (hstep v hv)) s
  | edit _ hv ih => exact keepsOrder_setRoot (hv.sorted ih.getD_hole)

/-- What a script makes of a reachable document is reachable. -/
theorem Reachable.final [Growth] {limits : Limits} {σ : Type} [Sink σ] (hd : Reachable limits d)
    (steps : List DocumentStep) (hsteps : ∀ step ∈ steps, ∀ v ∈ step.values, v.Constructed) (s : σ) :
    Reachable limits (Script.final DocumentStep.apply steps (d, s)).1 := by
  induction steps generalizing d s with
  | nil => exact hd
  | cons step steps ih =>
    obtain ⟨hstep, hsteps⟩ := List.forall_mem_cons.1 hsteps
    exact ih (hd.step step hstep s) hsteps _

end Document

namespace Value

/-- Keys increase in every dictionary of the tree, and what is written of it is read back as it was,
by every reading under strict keys that allows its depth and its byte strings. -/
structure Orderly (v : Value) : Prop where
  increasing : ∀ es, .dict es ∈ v.nodes → (Entries.keys es).Pairwise Bytes.Before
  nodup : ∀ es, .dict es ∈ v.nodes → (Entries.keys es).Nodup
  readBack : ∀ b, encode v = .ok b → (∀ s ∈ v.strings, s.length < 2 ^ 63) →
    ∀ maxDepth maxStringLength, v.depth ≤ maxDepth → (∀ s ∈ v.strings, s.length ≤ maxStringLength) →
      decode b ⟨maxDepth, maxStringLength, true⟩ = .ok v

theorem Sorted.orderly {v : Value} (hv : v.Sorted) : v.Orderly := by
  have hkeys (es : List (Bytes × Value)) (h : .dict es ∈ v.nodes) : Entries.Sorted es :=
    (sorted_dict.1 (hv.of_mem_nodes h)).1
  refine ⟨fun es h => (hkeys es h).imp Bytes.before_of_lt, fun es h => ?_, ?_⟩
  · exact (hkeys es h).imp Std.ne_of_lt
  intro b hb hlength maxDepth maxStringLength hdepth hstring
  obtain ⟨hfree, rfl⟩ := encode_eq_ok_iff.1 hb
  have hw : v.WellWritten true := ⟨hfree, fun _ => hv, hlength⟩
  exact decode_wire_of_within hw ⟨hdepth, hstring⟩

end Value

namespace Document

/-- Scripts and edits lead from a new document to reachable ones only. The tree of a reachable document
is orderly, and so is every tree that a walk with operations in its hooks makes of it. -/
theorem keys_increase_at_all_times (limits : Limits) :
    (∀ [Growth] (σ : Type) [Sink σ] (s : σ) (steps : List DocumentStep),
      (∀ step ∈ steps, ∀ v ∈ step.values, v.Constructed) →
        Reachable limits (Script.final DocumentStep.apply steps ({ limits }, s)).1) ∧
    ∀ d, Reachable limits d → ∀ root, d.root? = some root →
      root.Orderly ∧
      ∀ (σ : Type) (editor : Editor σ), editor.ByOperations →
        ∀ levels s root' s', editor.walk? levels root s = some (root', s') → root'.Orderly := by
  refine ⟨fun {_} σ _ s steps hsteps => Reachable.new.final steps hsteps s, ?_⟩
  intro d hd root hroot
  have hsorted : root.Sorted := hd.keepsOrder root hroot
  refine ⟨hsorted.orderly, fun σ editor heditor levels s root' s' hwalk => ?_⟩
  have hsorted' : root'.Sorted := heditor.sorted_walkWithin hwalk hsorted
  exact hsorted'.orderly

/-- The text `d1:bi1e1:ai2ee` is read without strict keys and a list is set at the key `ab`. Then a walk
puts an integer into the list and the key `aa` into the dictionary. -/
theorem keys_increase_at_all_times_edited :
    (Script.final DocumentStep.apply
        [.read { data := [100, 49, 58, 98, 105, 49, 101, 49, 58, 97, 105, 50, 101, 101] },
          .build (.set [.key [97, 98]] (.list []))] (⟨⟨4, 8, false⟩, none⟩, ([] : Bytes))).1 =
      ⟨⟨4, 8, false⟩,
        some (.dict [([97], .integer 2), ([97, 98], .list []), ([98], .integer 1)])⟩ ∧
    (Value.dict [([97], .integer 2), ([97, 98], .list []), ([98], .integer 1)]).Orderly ∧
    (Rules.run { push := some (.integer 7), insert := some ([97, 97], .bytes []) }
        (.dict [([97], .integer 2), ([97, 98], .list []), ([98], .integer 1)])).map Prod.fst =
      some (.dict [([97], .integer 2), ([97, 97], .bytes []), ([97, 98], .list [.integer 7]),
        ([98], .integer 1)]) ∧
    (Value.dict [([97], .integer 2), ([97, 97], .bytes []), ([97, 98], .list [.integer 7]),
      ([98], .integer 1)]).Orderly := by
  obtain ⟨hscript, htrees⟩ := keys_increase_at_all_times ⟨4, 8, false⟩
  have hfinal : (Script.final DocumentStep.apply
      [.read { data := [100, 49, 58, 98, 105, 49, 101, 49, 58, 97, 105, 50, 101, 101] },
        .build (.set [.key [97, 98]] (.list []))] (⟨⟨4, 8, false⟩, none⟩, ([] : Bytes))).1 =
      ⟨⟨4, 8, false⟩,
        some (.dict [([97], .integer 2), ([97, 98], .list []), ([98], .integer 1)])⟩ := by
    decide +kernel
  have hd : Reachable ⟨4, 8, false⟩ ⟨⟨4, 8, false⟩,
      some (.dict [([97], .integer 2), ([97, 98], .list []), ([98], .integer 1)])⟩ := by
    rw [← hfinal]
    have hlist : (Value.list []).Constructed := .list (List.forall_mem_nil _)
    exact hscript Bytes [] _ (by simp [DocumentStep.values, TreeStep.values, hlist])
  obtain ⟨hroot, hwalks⟩ := htrees _ hd _ rfl
  have hrules : ∀ v ∈ Rules.values
      { push := some (.integer 7), insert := some ([97, 97], .bytes []) }, v.Constructed := by
    simp [Rules.values, Constructed.integer, Constructed.bytes]
  exact ⟨hfinal, hroot, rfl, hwalks _ _ (Rules.byOperations hrules) 5 {} _ _ rfl⟩

end Document

end Bencode
