import Mathlib.Data.List.Forall2
import Bencode.Editor.Rules
import Bencode.Proofs.Preorder
import Bencode.Proofs.Walk.Editor
import Bencode.Proofs.Walk.Events

/-! # Where an editing walk stops

The hooks of an editor may rewrite the tree under the walk. However they do, the walk stops at the places of
the tree that it leaves behind, in their order and once at each: the hook for nodes of any kind is called
there, with the depth of the place, and at once the hook for the kind that the node has in the end. What a
hook puts into a container is come to like everything else that is left there; what it takes out is not.
-/
namespace Bencode

/-- A call of a hook: what the hook was shown, and what it left in its place. -/
inductive Call where
  | node (depth : Nat) (shown left : Value)
  | integer (shown left : Int64)
  | bytes (shown left : Bytes)
  | list (shown left : List Value)
  | dict (shown left : List (Bytes × Value))

namespace Call

/-- The call of the hook for the kind of a node. Holes have no such hook. -/
def forKind : (shown left : Value) → List Call
  | .integer n, .integer m => [.integer n m]
  | .bytes b, .bytes c => [.bytes b c]
  | .list vs, .list us => [.list vs us]
  | .dict es, .dict fs => [.dict es fs]
  | _, _ => []

/-- What a recorder notes of the call. -/
def event : Call → Event
  | .node depth shown _ => .node shown.kind depth
  | .integer n _ => .integer n
  | .bytes b _ => .bytes b
  | .list vs _ => .list vs.length
  | .dict es _ => .dict es.length

end Call

def Event.isKey : Event → Bool
  | .key _ => true
  | _ => false

/-- The node with a hole for each child. -/
def Value.outline : Value → Value
  | .list items => .list (items.map fun _ => .hole)
  | .dict entries => .dict (entries.map fun e => (e.1, .hole))
  | .integer n => .integer n
  | .bytes b => .bytes b
  | .hole => .hole

/-- A place of the tree when the walk comes by. -/
structure Stop where
  path : Path
  /-- What the hook for nodes of any kind is shown. -/
  shown : Value
  /-- What that hook leaves, and the hook for the kind is shown. -/
  taken : Value
  /-- What the hook for the kind leaves. -/
  left : Value

namespace Stop

/-- The calls at a stop, where the tree itself has the given depth. -/
def calls (depth : Nat) (stop : Stop) : List Call :=
  .node (depth + stop.path.length) stop.shown stop.taken :: Call.forKind stop.taken stop.left

/-- The stop is where the node ends up. The node has the kind that the first hook left, and what the
second one left but for the children, which the walk has not come to yet. -/
structure EndsAt (stop : Stop) (place : Path × Value) : Prop where
  path : stop.path = place.1
  kind : stop.taken.kind = place.2.kind
  outline : stop.left.outline = place.2.outline

/-- A stop in a child, as a stop in the node it belongs to. -/
def under (s : Segment) (stop : Stop) : Stop := { stop with path := s :: stop.path }

/-- The stop at the tree itself is shown the tree. Every other stop is shown what the stop above it left
there. -/
def HandedDown (v : Value) (stops : List Stop) : Prop :=
  ∀ b ∈ stops, (b.path = [] ∧ b.shown = v) ∨
    ∃ a ∈ stops, ∃ s, b.path = a.path ++ [s] ∧ a.left.child? s = some b.shown

theorem calls_under (depth : Nat) (s : Segment) (stop : Stop) :
    (stop.under s).calls depth = stop.calls (depth + 1) := by
  rw [calls, calls, under, List.length_cons, Nat.add_right_comm, Nat.add_assoc]

theorem flatMap_calls_under (depth : Nat) (s : Segment) (stops : List Stop) :
    (stops.map (under s)).flatMap (calls depth) = stops.flatMap (calls (depth + 1)) := by
  rw [List.flatMap_map]
  exact congrArg (stops.flatMap ·) (funext (calls_under depth s))

theorem EndsAt.under {stop : Stop} {place : Path × Value} (h : stop.EndsAt place) (s : Segment) :
    (stop.under s).EndsAt (s :: place.1, place.2) :=
  ⟨congrArg (s :: ·) h.path, h.kind, h.outline⟩

end Stop

open Value Stop

/-- Shown the tree `v` and leaving the tree `w`, a walk makes these stops. -/
structure Traces (v : Value) (stops : List Stop) (w : Value) : Prop where
  ends : List.Forall₂ EndsAt stops w.preorder
  handed : w.Sorted → HandedDown v stops

/-- The stops in the children of one node. -/
structure TracesAll (cs : List (Segment × Value)) (stops : List Stop)
    (ds : List (Segment × Value)) : Prop where
  ends : List.Forall₂ EndsAt stops (ds.flatMap fun d => Bencode.under d.1 d.2.preorder)
  handed : (∀ d ∈ ds, d.2.Sorted) → ∀ b ∈ stops, (∃ c ∈ cs, b.path = [c.1] ∧ b.shown = c.2) ∨
    ∃ a ∈ stops, ∃ s, b.path = a.path ++ [s] ∧ a.left.child? s = some b.shown

theorem TracesAll.nil : TracesAll [] [] [] where
  ends := .nil
  handed _ := List.forall_mem_nil _

theorem TracesAll.cons {v w : Value} {stops more : List Stop} {cs ds : List (Segment × Value)}
    (h : Traces v stops w) (hmore : TracesAll cs more ds) (s : Segment) :
    TracesAll ((s, v) :: cs) (stops.map (Stop.under s) ++ more) ((s, w) :: ds) where
  ends := by
    refine List.rel_append (List.forall₂_map_left_iff.2 (List.forall₂_map_right_iff.2 ?_))
      hmore.ends
    exact h.ends.imp fun _ _ hends => hends.under s
  handed hsorted b hb := by
    obtain ⟨hw, hds⟩ := List.forall_mem_cons.1 hsorted
    rcases List.mem_append.1 hb with hb | hb
    · obtain ⟨b, hstop, rfl⟩ := List.mem_map.1 hb
      rcases h.handed hw b hstop with ⟨hpath, hshown⟩ | ⟨a, ha, t, hpath, hshown⟩
      · exact .inl ⟨(s, v), List.mem_cons_self, congrArg (s :: ·) hpath, hshown⟩
      · exact .inr ⟨a.under s, List.mem_append_left _ (List.mem_map_of_mem ha), t,
          congrArg (s :: ·) hpath, hshown⟩
    · rcases hmore.handed hds b hb with ⟨c, hc, h⟩ | ⟨a, ha, h⟩
      · exact .inl ⟨c, List.mem_cons_of_mem _ hc, h⟩
      · exact .inr ⟨a, List.mem_append_right _ ha, h⟩

theorem outline_dict_congr {es fs : List (Bytes × Value)}
    (h : Entries.keys es = Entries.keys fs) : (dict es).outline = (dict fs).outline := by
  have hmap := congrArg (List.map fun k => (k, hole)) h
  rw [Entries.keys, Entries.keys, List.map_map, List.map_map] at hmap
  exact congrArg dict hmap

theorem sorted_of_outline_eq {u w : Value} (h : u.outline = w.outline) (hw : w.Sorted)
    (es : List (Bytes × Value)) (hu : u = .dict es) : Entries.Sorted es := by
  subst hu
  cases w with
  | dict fs =>
    have hkeys : Entries.keys es = Entries.keys fs := by
      have h := congrArg (List.map Prod.fst) (Value.dict.inj h)
      rwa [List.map_map, List.map_map] at h
    rw [Entries.Sorted, hkeys]
    exact (sorted_dict.1 hw).1
  | _ => cases h

/-- The stop at a node goes in front of those in its children. -/
theorem Traces.node {v t u w : Value} {stops : List Stop} (hkind : t.kind = w.kind)
    (houtline : u.outline = w.outline) (h : TracesAll u.children stops w.children) :
    Traces v (⟨[], v, t, u⟩ :: stops) w where
  ends := by
    rw [preorder_eq_cons]
    exact .cons ⟨rfl, hkind, houtline⟩ h.ends
  handed hw b hb := by
    rcases List.mem_cons.1 hb with rfl | hb
    · exact .inl ⟨rfl, rfl⟩
    refine .inr ?_
    have hchildren : ∀ d ∈ w.children, d.2.Sorted := fun d hd => hw.child? ((mem_children_iff hw).1 hd)
    rcases h.handed hchildren b hb with ⟨c, hc, hpath, hshown⟩ | ⟨a, ha, h⟩
    · refine ⟨_, List.mem_cons_self, c.1, hpath, ?_⟩
      rw [hshown]
      exact child?_of_mem_children (sorted_of_outline_eq houtline hw) hc
    · exact ⟨a, List.mem_cons_of_mem _ ha, h⟩

namespace Editor

variable {σ : Type}

/-- The same editor, which also writes down every call. -/
def logged (editor : Editor σ) : Editor (σ × List Call) where
  onNode v depth s :=
    let r := editor.onNode v depth s.1
    (r.1, r.2, s.2 ++ [.node depth v r.1])
  onInteger n s :=
    let r := editor.onInteger n s.1
    (r.1, r.2, s.2 ++ [.integer n r.1])
  onBytes b s :=
    let r := editor.onBytes b s.1
    (r.1, r.2, s.2 ++ [.bytes b r.1])
  onList items s :=
    let r := editor.onList items s.1
    (r.1, r.2, s.2 ++ [.list items r.1])
  onDict entries s :=
    let r := editor.onDict entries s.1
    (r.1, r.2, s.2 ++ [.dict entries r.1])

/-- With the log, a walk goes as it went without, and what it adds to the log are the calls of its stops. -/
def Logs (depth : Nat) (edit : Value → σ → Option (Value × σ))
    (edit' : Value → σ × List Call → Option (Value × σ × List Call)) : Prop :=
  ∀ v s w s', edit v s = some (w, s') → ∀ log, ∃ stops,
    edit' v (s, log) = some (w, s', log ++ stops.flatMap (calls depth)) ∧ Traces v stops w

variable {depth : Nat} {edit : Value → σ → Option (Value × σ)}
  {edit' : Value → σ × List Call → Option (Value × σ × List Call)}

theorem Logs.throughItems (hedit : Logs (depth + 1) edit edit') {vs ws : List Value} {s s' : σ}
    (h : throughItems edit vs s = some (ws, s')) (i : Nat) (log : List Call) : ∃ stops,
    Editor.throughItems edit' vs (s, log) = some (ws, s', log ++ stops.flatMap (calls depth)) ∧
      vs.length = ws.length ∧ TracesAll (itemsFrom i vs) stops (itemsFrom i ws) := by
  induction vs generalizing ws s i log with
  | nil =>
    cases h
    exact ⟨[], by rw [List.flatMap_nil, List.append_nil]; rfl, rfl, .nil⟩
  | cons v vs ih =>
    obtain ⟨w, s₁, us, hw, hus, rfl⟩ := throughItems_cons_eq_some.1 h
    obtain ⟨stops, hw, hstops⟩ := hedit _ _ _ _ hw log
    obtain ⟨more, hus, hlength, hmore⟩ := ih hus (i + 1) (log ++ stops.flatMap (calls (depth + 1)))
    refine ⟨stops.map (Stop.under (.index i)) ++ more, ?_, congrArg (· + 1) hlength,
      .cons hstops hmore (.index i)⟩
    refine throughItems_cons_eq_some.2 ⟨w, _, us, hw, ?_, rfl⟩
    rw [hus, List.flatMap_append, flatMap_calls_under, List.append_assoc]

theorem Logs.throughEntries (hedit : Logs (depth + 1) edit edit')
    {es fs : List (Bytes × Value)} {s s' : σ} (h : throughEntries edit es s = some (fs, s'))
    (log : List Call) : ∃ stops,
    Editor.throughEntries edit' es (s, log) = some (fs, s', log ++ stops.flatMap (calls depth)) ∧
      Entries.keys es = Entries.keys fs ∧
      TracesAll (Value.dict es).children stops (Value.dict fs).children := by
  induction es generalizing fs s log with
  | nil =>
    cases h
    exact ⟨[], by rw [List.flatMap_nil, List.append_nil]; rfl, rfl, .nil⟩
  | cons e es ih =>
    obtain ⟨k, v⟩ := e
    obtain ⟨w, s₁, gs, hw, hgs, rfl⟩ := throughEntries_cons_eq_some.1 h
    obtain ⟨stops, hw, hstops⟩ := hedit _ _ _ _ hw log
    obtain ⟨more, hgs, hkeys, hmore⟩ := ih hgs (log ++ stops.flatMap (calls (depth + 1)))
    refine ⟨stops.map (Stop.under (.key k)) ++ more, ?_, congrArg (k :: ·) hkeys,
      .cons hstops hmore (.key k)⟩
    refine throughEntries_cons_eq_some.2 ⟨w, _, gs, hw, ?_, rfl⟩
    rw [hgs, List.flatMap_append, flatMap_calls_under, List.append_assoc]

theorem logged_onNode {editor : Editor σ} {v u : Value} {s s₁ : σ}
    (h : editor.onNode v depth s = (u, s₁)) (log : List Call) :
    editor.logged.onNode v depth (s, log) = (u, s₁, log ++ [.node depth v u]) := by
  simp only [logged, h]

theorem logged_onList (editor : Editor σ) (vs : List Value) (s : σ) (log : List Call) :
    editor.logged.onList vs (s, log) =
      ((editor.onList vs s).1, (editor.onList vs s).2,
        log ++ [.list vs (editor.onList vs s).1]) :=
  rfl

theorem logged_onDict (editor : Editor σ) (es : List (Bytes × Value)) (s : σ) (log : List Call) :
    editor.logged.onDict es (s, log) =
      ((editor.onDict es s).1, (editor.onDict es s).2,
        log ++ [.dict es (editor.onDict es s).1]) :=
  rfl

/-- By induction on the levels, with the log and the state at the node generalised. -/
theorem logs_walkWithin (editor : Editor σ) (levels depth : Nat) :
    Logs depth (editor.walkWithin levels depth) (editor.logged.walkWithin levels depth) := by
  induction levels generalizing depth with
  | zero =>
    intro v s w s' h
    cases h
  | succ levels ih =>
    intro v s w s' h log
    obtain ⟨u, s₁, hon⟩ : ∃ u s₁, editor.onNode v depth s = (u, s₁) := ⟨_, _, rfl⟩
    have hlogged := logged_onNode hon log
    cases u with
    | integer n =>
      rw [walkWithin_of_integer hon] at h
      cases h
      refine ⟨[⟨[], v, .integer n, .integer (editor.onInteger n s₁).1⟩], ?_, .node rfl rfl .nil⟩
      rw [walkWithin_of_integer hlogged]
      simp [logged, calls, Call.forKind]
    | bytes b =>
      rw [walkWithin_of_bytes hon] at h
      cases h
      refine ⟨[⟨[], v, .bytes b, .bytes (editor.onBytes b s₁).1⟩], ?_, .node rfl rfl .nil⟩
      rw [walkWithin_of_bytes hlogged]
      simp [logged, calls, Call.forKind]
    | list vs =>
      rw [walkWithin_of_list hon] at h
      obtain ⟨⟨ws, s₂⟩, hws, heq⟩ := Option.map_eq_some_iff.1 h
      cases heq
      obtain ⟨stops, hws, hlength, hstops⟩ := (ih (depth + 1)).throughItems hws 0
        (log ++ [.node depth v (.list vs)] ++ [.list vs (editor.onList vs s₁).1])
      refine ⟨⟨[], v, .list vs, .list (editor.onList vs s₁).1⟩ :: stops, ?_, .node rfl ?_ hstops⟩
      · rw [walkWithin_of_list hlogged, logged_onList, hws]
        simp [calls, Call.forKind]
      · rw [outline, outline, List.map_const', List.map_const', hlength]
    | dict es =>
      rw [walkWithin_of_dict hon] at h
      obtain ⟨⟨fs, s₂⟩, hfs, heq⟩ := Option.map_eq_some_iff.1 h
      cases heq
      obtain ⟨stops, hfs, hkeys, hstops⟩ := (ih (depth + 1)).throughEntries hfs
        (log ++ [.node depth v (.dict es)] ++ [.dict es (editor.onDict es s₁).1])
      refine ⟨⟨[], v, .dict es, .dict (editor.onDict es s₁).1⟩ :: stops, ?_, .node rfl ?_ hstops⟩
      · rw [walkWithin_of_dict hlogged, logged_onDict, hfs]
        simp [calls, Call.forKind]
      · exact outline_dict_congr hkeys
    | hole =>
      rw [walkWithin_of_hole hon] at h
      cases h
      refine ⟨[⟨[], v, .hole, .hole⟩], ?_, .node rfl rfl .nil⟩
      rw [walkWithin_of_hole hlogged]
      simp [calls, Call.forKind]

/-- The hooks leave what they are shown. They may still change the state. -/
structure EditsNothing (editor : Editor σ) : Prop where
  node : ∀ v depth s, (editor.onNode v depth s).1 = v
  integer : ∀ n s, (editor.onInteger n s).1 = n
  bytes : ∀ b s, (editor.onBytes b s).1 = b
  list : ∀ items s, (editor.onList items s).1 = items
  dict : ∀ entries s, (editor.onDict entries s).1 = entries

/-- The visitor with the effects of the editor's hooks on the state; keys mean nothing to it. -/
def watcher (editor : Editor σ) : Visitor σ where
  onNode v depth s := (editor.onNode v depth s).2
  onInteger n s := (editor.onInteger n s).2
  onBytes b s := (editor.onBytes b s).2
  onList items s := (editor.onList items s).2
  onDict entries s := (editor.onDict entries s).2

variable {editor : Editor σ}

theorem EditsNothing.logged (h : editor.EditsNothing) : editor.logged.EditsNothing where
  node v depth s := h.node v depth s.1
  integer n s := h.integer n s.1
  bytes b s := h.bytes b s.1
  list items s := h.list items s.1
  dict entries s := h.dict entries s.1

theorem throughItems_eq_walkItems {visitor : Visitor σ} {vs : List Value}
    (h : ∀ v ∈ vs, ∀ s, edit v s = some (v, visitor.walkAt depth v s)) (s : σ) :
    throughItems edit vs s = some (vs, visitor.walkItems depth vs s) := by
  induction vs generalizing s with
  | nil => rfl
  | cons v vs ih =>
    obtain ⟨hv, hvs⟩ := List.forall_mem_cons.1 h
    exact throughItems_cons_eq_some.2 ⟨v, _, vs, hv s, ih hvs _, rfl⟩

theorem throughEntries_eq_walkEntries {visitor : Visitor σ}
    (hkey : ∀ k s, visitor.onKey k s = s) {es : List (Bytes × Value)}
    (h : ∀ e ∈ es, ∀ s, edit e.2 s = some (e.2, visitor.walkAt depth e.2 s)) (s : σ) :
    throughEntries edit es s = some (es, visitor.walkEntries depth es s) := by
  induction es generalizing s with
  | nil => rfl
  | cons e es ih =>
    obtain ⟨k, v⟩ := e
    obtain ⟨he, hes⟩ := List.forall_mem_cons.1 h
    rw [Visitor.walkEntries, hkey]
    exact throughEntries_cons_eq_some.2 ⟨v, _, es, he s, ih hes _, rfl⟩

theorem EditsNothing.onNode (h : editor.EditsNothing) (v : Value) (depth : Nat) (s : σ) :
    editor.onNode v depth s = (v, editor.watcher.onNode v depth s) :=
  Prod.ext (h.node v depth s) rfl

theorem EditsNothing.walkWithin (h : editor.EditsNothing) {levels : Nat} {v : Value}
    (hlevels : v.depth ≤ levels) (depth : Nat) (s : σ) :
    editor.walkWithin levels depth v s = some (v, editor.watcher.walkAt depth v s) := by
  induction levels generalizing v depth s with
  | zero => exact absurd (depth_pos v) (Nat.not_lt.2 hlevels)
  | succ levels ih =>
    have hon := h.onNode v depth s
    cases v with
    | integer n => rw [walkWithin_of_integer hon, h.integer, Visitor.walkAt, watcher]
    | bytes b => rw [walkWithin_of_bytes hon, h.bytes, Visitor.walkAt, watcher]
    | list vs =>
      have hvs := depthItems_le_iff.1 (Nat.le_of_succ_le_succ hlevels)
      rw [walkWithin_of_list hon, h.list,
        throughItems_eq_walkItems fun v hv => ih (hvs v hv) (depth + 1), Visitor.walkAt]
      rfl
    | dict es =>
      have hes := depthEntries_le_iff.1 (Nat.le_of_succ_le_succ hlevels)
      rw [walkWithin_of_dict hon, h.dict,
        throughEntries_eq_walkEntries (fun _ _ => rfl) fun e he => ih (hes e he) (depth + 1),
        Visitor.walkAt]
      rfl
    | hole => rw [walkWithin_of_hole hon, Visitor.walkAt]

/-- A visitor that watches notes of a tree what a recorder notes, but for the keys. -/
def Notes (editor : Editor σ) (depth : Nat) (v : Value) : Prop :=
  ∀ s log, ∃ more,
    editor.logged.watcher.walkAt depth v (s, log) =
      (editor.watcher.walkAt depth v s, log ++ more) ∧
    more.map Call.event = (v.eventsAt depth).filter fun e => !e.isKey

theorem exists_walkItems_logged {vs : List Value} (h : ∀ v ∈ vs, editor.Notes depth v) (s : σ)
    (log : List Call) : ∃ more,
    editor.logged.watcher.walkItems depth vs (s, log) =
      (editor.watcher.walkItems depth vs s, log ++ more) ∧
    more.map Call.event = (eventsItems depth vs).filter fun e => !e.isKey := by
  induction vs generalizing s log with
  | nil => exact ⟨[], by rw [List.append_nil]; rfl, rfl⟩
  | cons v vs ih =>
    obtain ⟨hv, hvs⟩ := List.forall_mem_cons.1 h
    obtain ⟨more, hwalk, hmore⟩ := hv s log
    obtain ⟨rest, hwalks, hrest⟩ := ih hvs (editor.watcher.walkAt depth v s) (log ++ more)
    refine ⟨more ++ rest, ?_, ?_⟩
    · rw [Visitor.walkItems, hwalk, hwalks, List.append_assoc, Visitor.walkItems]
    · rw [List.map_append, hmore, hrest, eventsItems, List.filter_append]

theorem exists_walkEntries_logged {es : List (Bytes × Value)} (h : ∀ e ∈ es, editor.Notes depth e.2) (s : σ)
    (log : List Call) : ∃ more,
    editor.logged.watcher.walkEntries depth es (s, log) =
      (editor.watcher.walkEntries depth es s, log ++ more) ∧
    more.map Call.event = (eventsEntries depth es).filter fun e => !e.isKey := by
  induction es generalizing s log with
  | nil => exact ⟨[], by rw [List.append_nil]; rfl, rfl⟩
  | cons e es ih =>
    obtain ⟨k, v⟩ := e
    obtain ⟨he, hes⟩ := List.forall_mem_cons.1 h
    have hkey {τ : Type} (editor : Editor τ) (s : τ) : editor.watcher.onKey k s = s := rfl
    obtain ⟨more, hwalk, hmore⟩ := he s log
    obtain ⟨rest, hwalks, hrest⟩ := ih hes (editor.watcher.walkAt depth v s) (log ++ more)
    refine ⟨more ++ rest, ?_, ?_⟩
    · rw [Visitor.walkEntries, hkey, hwalk, hwalks, List.append_assoc, Visitor.walkEntries, hkey]
    · rw [List.map_append, hmore, hrest, eventsEntries, List.filter_cons, List.filter_append]
      rfl

theorem exists_walkAt_logged (editor : Editor σ) (v : Value) (depth : Nat) : editor.Notes depth v := by
  induction v generalizing depth with
  | integer n =>
    intro s log
    let r := editor.onNode (.integer n) depth s
    refine ⟨[.node depth (.integer n) r.1, .integer n (editor.onInteger n r.2).1], ?_, rfl⟩
    rw [Visitor.walkAt, Visitor.walkAt]
    simp [watcher, Editor.logged, r]
  | bytes b =>
    intro s log
    let r := editor.onNode (.bytes b) depth s
    refine ⟨[.node depth (.bytes b) r.1, .bytes b (editor.onBytes b r.2).1], ?_, rfl⟩
    rw [Visitor.walkAt, Visitor.walkAt]
    simp [watcher, Editor.logged, r]
  | list vs ih =>
    intro s log
    let r := editor.onNode (.list vs) depth s
    obtain ⟨more, hwalk, hmore⟩ := exists_walkItems_logged (fun v hv => ih v hv (depth + 1))
      (editor.onList vs r.2).2
      (log ++ [.node depth (.list vs) r.1] ++ [.list vs (editor.onList vs r.2).1])
    refine ⟨.node depth (.list vs) r.1 :: .list vs (editor.onList vs r.2).1 :: more, ?_, ?_⟩
    · rw [Visitor.walkAt, Visitor.walkAt]
      refine hwalk.trans ?_
      rw [List.append_assoc, List.append_assoc]
      rfl
    · rw [List.map_cons, List.map_cons, hmore]
      rfl
  | dict es ih =>
    intro s log
    let r := editor.onNode (.dict es) depth s
    obtain ⟨more, hwalk, hmore⟩ := exists_walkEntries_logged (fun e he => ih e he (depth + 1))
      (editor.onDict es r.2).2
      (log ++ [.node depth (.dict es) r.1] ++ [.dict es (editor.onDict es r.2).1])
    refine ⟨.node depth (.dict es) r.1 :: .dict es (editor.onDict es r.2).1 :: more, ?_, ?_⟩
    · rw [Visitor.walkAt, Visitor.walkAt]
      refine hwalk.trans ?_
      rw [List.append_assoc, List.append_assoc]
      rfl
    · rw [List.map_cons, List.map_cons, hmore]
      rfl
  | hole =>
    intro s log
    refine ⟨[.node depth .hole (editor.onNode .hole depth s).1], ?_, rfl⟩
    rw [Visitor.walkAt, Visitor.walkAt]
    rfl

/-- Of a walk that ends there is one stop at each place of the tree that it leaves, in their order. Where the
keys of that tree are sorted, these places are the ends of its paths, each one in front of those below it
and of its later siblings, and every node was handed down to its stop by the stop above.

An editor that edits nothing comes to an end with the tree as it was, and calls what a visitor calls. -/
theorem walk_stops_at_what_it_leaves (editor : Editor σ) (v : Value) (s : σ) :
    (∀ levels w s', editor.walk? levels v s = some (w, s') →
      (∀ more, levels ≤ more → editor.walk? more v s = some (w, s')) ∧
      ∃ stops : List Stop,
        editor.logged.walk? levels v (s, []) = some (w, s', stops.flatMap (calls 1)) ∧
        List.Forall₂ EndsAt stops w.preorder ∧
        (w.Sorted →
          (∀ p x, (p, x) ∈ w.preorder ↔ w.follow? p = some x) ∧
          w.preorder.Pairwise (fun a b => Path.Precedes a.1 b.1) ∧ HandedDown v stops)) ∧
    (editor.EditsNothing → ∀ levels, v.depth ≤ levels →
      editor.walk? levels v s = some (v, editor.watcher.walk v s) ∧
      ∃ log, editor.logged.walk? levels v (s, []) = some (v, editor.watcher.walk v s, log) ∧
        log.map Call.event = v.events.filter fun e => !e.isKey) := by
  refine ⟨fun levels w s' h => ⟨fun more hmore => walk?_of_le hmore h, ?_⟩,
    fun h levels hlevels => ⟨h.walkWithin hlevels 1 s, ?_⟩⟩
  · obtain ⟨stops, hwalk, hstops⟩ := logs_walkWithin editor levels 1 v s w s' h []
    refine ⟨stops, hwalk, hstops.ends, fun hw => ⟨fun p x => mem_preorder_iff hw, ?_, ?_⟩⟩
    · exact pairwise_precedes_preorder hw
    · exact hstops.handed hw
  · obtain ⟨log, hwalk, hlog⟩ := exists_walkAt_logged editor v 1 s []
    refine ⟨log, ?_, by rw [hlog, events_eq_eventsAt]⟩
    rw [walk?, h.logged.walkWithin hlevels, hwalk]
    rfl

/-- The last item of a list is taken out and another list put in before the walk goes on. -/
theorem walk_stops_at_what_it_leaves_pushed :
    ∃ s' stops,
      (Rules.editor { lastDepth := 1, pop := true, push := some (.list [.hole]), add := 1 }).logged.walk?
          3 (.list [.integer 1, .bytes [97]]) ({}, []) =
        some (.list [.integer 2, .list [.hole]], s', stops.flatMap (calls 1)) ∧
      List.Forall₂ EndsAt stops [([], .list [.integer 2, .list [.hole]]), ([.index 0], .integer 2),
        ([.index 1], .list [.hole]), ([.index 1, .index 0], .hole)] ∧
      HandedDown (.list [.integer 1, .bytes [97]]) stops := by
  have hsorted : (Value.list [.integer 2, .list [.hole]]).Sorted := by
    simp [Value.Sorted, Value.SortedItems]
  obtain ⟨hwalk, -⟩ := walk_stops_at_what_it_leaves
    (Rules.editor { lastDepth := 1, pop := true, push := some (.list [.hole]), add := 1 })
    (.list [.integer 1, .bytes [97]]) {}
  obtain ⟨-, stops, hlog, hends, hplaces⟩ := hwalk 3 (.list [.integer 2, .list [.hole]]) _ rfl
  exact ⟨_, stops, hlog, hends, (hplaces hsorted).2.2⟩

end Editor

end Bencode
