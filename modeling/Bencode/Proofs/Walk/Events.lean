import Bencode.Visitor
import Bencode.Proofs.Value

/-! # What a walk tells about its tree

The calls of a walk carry no mark for the end of a container. The lengths that come with lists and
dictionaries make up for it: from a text of calls that begins with those of a tree, the tree and the calls
that follow can be told. So a walk tells its tree in full, and no walk is the beginning of another.
-/
namespace Bencode

namespace Value

mutual

/-- The calls of a walk that comes to the tree at the given depth. -/
def eventsAt (depth : Nat) : Value → List Event
  | .integer n => [.node .integer depth, .integer n]
  | .bytes b => [.node .bytes depth, .bytes b]
  | .list items => .node .list depth :: .list items.length :: eventsItems (depth + 1) items
  | .dict entries => .node .dict depth :: .dict entries.length :: eventsEntries (depth + 1) entries
  | .hole => [.node .hole depth]

def eventsItems (depth : Nat) : List Value → List Event
  | [] => []
  | v :: vs => v.eventsAt depth ++ eventsItems depth vs

def eventsEntries (depth : Nat) : List (Bytes × Value) → List Event
  | [] => []
  | (k, v) :: es => .key k :: (v.eventsAt depth ++ eventsEntries depth es)

end

end Value

namespace Visitor

variable {depth : Nat}

theorem recorder_walkItems {vs : List Value}
    (h : ∀ v ∈ vs, ∀ log, recorder.walkAt depth v log = log ++ v.eventsAt depth)
    (log : List Event) :
    recorder.walkItems depth vs log = log ++ Value.eventsItems depth vs := by
  induction vs generalizing log with
  | nil => rw [walkItems, Value.eventsItems, List.append_nil]
  | cons v vs ih =>
    obtain ⟨hv, hvs⟩ := List.forall_mem_cons.1 h
    rw [walkItems, hv, ih hvs, Value.eventsItems, List.append_assoc]

theorem recorder_walkEntries {es : List (Bytes × Value)}
    (h : ∀ e ∈ es, ∀ log, recorder.walkAt depth e.2 log = log ++ e.2.eventsAt depth)
    (log : List Event) :
    recorder.walkEntries depth es log = log ++ Value.eventsEntries depth es := by
  induction es generalizing log with
  | nil => rw [walkEntries, Value.eventsEntries, List.append_nil]
  | cons e es ih =>
    obtain ⟨k, v⟩ := e
    obtain ⟨he, hes⟩ := List.forall_mem_cons.1 h
    rw [walkEntries, he, ih hes, Value.eventsEntries]
    simp [recorder]

/-- The recorder adds the calls of the walk to those it has. -/
theorem recorder_walkAt (v : Value) (depth : Nat) (log : List Event) :
    recorder.walkAt depth v log = log ++ v.eventsAt depth := by
  induction v generalizing depth log with
  | list items ih =>
    rw [walkAt, recorder_walkItems fun v hv => ih v hv (depth + 1), Value.eventsAt]
    simp [recorder, Value.kind]
  | dict entries ih =>
    rw [walkAt, recorder_walkEntries fun e he => ih e he (depth + 1), Value.eventsAt]
    simp [recorder, Value.kind]
  | _ => simp [walkAt, Value.eventsAt, recorder, Value.kind]

end Visitor

namespace Value

theorem events_eq_eventsAt (v : Value) : v.events = v.eventsAt 1 := by
  rw [events, Visitor.walk, Visitor.recorder_walkAt, List.nil_append]

/-- A walk begins with the kind of its tree. -/
theorem exists_eventsAt_eq_cons (v : Value) (depth : Nat) :
    ∃ more, v.eventsAt depth = .node v.kind depth :: more := by
  cases v <;> exact ⟨_, rfl⟩

theorem kind_eq_of_eventsAt {a b : Value} {depth : Nat} {r s : List Event}
    (h : a.eventsAt depth ++ r = b.eventsAt depth ++ s) : a.kind = b.kind := by
  obtain ⟨as, ha⟩ := exists_eventsAt_eq_cons a depth
  obtain ⟨bs, hb⟩ := exists_eventsAt_eq_cons b depth
  rw [ha, hb, List.cons_append, List.cons_append, List.cons.injEq] at h
  exact (Event.node.inj h.1).1

/-- The tree and the calls that follow are determined by the calls together. -/
def Told (a : Value) : Prop :=
  ∀ {b : Value} {depth : Nat} {r s : List Event},
    a.eventsAt depth ++ r = b.eventsAt depth ++ s → a = b ∧ r = s

/-- Lists of one length can be told apart; the calls alone do not say where a list ends. -/
theorem eventsItems_append_inj {vs us : List Value} {depth : Nat} {r s : List Event}
    (hvs : ∀ v ∈ vs, Told v) (hlength : vs.length = us.length)
    (h : eventsItems depth vs ++ r = eventsItems depth us ++ s) : vs = us ∧ r = s := by
  induction vs generalizing us with
  | nil =>
    cases us with
    | nil => exact ⟨rfl, h⟩
    | cons u us => cases hlength
  | cons v vs ih =>
    cases us with
    | nil => cases hlength
    | cons u us =>
      obtain ⟨hv, hvs⟩ := List.forall_mem_cons.1 hvs
      rw [eventsItems, eventsItems, List.append_assoc, List.append_assoc] at h
      obtain ⟨rfl, hmore⟩ := hv h
      obtain ⟨rfl, hrest⟩ := ih hvs (Nat.succ.inj hlength) hmore
      exact ⟨rfl, hrest⟩

theorem eventsEntries_append_inj {es fs : List (Bytes × Value)} {depth : Nat} {r s : List Event}
    (hes : ∀ e ∈ es, Told e.2) (hlength : es.length = fs.length)
    (h : eventsEntries depth es ++ r = eventsEntries depth fs ++ s) : es = fs ∧ r = s := by
  induction es generalizing fs with
  | nil =>
    cases fs with
    | nil => exact ⟨rfl, h⟩
    | cons f fs => cases hlength
  | cons e es ih =>
    cases fs with
    | nil => cases hlength
    | cons f fs =>
      obtain ⟨k, v⟩ := e
      obtain ⟨l, u⟩ := f
      obtain ⟨he, hes⟩ := List.forall_mem_cons.1 hes
      rw [eventsEntries, eventsEntries, List.cons_append, List.cons_append, List.append_assoc,
        List.append_assoc, List.cons.injEq, Event.key.injEq] at h
      obtain ⟨rfl, htree⟩ := h
      obtain ⟨rfl, hmore⟩ := he htree
      obtain ⟨rfl, hrest⟩ := ih hes (Nat.succ.inj hlength) hmore
      exact ⟨rfl, hrest⟩

theorem eventsAt_append_inj (a : Value) : Told a := by
  induction a with
  | integer n =>
    intro b depth r s h
    have hkind := kind_eq_of_eventsAt h
    cases b with
    | integer m =>
      simp only [eventsAt, List.cons_append, List.nil_append, List.cons.injEq, Event.integer.injEq,
        true_and] at h
      exact ⟨congrArg _ h.1, h.2⟩
    | _ => cases hkind
  | bytes x =>
    intro b depth r s h
    have hkind := kind_eq_of_eventsAt h
    cases b with
    | bytes y =>
      simp only [eventsAt, List.cons_append, List.nil_append, List.cons.injEq, Event.bytes.injEq,
        true_and] at h
      exact ⟨congrArg _ h.1, h.2⟩
    | _ => cases hkind
  | list vs ih =>
    intro b depth r s h
    have hkind := kind_eq_of_eventsAt h
    cases b with
    | list us =>
      simp only [eventsAt, List.cons_append, List.cons.injEq, Event.list.injEq, true_and] at h
      obtain ⟨hvs, hrest⟩ := eventsItems_append_inj ih h.1 h.2
      exact ⟨congrArg _ hvs, hrest⟩
    | _ => cases hkind
  | dict es ih =>
    intro b depth r s h
    have hkind := kind_eq_of_eventsAt h
    cases b with
    | dict fs =>
      simp only [eventsAt, List.cons_append, List.cons.injEq, Event.dict.injEq, true_and] at h
      obtain ⟨hes, hrest⟩ := eventsEntries_append_inj ih h.1 h.2
      exact ⟨congrArg _ hes, hrest⟩
    | _ => cases hkind
  | hole =>
    intro b depth r s h
    have hkind := kind_eq_of_eventsAt h
    cases b with
    | hole =>
      simp only [eventsAt, List.cons_append, List.nil_append, List.cons.injEq, true_and] at h
      exact ⟨rfl, h⟩
    | _ => cases hkind

/-- Walks with the same calls are walks over the same tree, and the calls of one walk never go on to be
those of another. -/
theorem walk_tells_its_tree (a b : Value) :
    (a.events = b.events ↔ a = b) ∧ (a.events <+: b.events ↔ a = b) := by
  have hprefix (h : a.events <+: b.events) : a = b := by
    obtain ⟨rest, h⟩ := h
    rw [events_eq_eventsAt, events_eq_eventsAt, ← List.append_nil (b.eventsAt 1)] at h
    exact (eventsAt_append_inj a h).1
  refine ⟨⟨fun h => hprefix (h ▸ List.prefix_rfl), fun h => congrArg _ h⟩, hprefix, ?_⟩
  rintro rfl
  exact List.prefix_rfl

end Value

end Bencode
