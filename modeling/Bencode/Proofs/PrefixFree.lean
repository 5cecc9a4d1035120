import Bencode.Proofs.Reader.Tree
import Bencode.Proofs.Written

/-! # Wire forms are prefix-free

From a text that begins with a tree, the tree and what follows it can be told. For numbers and byte
strings this is what their readers do; for containers it is an induction over the tree, in which the
first byte of every child tells it from the end.
-/
namespace Bencode
open Value

theorem stringWire_append_inj {a b r s : Bytes} (ha : a.length < 2 ^ 63) (hb : b.length < 2 ^ 63)
    (h : stringWire a ++ r = stringWire b ++ s) : a = b ∧ r = s := by
  let limits : Limits := { maxStringLength := 2 ^ 63 }
  have hread {b t : Bytes} (hlt : b.length < 2 ^ 63) :
      Reader.string limits ⟨0, stringWire b ++ t⟩ = (.ok b, ⟨0 + (stringWire b).length, t⟩) :=
    Reader.string_eq_ok_iff.2 ⟨⟨Nat.le_of_lt hlt, hlt⟩, Cursor.passes_append 0 (stringWire b) t⟩
  have he := (hread ha).symm.trans (h ▸ hread hb)
  simp only [Prod.mk.injEq, Except.ok.injEq, Cursor.mk.injEq] at he
  exact ⟨he.1, he.2.2⟩

/-- The tree and what follows it are determined by the text. -/
def Splits (w : Value) : Prop :=
  ∀ {u : Value} {r s : Bytes}, u.WellWritten false → w.wire ++ r = u.wire ++ s → w = u ∧ r = s

theorem wireItems_append_inj {ws us : List Value} {r s : Bytes} (hws : ∀ w ∈ ws, Splits w)
    (hw : ∀ w ∈ ws, w.WellWritten false) (hu : ∀ u ∈ us, u.WellWritten false)
    (h : wireItems ws ++ Mark.close :: r = wireItems us ++ Mark.close :: s) : ws = us ∧ r = s := by
  induction ws generalizing us with
  | nil =>
    cases us with
    | nil => exact ⟨rfl, by simpa [wireItems] using h⟩
    | cons u us =>
      obtain ⟨b, t, hb, -, hne⟩ := exists_wire_eq_cons (hu u List.mem_cons_self).holeFree
      simp [wireItems, hb, hne.symm] at h
  | cons w ws ih =>
    obtain ⟨hws₁, hws⟩ := List.forall_mem_cons.1 hws
    obtain ⟨hw₁, hw⟩ := List.forall_mem_cons.1 hw
    cases us with
    | nil =>
      obtain ⟨b, t, hb, -, hne⟩ := exists_wire_eq_cons hw₁.holeFree
      simp [wireItems, hb, hne] at h
    | cons u us =>
      obtain ⟨hu₁, hu⟩ := List.forall_mem_cons.1 hu
      simp only [wireItems, List.append_assoc] at h
      obtain ⟨hv, h⟩ := hws₁ hu₁ h
      obtain ⟨hvs, hr⟩ := ih hws hw hu h
      exact ⟨by rw [hv, hvs], hr⟩

theorem wireEntries_append_inj {es fs : List (Bytes × Value)} {r s : Bytes}
    (hes : ∀ e ∈ es, Splits e.2) (he : ∀ e ∈ es, e.1.length < 2 ^ 63 ∧ e.2.WellWritten false)
    (hf : ∀ f ∈ fs, f.1.length < 2 ^ 63 ∧ f.2.WellWritten false)
    (h : wireEntries es ++ Mark.close :: r = wireEntries fs ++ Mark.close :: s) :
    es = fs ∧ r = s := by
  induction es generalizing fs with
  | nil =>
    cases fs with
    | nil => exact ⟨rfl, by simpa [wireEntries] using h⟩
    | cons f fs =>
      obtain ⟨d, t, hd, hdigit⟩ := exists_stringWire_eq_cons f.1
      simp [wireEntries, hd, (ne_of_isDigit hdigit (b := Mark.close) rfl).symm] at h
  | cons e es ih =>
    obtain ⟨hes₁, hes⟩ := List.forall_mem_cons.1 hes
    obtain ⟨he₁, he⟩ := List.forall_mem_cons.1 he
    cases fs with
    | nil =>
      obtain ⟨d, t, hd, hdigit⟩ := exists_stringWire_eq_cons e.1
      simp [wireEntries, hd, ne_of_isDigit hdigit (b := Mark.close) rfl] at h
    | cons f fs =>
      obtain ⟨hf₁, hf⟩ := List.forall_mem_cons.1 hf
      simp only [wireEntries, List.append_assoc] at h
      obtain ⟨hk, h⟩ := stringWire_append_inj he₁.1 hf₁.1 h
      obtain ⟨hv, h⟩ := hes₁ hf₁.2 h
      obtain ⟨hvs, hr⟩ := ih hes he hf h
      exact ⟨by rw [Prod.ext hk hv, hvs], hr⟩

theorem kind_eq_of_wire {w u : Value} {r s : Bytes} (hw : w.HoleFree) (hu : u.HoleFree)
    (h : w.wire ++ r = u.wire ++ s) : w.kind = u.kind := by
  obtain ⟨a, t, ha, hka, -⟩ := exists_wire_eq_cons hw
  obtain ⟨b, t', hb, hkb, -⟩ := exists_wire_eq_cons hu
  rw [ha, hb, List.cons_append, List.cons_append] at h
  obtain ⟨rfl, -⟩ := List.cons.inj h
  exact Option.some.inj (hka.symm.trans hkb)

theorem wire_append_inj {w : Value} (hw : w.WellWritten false) : Splits w := by
  induction w with
  | integer n =>
    intro u r s hu h
    have hk := kind_eq_of_wire hw.holeFree hu.holeFree h
    cases u with
    | integer m =>
      simp only [wire, List.cons_append, List.append_assoc, List.cons.injEq, true_and] at h
      obtain ⟨hn, hr⟩ := Reader.ofInt_append_inj rfl h
      exact ⟨by rw [Int64.toInt_inj.1 hn], hr⟩
    | _ => simp [kind] at hk
  | bytes a =>
    intro u r s hu h
    have hk := kind_eq_of_wire hw.holeFree hu.holeFree h
    cases u with
    | bytes b =>
      have ha := hw.length_lt a List.mem_cons_self
      obtain ⟨hb, hr⟩ := stringWire_append_inj ha (hu.length_lt b List.mem_cons_self) h
      exact ⟨by rw [hb], hr⟩
    | _ => simp [kind] at hk
  | list ws ih =>
    intro u r s hu h
    have hk := kind_eq_of_wire hw.holeFree hu.holeFree h
    cases u with
    | list us =>
      simp only [wire, List.cons_append, List.append_assoc, List.cons.injEq, true_and] at h
      rw [wellWritten_list] at hw hu
      obtain ⟨hws, hr⟩ := wireItems_append_inj (fun w hm => ih w hm (hw w hm)) hw hu h
      exact ⟨by rw [hws], hr⟩
    | _ => simp [kind] at hk
  | dict es ih =>
    intro u r s hu h
    have hk := kind_eq_of_wire hw.holeFree hu.holeFree h
    cases u with
    | dict fs =>
      simp only [wire, List.cons_append, List.append_assoc, List.cons.injEq, true_and] at h
      rw [wellWritten_dict] at hw hu
      obtain ⟨hes, hr⟩ :=
        wireEntries_append_inj (fun e hm => ih e hm (hw.2 e hm).2) hw.2 hu.2 h
      exact ⟨by rw [hes], hr⟩
    | _ => simp [kind] at hk
  | hole => exact hw.holeFree.elim

end Bencode
