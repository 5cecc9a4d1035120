import Bencode.Proofs.PrefixFree
import Bencode.Proofs.Reader.Acceptance

/-! # The grammar of the wire format

    value  := 'd' (string value)* 'e' | 'l' value* 'e' | 'i' number 'e' | string
    string := length ':' body

A number and a length are canonical decimals of signed 64-bit integers. `Derives` relates a tree as it
is written to its text by these rules, `Settles` says which tree is meant by it: of equal keys the
last one counts. Without strict keys decoding accepts exactly what is derived within the limits.
-/
namespace Bencode
open Value

/-- The rule for byte strings. -/
inductive DerivesString : Bytes → Bytes → Prop where
  | intro {b numeral : Bytes} {n : Int64} (hn : Decimal.Canonical numeral n.toInt)
      (hb : n.toInt = b.length) : DerivesString b (numeral ++ Mark.colon :: b)

mutual

/-- The rules for values. The tree keeps the entries of a dictionary in the order of the text. -/
inductive Derives : Value → Bytes → Prop where
  | dict {entries : List (Bytes × Value)} {text : Bytes} (h : DerivesEntries entries text) :
      Derives (.dict entries) (Mark.dict :: (text ++ [Mark.close]))
  | list {items : List Value} {text : Bytes} (h : DerivesItems items text) :
      Derives (.list items) (Mark.list :: (text ++ [Mark.close]))
  | integer {n : Int64} {numeral : Bytes} (h : Decimal.Canonical numeral n.toInt) :
      Derives (.integer n) (Mark.integer :: (numeral ++ [Mark.close]))
  | bytes {b text : Bytes} (h : DerivesString b text) : Derives (.bytes b) text

inductive DerivesItems : List Value → Bytes → Prop where
  | nil : DerivesItems [] []
  | cons {v : Value} {vs : List Value} {s t : Bytes} (hv : Derives v s) (hvs : DerivesItems vs t) :
      DerivesItems (v :: vs) (s ++ t)

inductive DerivesEntries : List (Bytes × Value) → Bytes → Prop where
  | nil : DerivesEntries [] []
  | cons {k : Bytes} {v : Value} {es : List (Bytes × Value)} {r s t : Bytes}
      (hk : DerivesString k r) (hv : Derives v s) (hes : DerivesEntries es t) :
      DerivesEntries ((k, v) :: es) (r ++ s ++ t)

end

mutual

/-- The tree that is meant by a written one: every dictionary maps each key that occurs to the value
of its last occurrence. -/
inductive Settles : Value → Value → Prop where
  | dict {written meant kept : List (Bytes × Value)} (h : SettlesEntries written meant)
      (hsorted : Entries.Sorted kept)
      (hlast : ∀ k, Entries.get? k kept = Entries.get? k meant.reverse) :
      Settles (.dict written) (.dict kept)
  | list {written meant : List Value} (h : SettlesItems written meant) :
      Settles (.list written) (.list meant)
  | integer (n : Int64) : Settles (.integer n) (.integer n)
  | bytes (b : Bytes) : Settles (.bytes b) (.bytes b)

inductive SettlesItems : List Value → List Value → Prop where
  | nil : SettlesItems [] []
  | cons {w v : Value} {ws vs : List Value} (hv : Settles w v) (hvs : SettlesItems ws vs) :
      SettlesItems (w :: ws) (v :: vs)

inductive SettlesEntries : List (Bytes × Value) → List (Bytes × Value) → Prop where
  | nil : SettlesEntries [] []
  | cons {k : Bytes} {w v : Value} {es fs : List (Bytes × Value)} (hv : Settles w v)
      (hes : SettlesEntries es fs) : SettlesEntries ((k, w) :: es) ((k, v) :: fs)

end

theorem derivesString_iff {b text : Bytes} :
    DerivesString b text ↔ b.length < 2 ^ 63 ∧ stringWire b = text := by
  constructor
  · rintro ⟨hn, hb⟩
    have hlt := Int64.toInt_lt ‹Int64›
    rw [hn.eq_ofInt, hb, Decimal.ofInt_natCast]
    exact ⟨by omega, rfl⟩
  · rintro ⟨hlt, rfl⟩
    have hn : (Int64.ofInt b.length).toInt = b.length :=
      Int64.toInt_ofInt_of_le (by omega) (by omega)
    refine .intro (n := Int64.ofInt b.length) ?_ hn
    rw [hn]
    exact Decimal.canonical_digits b.length

theorem derivesItems_iff {ws : List Value} {text : Bytes}
    (h : ∀ w ∈ ws, ∀ {t}, Derives w t ↔ w.WellWritten false ∧ w.wire = t) :
    DerivesItems ws text ↔ (∀ w ∈ ws, w.WellWritten false) ∧ wireItems ws = text := by
  induction ws generalizing text with
  | nil =>
    constructor
    · intro h
      cases h with
      | nil => exact ⟨by simp, rfl⟩
    · rintro ⟨-, rfl⟩
      exact .nil
  | cons w ws ih =>
    obtain ⟨hw, hws⟩ := List.forall_mem_cons.1 h
    rw [List.forall_mem_cons]
    constructor
    · intro h
      cases h with
      | cons hv hvs =>
        obtain ⟨hw', rfl⟩ := hw.1 hv
        obtain ⟨hws', rfl⟩ := (ih hws).1 hvs
        exact ⟨⟨hw', hws'⟩, rfl⟩
    · rintro ⟨⟨hw', hws'⟩, rfl⟩
      exact .cons (hw.2 ⟨hw', rfl⟩) ((ih hws).2 ⟨hws', rfl⟩)

theorem derivesEntries_iff {es : List (Bytes × Value)} {text : Bytes}
    (h : ∀ e ∈ es, ∀ {t}, Derives e.2 t ↔ e.2.WellWritten false ∧ e.2.wire = t) :
    DerivesEntries es text ↔
      (∀ e ∈ es, e.1.length < 2 ^ 63 ∧ e.2.WellWritten false) ∧ wireEntries es = text := by
  induction es generalizing text with
  | nil =>
    constructor
    · intro h
      cases h with
      | nil => exact ⟨by simp, rfl⟩
    · rintro ⟨-, rfl⟩
      exact .nil
  | cons e es ih =>
    obtain ⟨hw, hws⟩ := List.forall_mem_cons.1 h
    rw [List.forall_mem_cons]
    constructor
    · intro h
      cases h with
      | cons hk hv hes =>
        obtain ⟨hlt, rfl⟩ := derivesString_iff.1 hk
        obtain ⟨hw', rfl⟩ := hw.1 hv
        obtain ⟨hws', rfl⟩ := (ih hws).1 hes
        exact ⟨⟨⟨hlt, hw'⟩, hws'⟩, rfl⟩
    · rintro ⟨⟨⟨hlt, hw'⟩, hws'⟩, rfl⟩
      exact .cons (derivesString_iff.2 ⟨hlt, rfl⟩) (hw.2 ⟨hw', rfl⟩) ((ih hws).2 ⟨hws', rfl⟩)

/-- The grammar derives the wire forms of well-written trees and nothing else. -/
theorem derives_iff {w : Value} {text : Bytes} :
    Derives w text ↔ w.WellWritten false ∧ w.wire = text := by
  induction w generalizing text with
  | integer n =>
    rw [wire]
    constructor
    · intro h
      cases h with
      | integer h => exact ⟨⟨trivial, fun _ => trivial, by simp [strings]⟩, by rw [h.eq_ofInt]⟩
    · rintro ⟨-, rfl⟩
      exact .integer (Decimal.canonical_ofInt n.toInt)
  | bytes b =>
    rw [wire]
    constructor
    · intro h
      cases h with
      | bytes h =>
        obtain ⟨hlt, rfl⟩ := derivesString_iff.1 h
        exact ⟨⟨trivial, fun _ => trivial, List.forall_mem_singleton.2 hlt⟩, rfl⟩
    · rintro ⟨h, rfl⟩
      exact .bytes (derivesString_iff.2 ⟨h.length_lt b List.mem_cons_self, rfl⟩)
  | list ws ih =>
    rw [wire, wellWritten_list]
    constructor
    · intro h
      cases h with
      | list h =>
        obtain ⟨hws, rfl⟩ := (derivesItems_iff ih).1 h
        exact ⟨hws, rfl⟩
    · rintro ⟨hws, rfl⟩
      exact .list ((derivesItems_iff ih).2 ⟨hws, rfl⟩)
  | dict es ih =>
    rw [wire, wellWritten_dict]
    constructor
    · intro h
      cases h with
      | dict h =>
        obtain ⟨hes, rfl⟩ := (derivesEntries_iff ih).1 h
        exact ⟨⟨fun hs => by simp at hs, hes⟩, rfl⟩
    · rintro ⟨⟨-, hes⟩, rfl⟩
      exact .dict ((derivesEntries_iff ih).2 ⟨hes, rfl⟩)
  | hole =>
    constructor
    · intro h
      cases h
    · exact fun h => h.1.holeFree.elim

/-- No text is derived in two ways. -/
theorem derives_unique {w u : Value} {text : Bytes} (hw : Derives w text) (hu : Derives u text) :
    w = u := by
  obtain ⟨hw', rfl⟩ := derives_iff.1 hw
  obtain ⟨hu', he⟩ := derives_iff.1 hu
  exact (wire_append_inj hw' hu' (congrArg (· ++ []) he.symm)).1

theorem settlesItems_iff {ws vs : List Value}
    (h : ∀ w ∈ ws, ∀ {v}, Settles w v ↔ w.HoleFree ∧ w.settled = v) :
    SettlesItems ws vs ↔ (∀ w ∈ ws, w.HoleFree) ∧ ws.map settled = vs := by
  induction ws generalizing vs with
  | nil =>
    constructor
    · intro h
      cases h with
      | nil => exact ⟨by simp, rfl⟩
    · rintro ⟨-, rfl⟩
      exact .nil
  | cons w ws ih =>
    obtain ⟨hw, hws⟩ := List.forall_mem_cons.1 h
    rw [List.forall_mem_cons]
    constructor
    · intro h
      cases h with
      | cons hv hvs =>
        obtain ⟨hw', rfl⟩ := hw.1 hv
        obtain ⟨hws', rfl⟩ := (ih hws).1 hvs
        exact ⟨⟨hw', hws'⟩, rfl⟩
    · rintro ⟨⟨hw', hws'⟩, rfl⟩
      exact .cons (hw.2 ⟨hw', rfl⟩) ((ih hws).2 ⟨hws', rfl⟩)

theorem settlesEntries_iff {es fs : List (Bytes × Value)}
    (h : ∀ e ∈ es, ∀ {v}, Settles e.2 v ↔ e.2.HoleFree ∧ e.2.settled = v) :
    SettlesEntries es fs ↔
      (∀ e ∈ es, e.2.HoleFree) ∧ (es.map fun e => (e.1, e.2.settled)) = fs := by
  induction es generalizing fs with
  | nil =>
    constructor
    · intro h
      cases h with
      | nil => exact ⟨by simp, rfl⟩
    · rintro ⟨-, rfl⟩
      exact .nil
  | cons e es ih =>
    obtain ⟨hw, hws⟩ := List.forall_mem_cons.1 h
    rw [List.forall_mem_cons]
    constructor
    · intro h
      cases h with
      | cons hv hes =>
        obtain ⟨hw', rfl⟩ := hw.1 hv
        obtain ⟨hws', rfl⟩ := (ih hws).1 hes
        exact ⟨⟨hw', hws'⟩, rfl⟩
    · rintro ⟨⟨hw', hws'⟩, rfl⟩
      exact .cons (hw.2 ⟨hw', rfl⟩) ((ih hws).2 ⟨hws', rfl⟩)

/-- Every tree without holes settles, and only to one tree. -/
theorem settles_iff {w v : Value} : Settles w v ↔ w.HoleFree ∧ w.settled = v := by
  induction w generalizing v with
  | integer n =>
    constructor
    · intro h
      cases h with
      | integer => exact ⟨trivial, rfl⟩
    · rintro ⟨-, rfl⟩
      exact .integer n
  | bytes b =>
    constructor
    · intro h
      cases h with
      | bytes => exact ⟨trivial, rfl⟩
    · rintro ⟨-, rfl⟩
      exact .bytes b
  | list ws ih =>
    rw [holeFree_list, settled_list]
    constructor
    · intro h
      cases h with
      | list h =>
        obtain ⟨hws, rfl⟩ := (settlesItems_iff ih).1 h
        exact ⟨hws, rfl⟩
    · rintro ⟨hws, rfl⟩
      exact .list ((settlesItems_iff ih).2 ⟨hws, rfl⟩)
  | dict es ih =>
    rw [holeFree_dict, settled_dict, ofEntries]
    constructor
    · intro h
      cases h with
      | dict h hsorted hlast =>
        obtain ⟨hes, rfl⟩ := (settlesEntries_iff ih).1 h
        exact ⟨hes, by rw [Entries.ofList_eq_iff.2 ⟨hsorted, hlast⟩]⟩
    · rintro ⟨hes, rfl⟩
      exact .dict ((settlesEntries_iff ih).2 ⟨hes, rfl⟩) (Entries.sorted_ofList _)
        fun k => Entries.get?_ofList k _
  | hole =>
    constructor
    · intro h
      cases h
    · exact fun h => h.1.elim

/-- Without strict keys an input is accepted just when the grammar derives it within the limits, and
the answer is the tree that is meant. A text has one derivation: the tree as it is written is
determined by the text, and the text of each part by the part. -/
theorem decode_lax_eq_ok_iff (b : Bytes) (maxDepth maxStringLength : Nat) (v : Value) :
    (decode b ⟨maxDepth, maxStringLength, false⟩ = .ok v ↔
      ∃ w, Derives w b ∧ w.depth ≤ maxDepth ∧
        (∀ s ∈ w.strings, s.length ≤ maxStringLength) ∧ Settles w v) ∧
    (∀ w u, Derives w b → Derives u b → w = u) ∧
    ∀ w s t, Derives w s → Derives w t → s = t := by
  refine ⟨?_, fun w u => derives_unique, fun w s t hs ht => ?_⟩
  · rw [decode_eq_ok_iff]
    constructor
    · rintro ⟨w, hw, ⟨hd, hl⟩, hv, hb⟩
      exact ⟨w, derives_iff.2 ⟨hw, hb⟩, hd, hl, settles_iff.2 ⟨hw.holeFree, hv⟩⟩
    · rintro ⟨w, hw, hd, hl, hv⟩
      obtain ⟨hw, hb⟩ := derives_iff.1 hw
      exact ⟨w, hw, ⟨hd, hl⟩, (settles_iff.1 hv).2, hb⟩
  · exact (derives_iff.1 hs).2.symm.trans (derives_iff.1 ht).2

/-- The input is `d1:bi1e1:ai2e1:bi3ee`. Its keys are out of order, and the second `b` counts. -/
theorem decode_lax_eq_ok_iff_repeated : ∃ w,
    Derives w
        [100, 49, 58, 98, 105, 49, 101, 49, 58, 97, 105, 50, 101, 49, 58, 98, 105, 51, 101, 101] ∧
      decode [100, 49, 58, 98, 105, 49, 101, 49, 58, 97, 105, 50, 101, 49, 58, 98, 105, 51, 101, 101]
        ⟨2, 1, false⟩ = .ok (.dict [([97], .integer 2), ([98], .integer 3)]) ∧
      ∀ u, Derives u
        [100, 49, 58, 98, 105, 49, 101, 49, 58, 97, 105, 50, 101, 49, 58, 98, 105, 51, 101, 101] →
          u = w := by
  have hw : Derives (.dict [([98], .integer 1), ([97], .integer 2), ([98], .integer 3)])
      [100, 49, 58, 98, 105, 49, 101, 49, 58, 97, 105, 50, 101, 49, 58, 98, 105, 51, 101, 101] :=
    derives_iff.2 ⟨⟨by simp [HoleFree, HoleFreeEntries], by simp, by simp [strings, stringsEntries]⟩,
      by decide +kernel⟩
  have hv : Settles (.dict [([98], .integer 1), ([97], .integer 2), ([98], .integer 3)])
      (.dict [([97], .integer 2), ([98], .integer 3)]) :=
    settles_iff.2 ⟨by simp [HoleFree, HoleFreeEntries], by decide +kernel⟩
  refine ⟨_, hw, (decode_lax_eq_ok_iff _ 2 1 _).1.2 ⟨_, hw, by decide, ?_, hv⟩, fun u hu => ?_⟩
  · simp [strings, stringsEntries]
  · exact (decode_lax_eq_ok_iff _ 2 1 (.dict [([97], .integer 2), ([98], .integer 3)])).2.1 u _ hu hw

end Bencode
