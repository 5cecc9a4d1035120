import Bencode.Proofs.Place
import Bencode.Proofs.Strictness

/-! # Faults point at their evidence

For each fault `Evidence` says what stands in the data at the offset that is reported: the end, a byte
that is not allowed at the place that reading has reached, the end of a number that is misspelt or too
long, or a key that is not above the one before it. Reading keeps to this at every place it comes to;
`Explained` is that statement of one outcome, and the rules of `Awaits` carry it from reader to reader.
-/
namespace Bencode
open Cursor Reader

/-- At `offset` the characters `numeral` of a number have been read, behind the place where it was to
come. -/
def NumberRead (limits : Limits) (data : Bytes) (start : Nat) (terminator : UInt8) (numeral : Bytes)
    (offset : Nat) : Prop :=
  ∃ m, Awaits limits (place data start) (place data m) (.number terminator) ∧ NumberText numeral ∧
    (place data m).Passes numeral (place data offset)

/-- What stands in the data at the offset of a fault, when reading began at `start` and stopped at
`stop`. -/
def Evidence (limits : Limits) (data : Bytes) (start offset stop : Nat) : Fault → Prop
  | .unexpectedEnd =>
    offset = data.length ∧
      ((∃ levels, Awaits limits (place data start) (place data offset) (.value (levels + 1))) ∨
        ∃ terminator numeral, NumberRead limits data start terminator numeral offset)
  | .unterminated .list =>
    offset = data.length ∧
      ∃ levels, Awaits limits (place data start) (place data offset) (.item levels)
  | .unterminated .dict =>
    offset = data.length ∧
      ∃ levels previous, Awaits limits (place data start) (place data offset) (.key levels previous)
  | .unterminated _ => False
  | .invalidLead x =>
    data[offset]? = some x ∧ Value.leadKind? x = none ∧
      ∃ levels, Awaits limits (place data start) (place data offset) (.value (levels + 1))
  | .invalidKey x =>
    data[offset]? = some x ∧ x ≠ Mark.close ∧ isNumberByte x true = false ∧
      ∃ levels previous, Awaits limits (place data start) (place data offset) (.key levels previous)
  | .invalidDigit x =>
    data[offset]? = some x ∧ ∃ terminator numeral,
      NumberRead limits data start terminator numeral offset ∧ x ≠ terminator ∧
        isNumberByte x numeral.isEmpty = false
  | .numberTooLong =>
    ∃ x terminator numeral, data[offset]? = some x ∧ isDigit x = true ∧
      NumberRead limits data start terminator numeral offset ∧ numeral.length = 20
  | .emptyNumber =>
    ∃ terminator numeral, data[offset]? = some terminator ∧
      NumberRead limits data start terminator numeral offset ∧
        (numeral = [] ∨ numeral = [Mark.minus])
  | .leadingZero =>
    ∃ terminator d ds, data[offset]? = some terminator ∧
      NumberRead limits data start terminator (Mark.zero :: d :: ds) offset
  | .negativeZero =>
    ∃ terminator ds, data[offset]? = some terminator ∧
      NumberRead limits data start terminator (Mark.minus :: Mark.zero :: ds) offset
  | .negativeLength =>
    data[offset]? = some Mark.colon ∧
      ∃ n < 0, NumberRead limits data start Mark.colon (Decimal.ofInt n) offset
  | .stringTooLong length max =>
    data[offset]? = some Mark.colon ∧ max = limits.maxStringLength ∧ max < length ∧
      NumberRead limits data start Mark.colon (Decimal.digits length) offset
  | .keyOrder key =>
    limits.strictKeys = true ∧ (place data offset).Passes (stringWire key) (place data stop) ∧
      (∃ levels previous, key < previous ∧
        Awaits limits (place data start) (place data offset) (.key levels (some previous))) ∧
      (Fault.keyOrder key).message =
        s!"dictionary key \"{String.ofList (Utf8.lossy key)}\" out of order"
  | .duplicateKey key =>
    limits.strictKeys = true ∧ (place data offset).Passes (stringWire key) (place data stop) ∧
      (∃ levels, Awaits limits (place data start) (place data offset) (.key levels (some key))) ∧
      (Fault.duplicateKey key).message =
        s!"duplicate dictionary key \"{String.ofList (Utf8.lossy key)}\""
  | .tooDeep max =>
    max = limits.maxDepth ∧ Awaits limits (place data start) (place data offset) (.value 0)
  | .trailingData =>
    offset < data.length ∧ ∃ text v, (place data start).Passes text (place data offset) ∧
      decode text limits = .ok v

/-- The reported offset lies between the start and the place where reading stopped, and is that place
unless a key is to blame. -/
structure PointsAt (limits : Limits) (data : Bytes) (start offset stop : Nat) (fault : Fault) :
    Prop where
  start_le : start ≤ offset
  offset_le : offset ≤ stop
  stop_le : stop ≤ data.length
  eq_stop : fault.isKeyFault = false → offset = stop
  evidence : Evidence limits data start offset stop fault

/-- If the outcome is a fault, the fault points at its evidence. -/
def Explained {α : Type} (limits : Limits) (data : Bytes) (start : Nat) (r : Outcome α) : Prop :=
  ∀ offset fault c, r = (.error (.malformed offset fault), c) →
    PointsAt limits data start offset c.offset fault

namespace Explained
variable {α β : Type} {limits : Limits} {data : Bytes} {start : Nat} {r : Outcome α} {c : Cursor}

theorem ok (a : α) (c : Cursor) : Explained limits data start (.ok a, c) := by
  intro offset fault c' h
  simp at h

theorem andThen {f : α → Cursor → Outcome β} (h : Explained limits data start r)
    (hf : ∀ a c, r = (.ok a, c) → Explained limits data start (f a c)) :
    Explained limits data start (r.andThen f) := by
  obtain ⟨e | a, c⟩ := r
  · intro offset fault c' he
    obtain ⟨rfl, rfl⟩ : e = .malformed offset fault ∧ c = c' := by simpa using he
    exact h offset fault c rfl
  · exact hf a c rfl

theorem map (f : α → β) (h : Explained limits data start r) :
    Explained limits data start (r.map f) := by
  rw [Outcome.map_eq_andThen]
  exact h.andThen fun a c _ => .ok (f a) c

/-- A fault at the cursor needs evidence there. -/
theorem fail {fault : Fault} (hs : start ≤ data.length) (hr : (place data start).Reaches c)
    (he : ∀ m, m ≤ data.length → c = place data m → Evidence limits data start m m fault) :
    Explained limits data start (c.fail fault : Outcome α) := by
  obtain ⟨m, hm, hml, rfl⟩ := exists_place_of_reaches hs hr
  intro offset fault' c' h
  cases h
  exact ⟨hm, Nat.le_refl m, hml, fun _ => rfl, he m hml rfl⟩

theorem take (c : Cursor) (n : Nat) : Explained limits data start (c.take n) := by
  intro offset fault c' h
  by_cases hn : n ≤ c.rest.length
  · simp [take_of_le hn] at h
  · simp [take_of_lt (Nat.not_le.1 hn)] at h

end Explained

namespace Reader

variable {limits : Limits} {data : Bytes} {start : Nat} {item : Reader Value} {levels : Nat}
variable {c : Cursor}

theorem NumberFault.evidence {terminator : UInt8} {numeral : Bytes} {m : Nat} {fault : Fault}
    (hm : m ≤ data.length) (hn : NumberRead limits data start terminator numeral m)
    (h : NumberFault terminator numeral (place data m).rest fault) :
    Evidence limits data start m m fault := by
  generalize hr : (place data m).rest = rest at h
  cases h with
  | ended => exact ⟨eq_length_of_rest_place hm hr, .inr ⟨terminator, numeral, hn⟩⟩
  | @invalid b rest hne hb =>
    exact ⟨getElem?_of_rest_place hr, terminator, numeral, hn, hne, hb⟩
  | @tooLong b rest hb hl =>
    have hl' : numeral.length = 20 := hl
    -- a number is full behind its twentieth character, where a minus is no longer allowed
    have hne : numeral.isEmpty = false := by
      cases numeral with
      | nil => simp at hl'
      | cons a numeral => rfl
    have hd : isDigit b = true := by
      rw [hne] at hb
      simpa [isNumberByte] using hb
    exact ⟨b, terminator, numeral, getElem?_of_rest_place hr, hd, hn, hl'⟩
  | misspelt hs =>
    have hb := getElem?_of_rest_place hr
    rcases spellingFault?_eq_some hs with ⟨rfl, he⟩ | ⟨rfl, ds, rfl⟩ | ⟨rfl, d, ds, rfl⟩
    · exact ⟨terminator, numeral, hb, hn, he⟩
    · exact ⟨terminator, ds, hb, hn⟩
    · exact ⟨terminator, d, ds, hb, hn⟩

theorem number_explained (hs : start ≤ data.length) {terminator : UInt8}
    (h : Awaits limits (place data start) c (.number terminator)) :
    Explained limits data start (number terminator c) := by
  intro offset fault c' he
  obtain ⟨rfl, numeral, hn, hp, hf⟩ := number_eq_malformed he
  have hreach : (place data start).Reaches c' := h.reaches.trans hp.reaches
  obtain ⟨k, -, -, rfl⟩ := exists_place_of_reaches hs h.reaches
  obtain ⟨m, hm, hml, rfl⟩ := exists_place_of_reaches hs hreach
  have hread : NumberRead limits data start terminator numeral m := ⟨k, h, hn, hp⟩
  exact ⟨hm, Nat.le_refl m, hml, fun _ => rfl, hf.evidence hml hread⟩

theorem integer_explained (hs : start ≤ data.length)
    (h : Awaits limits (place data start) c.next (.number Mark.close)) :
    Explained limits data start (integer c) :=
  (number_explained hs h).andThen fun _ _ _ => .ok _ _

theorem string_explained (hs : start ≤ data.length)
    (h : Awaits limits (place data start) c (.number Mark.colon)) :
    Explained limits data start (string limits c) := by
  refine (number_explained hs h).andThen fun n c₁ hn => ?_
  obtain ⟨more, hp, hm⟩ := (number_eq_ok_iff rfl).1 hn
  have hreach : (place data start).Reaches c₁ := h.reaches.trans hp.reaches
  obtain ⟨k, -, -, rfl⟩ := exists_place_of_reaches hs h.reaches
  have hread (m : Nat) (hc : c₁ = place data m) :
      data[m]? = some Mark.colon ∧
        NumberRead limits data start Mark.colon (Decimal.ofInt n.toInt) m := by
    subst hc
    exact ⟨getElem?_of_rest_place hm, k, h, .of_canonical (Decimal.canonical_ofInt n.toInt), hp⟩
  split
  · next hneg =>
    refine .fail hs hreach fun m _ hc => ?_
    obtain ⟨hb, hr⟩ := hread m hc
    exact ⟨hb, n.toInt, hneg, hr⟩
  · next hneg =>
    split
    · next hmax =>
      refine .fail hs hreach fun m _ hc => ?_
      obtain ⟨hb, hr⟩ := hread m hc
      have hn : n.toInt = (n.toInt.toNat : Int) := by omega
      rw [hn, Decimal.ofInt_natCast] at hr
      exact ⟨hb, rfl, hmax, hr⟩
    · exact .take _ _

theorem items_explained (hs : start ≤ data.length)
    (hitem : ∀ c, Awaits limits (place data start) c (.value levels) →
      Explained limits data start (item.run c))
    (hwritten : ∀ {v c c'}, item.run c = (.ok v, c') → Written limits levels v c c')
    (h : Awaits limits (place data start) c (.item levels)) :
    Explained limits data start (items item c) := by
  induction c using items_induction item with
  | nil c hr =>
    rw [items_nil hr]
    refine .fail hs h.reaches fun m hm hc => ?_
    subst hc
    exact ⟨eq_length_of_rest_place hm hr, levels, h⟩
  | close c rest hr =>
    rw [items_close hr]
    exact .ok _ _
  | cons c b rest hr hb ih =>
    rw [items_cons hr hb]
    refine (hitem c (h.item hr hb)).andThen fun v c₁ hv => ?_
    -- an item that was read is one the grammar allows, so the next one is awaited behind it
    have hrest : Awaits limits (place data start) c₁ (.item levels) := h.items (hwritten hv)
    exact (ih v c₁ hv hrest).map _

/-- A key out of order is reported where it begins, and reading stops behind it. -/
theorem keyFault_explained (hs : start ≤ data.length) {previous : Option Bytes} {key : Bytes}
    {c₁ : Cursor} {fault : Fault} (h : Awaits limits (place data start) c (.key levels previous))
    (hp : c.Passes (stringWire key) c₁) (ho : orderFault? limits previous key = some fault) :
    Explained limits data start
      ((.error (.malformed c.offset fault), c₁) : Outcome (List (Bytes × Value))) := by
  intro offset fault' c' he
  cases he
  have hreach : (place data start).Reaches c₁ := h.reaches.trans hp.reaches
  have hle : c.offset ≤ c₁.offset := hp.reaches.offset_le
  obtain ⟨m, hm, -, rfl⟩ := exists_place_of_reaches hs h.reaches
  obtain ⟨k, -, hk, rfl⟩ := exists_place_of_reaches hs hreach
  obtain ⟨hstrict, p, rfl, hf⟩ := orderFault?_eq_some ho
  have hkey : fault.isKeyFault = true := isKeyFault_of_orderFault? ho
  refine ⟨hm, hle, hk, fun hn => absurd (hkey.symm.trans hn) (by decide), ?_⟩
  rcases hf with ⟨rfl, rfl⟩ | ⟨rfl, hlt⟩
  · exact ⟨hstrict, hp, ⟨levels, h⟩, rfl⟩
  · exact ⟨hstrict, hp, ⟨levels, p, hlt, h⟩, rfl⟩

theorem entries_explained (hs : start ≤ data.length)
    (hitem : ∀ c, Awaits limits (place data start) c (.value levels) →
      Explained limits data start (item.run c))
    (hwritten : ∀ {v c c'}, item.run c = (.ok v, c') → Written limits levels v c c')
    {previous : Option Bytes} (h : Awaits limits (place data start) c (.key levels previous)) :
    Explained limits data start (entries limits item previous c) := by
  induction previous, c using entries_induction limits item with
  | nil previous c hr =>
    rw [entries_nil hr]
    refine .fail hs h.reaches fun m hm hc => ?_
    subst hc
    exact ⟨eq_length_of_rest_place hm hr, levels, previous, h⟩
  | close previous c rest hr =>
    rw [entries_close hr]
    exact .ok _ _
  | invalid previous c b rest hr hb hd =>
    rw [entries_invalid hr hb hd]
    refine .fail hs h.reaches fun m hm hc => ?_
    subst hc
    exact ⟨getElem?_of_rest_place hr, hb, hd, levels, previous, h⟩
  | cons previous c b rest hr hb hd ih =>
    rw [entries_cons hr hb hd]
    refine (string_explained hs (h.keyLength hr hd)).andThen fun key c₁ hk => ?_
    obtain ⟨⟨hmax, hlt⟩, hp⟩ := string_eq_ok_iff.1 hk
    cases ho : orderFault? limits previous key with
    | some fault => exact keyFault_explained hs h hp ho
    | none =>
      have hkey : KeyWritten limits previous key c c₁ := ⟨hmax, hlt, hp, orderFault?_eq_none_iff.1 ho⟩
      refine (hitem c₁ (h.entry hkey)).andThen fun v c₂ hv => ?_
      have hrest : Awaits limits (place data start) c₂ (.key levels (some key)) :=
        h.entries hkey (hwritten hv)
      exact (ih key c₁ v c₂ hk hv hrest).map _

theorem value_explained (hs : start ≤ data.length)
    (hitem : ∀ c, Awaits limits (place data start) c (.value levels) →
      Explained limits data start (item.run c))
    (hwritten : ∀ {v c c'}, item.run c = (.ok v, c') → Written limits levels v c c')
    (h : Awaits limits (place data start) c (.value (levels + 1))) :
    Explained limits data start (value limits item c) := by
  cases hr : c.rest with
  | nil =>
    rw [value_nil hr]
    refine .fail hs h.reaches fun m hm hc => ?_
    subst hc
    exact ⟨eq_length_of_rest_place hm hr, .inl ⟨_, h⟩⟩
  | cons b rest =>
    rw [value_cons hr]
    split
    · next hi => exact integer_explained hs (h.integer (hi ▸ hr))
    · next hi =>
      split
      · next hl => exact (items_explained hs hitem hwritten (h.list (hl ▸ hr))).map _
      · next hl =>
        split
        · next hd => exact (entries_explained hs hitem hwritten (h.dict (hd ▸ hr))).map _
        · next hd =>
          split
          · next hn => exact (string_explained hs (h.length hr hn)).map _
          · next hn =>
            refine .fail hs h.reaches fun m hm hc => ?_
            subst hc
            have hlead : Value.leadKind? b = none :=
              Value.leadKind?_eq_none hi hl hd (Bool.eq_false_iff.2 hn)
            exact ⟨getElem?_of_rest_place hr, hlead, levels, h⟩

theorem tree_explained (hs : start ≤ data.length)
    (h : Awaits limits (place data start) c (.value levels)) :
    Explained limits data start ((tree limits levels).run c) := by
  induction levels generalizing c with
  | zero =>
    refine .fail hs h.reaches fun m _ hc => ?_
    subst hc
    exact ⟨rfl, h⟩
  | succ levels ih => exact value_explained hs (fun c hc => ih hc) tree_written h

theorem document_explained (limits : Limits) (hs : start ≤ data.length) :
    Explained limits data start (document limits (place data start)) := by
  refine (tree_explained hs .root).andThen fun v c hv => ?_
  split
  · exact .ok v c
  · next he =>
    obtain ⟨w, hw, hl, -, hp⟩ := tree_written hv
    refine .fail hs hp.reaches fun m hm hc => ?_
    subst hc
    have hne : m ≠ data.length := by
      rintro rfl
      exact he (by simp [place, Input.cursor])
    have hdecode : decode w.wire limits = .ok w.settled := decode_eq_ok_iff.2 ⟨w, hw, hl, rfl, rfl⟩
    exact ⟨by omega, w.wire, w.settled, hp, hdecode⟩

end Reader

/-- Wherever reading starts in the data, a fault lies between there and the place where reading
stopped, and what it says is what stands there. -/
theorem pointsAt_of_decode_eq_malformed {data : Bytes} {start : Nat} {limits : Limits} {offset : Nat}
    {fault : Fault} {s' : Input} (hs : start ≤ data.length)
    (h : Input.decode ⟨data, start⟩ limits = (.error (.malformed offset fault), s')) :
    s'.data = data ∧ PointsAt limits data start offset s'.position fault := by
  obtain ⟨hr, rfl⟩ := Prod.mk.inj h
  exact ⟨rfl, document_explained limits hs offset fault _ (Prod.ext hr rfl)⟩

/-- The data is `xld1:bi1e1:ai2eee` and reading starts behind its first byte. The second key is
reported where its length stands, and reading stopped behind it. -/
theorem pointsAt_of_decode_eq_malformed_keyOrder :
    Input.decode ⟨[120, 108, 100, 49, 58, 98, 105, 49, 101, 49, 58, 97, 105, 50, 101, 101, 101], 1⟩
        ⟨3, 1, true⟩ =
      (.error (.malformed 9 (.keyOrder [97])),
        ⟨[120, 108, 100, 49, 58, 98, 105, 49, 101, 49, 58, 97, 105, 50, 101, 101, 101], 12⟩) ∧
      PointsAt ⟨3, 1, true⟩
        [120, 108, 100, 49, 58, 98, 105, 49, 101, 49, 58, 97, 105, 50, 101, 101, 101] 1 9 12
        (.keyOrder [97]) := by
  have h : Input.decode
      ⟨[120, 108, 100, 49, 58, 98, 105, 49, 101, 49, 58, 97, 105, 50, 101, 101, 101], 1⟩ ⟨3, 1, true⟩ =
      (.error (.malformed 9 (.keyOrder [97])),
        ⟨[120, 108, 100, 49, 58, 98, 105, 49, 101, 49, 58, 97, 105, 50, 101, 101, 101], 12⟩) := by
    decide +kernel
  exact ⟨h, (pointsAt_of_decode_eq_malformed (by decide) h).2⟩

end Bencode
