import Bencode.Proofs.Decimal
import Bencode.Proofs.Json
import Bencode.Proofs.Json.Reader
import Bencode.Proofs.Utf8
import Bencode.Proofs.Writing

/-! # JSON texts read back

What is printed for a document follows the grammar in both layouts, since these differ in space only, and
spells the document. So the text of a tree without holes reads as its projection.
-/
namespace Bencode

namespace Json

theorem toNat_ofNat_byte (b : UInt8) : (Char.ofNat b.toNat).toNat = b.toNat := by
  have hb := UInt8.toNat_lt b
  exact Utf8.toNat_ofNat (.inl (by omega))

theorem isDigit_ofNat_byte {b : UInt8} (h : isDigit b = true) : (Char.ofNat b.toNat).isDigit = true := by
  have hval : (Char.ofNat b.toNat).val.toNat = b.toNat := toNat_ofNat_byte b
  simp only [isDigit, Bool.and_eq_true, decide_eq_true_eq, UInt8.le_iff_toNat_le] at h
  simp only [Char.isDigit, Bool.and_eq_true, decide_eq_true_eq, ge_iff_le, UInt32.le_iff_toNat_le, hval]
  exact h

theorem digits_map_ofNat {d : UInt8} {ds : Bytes} (h : ∀ b ∈ d :: ds, isDigit b = true) :
    Digits ((d :: ds).map fun b => Char.ofNat b.toNat) := by
  refine ⟨List.cons_ne_nil _ _, fun c hc => ?_⟩
  obtain ⟨b, hb, rfl⟩ := List.mem_map.1 hc
  exact isDigit_ofNat_byte (h b hb)

theorem digitsValue_map_ofNat (ds : Bytes) :
    digitsValue (ds.map fun b => Char.ofNat b.toNat) = Decimal.value ds := by
  simp only [digitsValue, Decimal.value, List.foldl_map, toNat_ofNat_byte, digitValue]

theorem unsigned_of_integral {text : List Char} (h : Integral text) :
    Unsigned text (digitsValue text : Rat) := by
  have hvalue : decimal text [] 0 = (digitsValue text : Rat) := by
    simp [decimal]
  have hunsigned := Unsigned.intro h .absent .absent
  rwa [hvalue, List.append_nil, List.append_nil] at hunsigned

theorem unsigned_of_digits {d : UInt8} {ds : Bytes} (h₀ : d ≠ Mark.zero)
    (h : ∀ b ∈ d :: ds, isDigit b = true) :
    Unsigned ((d :: ds).map fun b => Char.ofNat b.toNat) (Decimal.value (d :: ds) : Rat) := by
  have hd : Char.ofNat d.toNat ≠ '0' := fun he =>
    h₀ (UInt8.toNat_inj.1 ((toNat_ofNat_byte d).symm.trans (congrArg Char.toNat he)))
  rw [← digitsValue_map_ofNat]
  exact unsigned_of_integral (.positive hd (digits_map_ofNat h))

/-- The decimal of an integer is the integer, exactly. -/
theorem number_text (n : Int) : Number (Decimal.text n) n := by
  have hcanonical := Decimal.canonical_ofInt n
  unfold Decimal.text
  generalize Decimal.ofInt n = text at hcanonical
  cases hcanonical with
  | zero => exact .positive (unsigned_of_integral .zero)
  | positive h₀ h => exact .positive (unsigned_of_digits h₀ h)
  | negative h₀ h =>
    rw [Rat.intCast_neg]
    exact .negative (unsigned_of_digits h₀ h)

theorem hexDigit?_hexDigit {n : Nat} (h : n < 16) : hexDigit? (Escape.hexDigit n) = some n := by
  have hall : ∀ n < 16, hexDigit? (Escape.hexDigit n) = some n := by decide
  exact hall n h

/-- A code unit below the surrogates is a character whatever comes next. -/
theorem characters_unit {n : Nat} (h : n < 0xD800) (es : List Element) :
    characters (.unit n :: es) = Char.ofNat n :: characters es := by
  have hhigh : isHigh n = false := by
    simp only [isHigh, Bool.and_eq_false_iff, decide_eq_false_iff_not]
    omega
  have hlow : isLow n = false := by
    simp only [isLow, Bool.and_eq_false_iff, decide_eq_false_iff_not]
    omega
  have halone : alone n = Char.ofNat n := by
    rw [alone, hhigh, hlow]
    rfl
  cases es with
  | nil => exact congrArg (· :: characters []) halone
  | cons e es =>
    cases e with
    | char c => exact congrArg (· :: characters (.char c :: es)) halone
    | unit m => rw [characters, hhigh, halone, Bool.false_and, if_neg Bool.false_ne_true]

/-- A character is printed as one element that spells it. -/
theorem exists_element (c : Char) : ∃ e : Element,
    (∀ text es, Elements text es → Elements (stringChar c ++ text) (e :: es)) ∧
      ∀ es, characters (e :: es) = c :: characters es := by
  have hescaped {d : Char} (h : escaped? d = some c) : ∃ e : Element,
      (∀ text es, Elements text es → Elements (['\\', d] ++ text) (e :: es)) ∧
        ∀ es, characters (e :: es) = c :: characters es :=
    ⟨.char c, fun _ _ hes => .escaped h hes, fun _ => by rw [characters]⟩
  unfold stringChar
  split
  · next h => exact hescaped (by rcases h with rfl | rfl <;> rfl)
  split
  · next h => exact hescaped (by rw [h]; rfl)
  split
  · next h => exact hescaped (by rw [h]; rfl)
  split
  · next h => exact hescaped (by rw [h]; rfl)
  split
  · next h => exact hescaped (by rw [h]; rfl)
  split
  · next h => exact hescaped (by rw [h]; rfl)
  -- what is left has no name: control characters go by their number, the others as they are
  split
  · next h =>
    have hzero : hexDigit? '0' = some 0 := rfl
    have hhigh : hexDigit? (Escape.hexDigit (c.toNat / 16)) = some (c.toNat / 16) :=
      hexDigit?_hexDigit (by omega)
    have hlow : hexDigit? (Escape.hexDigit (c.toNat % 16)) = some (c.toNat % 16) :=
      hexDigit?_hexDigit (by omega)
    have hunit : ((0 * 16 + 0) * 16 + c.toNat / 16) * 16 + c.toNat % 16 = c.toNat := by omega
    refine ⟨.unit c.toNat, fun text es hes => ?_, fun es => ?_⟩
    · have hnumbered := Elements.numbered hzero hzero hhigh hlow hes
      rwa [hunit] at hnumbered
    · rw [characters_unit (by omega), Char.ofNat_toNat]
  · next hspecial _ _ _ _ _ hcontrol =>
    obtain ⟨hquote, hbackslash⟩ := not_or.1 hspecial
    exact ⟨.char c, fun _ _ hes => .unescaped (Nat.le_of_not_lt hcontrol) hquote hbackslash hes,
      fun _ => by rw [characters]⟩

theorem exists_elements (cs : List Char) :
    ∃ es, Elements (cs.flatMap stringChar) es ∧ characters es = cs := by
  induction cs with
  | nil => exact ⟨[], .nil, rfl⟩
  | cons c cs ih =>
    obtain ⟨es, hes, hcs⟩ := ih
    obtain ⟨e, he, hc⟩ := exists_element c
    exact ⟨e :: es, List.flatMap_cons ▸ he _ _ hes, by rw [hc, hcs]⟩

/-- What is between the quotes, and the closing quote. -/
theorem quoted_text (s : String) : Quoted (s.toList.flatMap stringChar ++ ['\x22']) s := by
  obtain ⟨es, hes, hs⟩ := exists_elements s.toList
  have hquoted := Quoted.intro hes
  rwa [hs, String.ofList_toList] at hquoted

/-- Induction with a hypothesis for every part. -/
@[elab_as_elim]
theorem inductOnParts {motive : Json → Prop} (null : motive .null)
    (number : ∀ n, motive (.number n)) (string : ∀ s, motive (.string s))
    (array : ∀ items, (∀ j ∈ items, motive j) → motive (.array items))
    (object : ∀ members, (∀ m ∈ members, motive m.2) → motive (.object members)) (j : Json) :
    motive j :=
  Json.rec (motive_2 := fun items => ∀ j ∈ items, motive j)
    (motive_3 := fun members => ∀ m ∈ members, motive m.2) (motive_4 := fun m => motive m.2)
    null number string array object
    (by simp) (fun _ _ hj hjs => by simpa using ⟨hj, hjs⟩)
    (by simp) (fun _ _ hm hms => by simpa using ⟨hm, fun k j h => hms (k, j) h⟩)
    (fun _ _ h => h) j

mutual

/-- The document that is printed. -/
def content : Json → Content
  | .null => .null
  | .number n => .number n
  | .string s => .string s
  | .array items => .array (contentItems items)
  | .object members => .object (contentMembers members)

def contentItems : List Json → List Content
  | [] => []
  | j :: js => j.content :: contentItems js

def contentMembers : List (String × Json) → List (String × Content)
  | [] => []
  | (k, j) :: ms => (k, j.content) :: contentMembers ms

end

theorem contentItems_eq_map (js : List Json) : contentItems js = js.map content := by
  induction js with
  | nil => rfl
  | cons j js ih => rw [contentItems, ih, List.map_cons]

theorem contentMembers_eq_map (ms : List (String × Json)) :
    contentMembers ms = ms.map fun m => (m.1, m.2.content) := by
  induction ms with
  | nil => rfl
  | cons m ms ih => rw [contentMembers, ih, List.map_cons]

theorem space_nil : Space [] := List.forall_mem_nil _

theorem space_lineStart (layout : Layout) (level : Nat) : Space (layout.lineStart level) := by
  cases layout with
  | compact => exact space_nil
  | pretty =>
    intro c hc
    rcases List.mem_cons.1 hc with rfl | hc
    · rfl
    · rw [List.eq_of_mem_replicate hc]
      rfl

theorem exists_colon (layout : Layout) : ∃ w, Space w ∧ layout.colon = ':' :: w := by
  cases layout with
  | compact => exact ⟨[], space_nil, rfl⟩
  | pretty => exact ⟨[' '], List.forall_mem_singleton.2 rfl, rfl⟩

/-- The parts of a container as they are printed. -/
def partTexts (start : List Char) : List (List Char) → List Char
  | [] => []
  | p :: ps => start ++ p ++ comma ps ++ partTexts start ps

theorem textItems_eq (layout : Layout) (level : Nat) (js : List Json) :
    textItems layout level js = partTexts (layout.lineStart level) (js.map (text layout level)) := by
  induction js with
  | nil => rfl
  | cons j js ih => rw [textItems, ih, List.map_cons, partTexts, comma, comma, List.isEmpty_map]

def memberText (layout : Layout) (level : Nat) (m : String × Json) : List Char :=
  stringText m.1 ++ layout.colon ++ m.2.text layout level

theorem textMembers_eq (layout : Layout) (level : Nat) (ms : List (String × Json)) :
    textMembers layout level ms =
      partTexts (layout.lineStart level) (ms.map (memberText layout level)) := by
  induction ms with
  | nil => rfl
  | cons m ms ih =>
    rw [textMembers, ih, List.map_cons, partTexts, memberText, comma, comma, List.isEmpty_map]
    simp only [List.append_assoc]

/-- Printed parts follow the rule for parts. By induction on the parts behind the first one. -/
theorem parts_partTexts {α β : Type} {P : List Char → α → Prop} {start w : List Char}
    (hstart : Space start) (hw : Space w) {f : β → List Char} {g : β → α} (x : β) (xs : List β)
    (h : ∀ y ∈ x :: xs, P (f y) (g y)) :
    Parts P (partTexts start ((x :: xs).map f) ++ w) ((x :: xs).map g) := by
  induction xs generalizing x with
  | nil =>
    have hx := Parts.one hstart (h x List.mem_cons_self) hw
    simpa [partTexts, comma] using hx
  | cons y ys ih =>
    obtain ⟨hx, hys⟩ := List.forall_mem_cons.1 h
    have hparts := Parts.more hstart hx space_nil (ih y hys)
    rw [List.append_nil] at hparts
    have htext : partTexts start ((x :: y :: ys).map f) ++ w =
        start ++ f x ++ ',' :: (partTexts start ((y :: ys).map f) ++ w) := by
      rw [List.map_cons, partTexts, List.append_assoc, List.append_assoc]
      rfl
    rwa [htext]

/-- What is printed for a document inside any number of containers spells this document. -/
theorem denotes_text (layout : Layout) (level : Nat) (j : Json) :
    Denotes (j.text layout level) j.content := by
  induction j using inductOnParts generalizing level with
  | null => exact .null
  | number n => exact .number (number_text n)
  | string s => exact .string (quoted_text s)
  | array items ih =>
    rw [content, contentItems_eq_map, text]
    cases items with
    | nil => exact .array (.empty space_nil)
    | cons j js =>
      rw [List.isEmpty_cons, if_neg Bool.false_ne_true, textItems_eq]
      exact .array (.parts (parts_partTexts (space_lineStart layout (level + 1))
        (space_lineStart layout level) j js fun k hk => ih k hk (level + 1)))
  | object members ih =>
    rw [content, contentMembers_eq_map, text]
    cases members with
    | nil => exact .object (.empty space_nil)
    | cons m ms =>
      rw [List.isEmpty_cons, if_neg Bool.false_ne_true, textMembers_eq]
      refine .object (.parts (parts_partTexts (space_lineStart layout (level + 1))
        (space_lineStart layout level) m ms fun k hk => ?_))
      obtain ⟨w, hw, hcolon⟩ := exists_colon layout
      have hmember := Member.intro (quoted_text k.1) space_nil hw (ih k hk (level + 1))
      rw [memberText, stringText, hcolon]
      simpa only [List.append_assoc, List.append_nil, List.cons_append] using hmember

theorem read?_text (layout : Layout) (j : Json) : read? (j.text layout 0) = some j.content := by
  have hspells := Spells.intro space_nil (denotes_text layout 0 j) space_nil
  rw [List.nil_append, List.append_nil] at hspells
  exact read?_eq_some_iff.2 hspells

namespace Content

mutual

/-- No null at any level. -/
def NullFree : Content → Prop
  | .array items => NullFreeItems items
  | .object members => NullFreeMembers members
  | .boolean _ | .number _ | .string _ => True
  | .null => False

def NullFreeItems : List Content → Prop
  | [] => True
  | d :: ds => d.NullFree ∧ NullFreeItems ds

def NullFreeMembers : List (String × Content) → Prop
  | [] => True
  | (_, d) :: ms => d.NullFree ∧ NullFreeMembers ms

end

theorem nullFree_array {ds : List Content} : (array ds).NullFree ↔ ∀ d ∈ ds, d.NullFree := by
  rw [NullFree]
  induction ds with
  | nil => simp [NullFreeItems]
  | cons d ds ih => simp [NullFreeItems, ih]

theorem nullFree_object {ms : List (String × Content)} :
    (object ms).NullFree ↔ ∀ m ∈ ms, m.2.NullFree := by
  rw [NullFree]
  induction ms with
  | nil => simp [NullFreeMembers]
  | cons m ms ih => rw [NullFreeMembers, ih, List.forall_mem_cons]

end Content

/-- The document in a file, which is encoded in UTF-8. -/
def readBytes? (b : Bytes) : Option Content := (Utf8.decode? b).bind read?

end Json

namespace Value

mutual

/-- What the JSON text of a tree spells: exact integers, lossily decoded strings, lists in order, and of the
entries whose keys have equal text the last one, in the order of the texts. -/
def projection : Value → Json.Content
  | .integer n => .number n.toInt
  | .bytes b => .string (String.ofList (Utf8.lossy b))
  | .list items => .array (projectionItems items)
  | .dict entries => .object (Entries.ofList (projectionEntries entries))
  | .hole => .null

def projectionItems : List Value → List Json.Content
  | [] => []
  | v :: vs => v.projection :: projectionItems vs

def projectionEntries : List (Bytes × Value) → List (String × Json.Content)
  | [] => []
  | (k, v) :: es => (String.ofList (Utf8.lossy k), v.projection) :: projectionEntries es

end

theorem projectionItems_eq_map (vs : List Value) : projectionItems vs = vs.map projection := by
  induction vs with
  | nil => rfl
  | cons v vs ih => rw [projectionItems, ih, List.map_cons]

theorem projectionEntries_eq_map (es : List (Bytes × Value)) :
    projectionEntries es = es.map fun e => (String.ofList (Utf8.lossy e.1), e.2.projection) := by
  induction es with
  | nil => rfl
  | cons e es ih => rw [projectionEntries, ih, List.map_cons]

theorem content_toJson (v : Value) : v.toJson.content = v.projection := by
  induction v with
  | integer n => rfl
  | bytes b => rfl
  | list vs ih =>
    rw [toJson, toJsonItems_eq_map, Json.content, Json.contentItems_eq_map, projection,
      projectionItems_eq_map, List.map_map]
    exact congrArg Json.Content.array (List.map_congr_left ih)
  | dict es ih =>
    rw [toJson, toJsonEntries_eq_map, Json.content, Json.contentMembers_eq_map, Entries.map_ofList,
      projection, projectionEntries_eq_map, List.map_map]
    refine congrArg (fun ms => Json.Content.object (Entries.ofList ms)) (List.map_congr_left fun e he => ?_)
    exact congrArg (Prod.mk _) (ih e he)
  | hole => rfl

theorem nullFree_projection {v : Value} (h : v.HoleFree) : v.projection.NullFree := by
  induction v with
  | list vs ih =>
    rw [projection, projectionItems_eq_map, Json.Content.nullFree_array]
    exact List.forall_mem_map.2 fun v hv => ih v hv (holeFree_list.1 h v hv)
  | dict es ih =>
    rw [projection, projectionEntries_eq_map, Json.Content.nullFree_object]
    intro m hm
    obtain ⟨e, he, rfl⟩ := List.mem_map.1 (Entries.mem_of_mem_ofList hm)
    exact ih e he (holeFree_dict.1 h e he)
  | hole => exact h.elim
  | _ => trivial

end Value

/-- The reader accepts just what the grammar derives. In both layouts it reads the JSON text of a tree without
holes, and the bytes that are written to a sink, as one document, the projection of the tree, which is free
of nulls. -/
theorem json_text_reads_as_projection :
    (∀ text d, Json.read? text = some d ↔ Json.Spells text d) ∧
    ∀ v : Value, v.HoleFree → v.projection.NullFree ∧ v.toJson.content = v.projection ∧
      ∀ layout, ∃ text, jsonText layout v = .ok text ∧
        Json.read? text.toList = some v.projection ∧
        ∃ bytes, Json.readBytes? bytes = some v.projection ∧
          ∀ (σ : Type) [Sink σ] (s : σ), (Format.json layout).write v s = Sink.write s [bytes] := by
  refine ⟨fun text d => Json.read?_eq_some_iff, fun v hv => ⟨Value.nullFree_projection hv,
    v.content_toJson, fun layout => ?_⟩⟩
  have hread : Json.read? (v.toJson.text layout 0) = some v.projection := by
    rw [Json.read?_text, v.content_toJson]
  refine ⟨_, jsonText_of_holeFree hv layout, by rw [String.toList_ofList, hread],
    Utf8.encode (v.toJson.text layout 0), ?_, fun σ _ s => ?_⟩
  · rw [Json.readBytes?, Utf8.decode?_encode, Option.bind_some, hread]
  · rw [Format.write_of_holeFree hv, Format.chunks]

/-- A string of a quote, a line break and a byte that is not UTF-8. The compact text has one line and the
pretty text seven, and they spell one document. -/
theorem json_text_reads_as_projection_nested :
    ∃ pretty, jsonText .pretty (.dict [([97], .list [.integer (-5), .bytes [34, 10, 255], .list []])]) =
        .ok pretty ∧
      pretty.toList.count '\n' = 6 ∧
      Json.read? pretty.toList =
        Json.read? "\x7b\"a\":[-5,\"\\\"\\n\uFFFD\",[]]\x7d".toList ∧
      Json.read? pretty.toList =
        some (.object [("a", .array [.number (-5), .string "\"\n\uFFFD", .array []])]) := by
  have hfree : (Value.dict [([97], .list [.integer (-5), .bytes [34, 10, 255], .list []])]).HoleFree := by
    simp [Value.HoleFree, Value.HoleFreeEntries, Value.HoleFreeItems]
  have hprojection :
      (Value.dict [([97], .list [.integer (-5), .bytes [34, 10, 255], .list []])]).projection =
        .object [("a", .array [.number (-5), .string "\"\n\uFFFD", .array []])] := by
    have hkey : Utf8.lossy [97] = ['a'] := by decide +kernel
    have hbytes : Utf8.lossy [34, 10, 255] = ['\x22', '\n', '\uFFFD'] := by decide +kernel
    simp only [Value.projection, Value.projectionEntries, Value.projectionItems, hkey, hbytes]
    rfl
  obtain ⟨-, -, hlayouts⟩ := json_text_reads_as_projection.2 _ hfree
  obtain ⟨compact, hcompact, hread, -⟩ := hlayouts .compact
  obtain ⟨pretty, hpretty, hread', -⟩ := hlayouts .pretty
  rw [hprojection] at hread hread'
  have htext : jsonText .compact
      (.dict [([97], .list [.integer (-5), .bytes [34, 10, 255], .list []])]) =
        .ok "\x7b\"a\":[-5,\"\\\"\\n\uFFFD\",[]]\x7d" := by
    decide +kernel
  have hlines : ∃ text, jsonText .pretty
      (.dict [([97], .list [.integer (-5), .bytes [34, 10, 255], .list []])]) = .ok text ∧
        text.toList.count '\n' = 6 := ⟨_, rfl, by decide +kernel⟩
  rw [htext] at hcompact
  cases hcompact
  obtain ⟨text, htext, hcount⟩ := hlines
  rw [hpretty] at htext
  cases htext
  exact ⟨pretty, hpretty, hcount, hread'.trans hread.symm, hread'⟩

end Bencode
