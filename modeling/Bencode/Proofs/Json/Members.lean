import Bencode.Proofs.Json.Text
import Bencode.Proofs.Nodes
import Bencode.Proofs.Utf8.Order

/-! # The members of objects

The keys of a dictionary become the names of an object, and keys that are not UTF-8 may become one name. Of
those the greatest counts. So the document of a tree is found along the paths of the tree on which every key
is the last with its name, and every dictionary there is an object with one member a name.
-/
namespace Bencode

/-- The name under which the value of a key stands in an object. -/
def Json.name (key : Bytes) : String := String.ofList (Utf8.lossy key)

/-- A step into a document. -/
inductive Json.Step where
  | name (s : String)
  | item (i : Nat)

/-- The step into a document that a segment becomes. -/
def Segment.step : Segment → Json.Step
  | .key k => .name (Json.name k)
  | .index i => .item i

namespace Json.Content

def child? : Content → Step → Option Content
  | .object members, .name s => Entries.get? s members
  | .array items, .item i => items[i]?
  | _, _ => none

/-- The part of a document at the end of a path. -/
def follow? (d : Content) : List Step → Option Content
  | [] => some d
  | s :: rest => (d.child? s).bind fun e => e.follow? rest

theorem follow?_cons_eq_some {d e : Content} {s : Step} {q : List Step} :
    d.follow? (s :: q) = some e ↔ ∃ c, d.child? s = some c ∧ c.follow? q = some e := by
  rw [follow?, Option.bind_eq_some_iff]

end Json.Content

section
variable {es : List (Bytes × Value)}

/-- The members that the entries of a dictionary become. -/
structure MembersOf (es : List (Bytes × Value)) (members : List (String × Json.Content)) : Prop where
  increasing : (members.map fun m => Utf8.encode m.1.toList).Pairwise (· < ·)
  names : ∀ s, s ∈ Entries.keys members ↔ ∃ k ∈ Entries.keys es, Json.name k = s
  /-- The value is that of the greatest key with the name. -/
  values : ∀ s d, (s, d) ∈ members ↔
    ∃ k v, (k, v) ∈ es ∧ (∀ l ∈ Entries.keys es, Json.name l = s → l ≤ k) ∧ Json.name k = s ∧
      v.projection = d

/-- The members in the order of the entries, before names are compared. -/
def membersOf (es : List (Bytes × Value)) : List (String × Json.Content) :=
  es.map fun e => (Json.name e.1, e.2.projection)

theorem projection_dict (es : List (Bytes × Value)) :
    (Value.dict es).projection = .object (Entries.ofList (membersOf es)) := by
  rw [Value.projection, Value.projectionEntries_eq_map]
  rfl

theorem keys_membersOf (es : List (Bytes × Value)) :
    Entries.keys (membersOf es) = (Entries.keys es).map Json.name := by
  rw [Entries.keys, Entries.keys, membersOf, List.map_map, List.map_map]
  rfl

theorem get?_members (hs : Entries.Sorted es) {s : String} {d : Json.Content} :
    Entries.get? s (Entries.ofList (membersOf es)) = some d ↔
      ∃ k v, Entries.IsLast Json.name es k ∧ Entries.get? k es = some v ∧ Json.name k = s ∧
        v.projection = d :=
  Entries.get?_ofList_map hs Value.projection

theorem isLast_iff {k : Bytes} : Entries.IsLast Json.name es k ↔
    k ∈ Entries.keys es ∧ ∀ l ∈ Entries.keys es, Json.name l = Json.name k → l ≤ k :=
  Iff.rfl

theorem membersOf_ofList (hs : Entries.Sorted es) : MembersOf es (Entries.ofList (membersOf es)) where
  increasing := by
    have hsorted := Entries.sorted_ofList (membersOf es)
    rw [Entries.Sorted, Entries.keys, List.pairwise_map] at hsorted
    refine List.pairwise_map.2 (hsorted.imp fun {m n} hmn => ?_)
    exact Utf8.encode_lt_encode (String.lt_iff.1 hmn)
  names := fun s => by
    rw [Entries.mem_keys_ofList, keys_membersOf, List.mem_map]
  values := fun s d => by
    have hget : (s, d) ∈ Entries.ofList (membersOf es) ↔
        Entries.get? s (Entries.ofList (membersOf es)) = some d :=
      ⟨(Entries.sorted_ofList _).get?_of_mem, Entries.mem_of_get?_eq_some⟩
    rw [hget, get?_members hs]
    constructor
    · rintro ⟨k, v, hk, hv, rfl, rfl⟩
      exact ⟨k, v, Entries.mem_of_get?_eq_some hv, (isLast_iff.1 hk).2, rfl, rfl⟩
    · rintro ⟨k, v, hmem, hk, rfl, rfl⟩
      exact ⟨k, v, isLast_iff.2 ⟨List.mem_map_of_mem hmem, hk⟩, hs.get?_of_mem hmem, rfl, rfl⟩

/-- No member is lost just if no two keys have the same name. -/
theorem length_members_iff (hs : Entries.Sorted es) :
    (Entries.ofList (membersOf es)).length = es.length ↔
      ∀ k ∈ Entries.keys es, ∀ l ∈ Entries.keys es, Json.name k = Json.name l → k = l := by
  have hlength : es.length = (membersOf es).length := (List.length_map _).symm
  rw [hlength, Entries.length_ofList_eq_iff, keys_membersOf, List.nodup_map_iff_inj_on hs.nodup]

/-- UTF-8 keys keep their order, so that nothing is lost or moved. -/
theorem ofList_membersOf_of_valid (hs : Entries.Sorted es)
    (hvalid : ∀ k ∈ Entries.keys es, Utf8.Valid k) :
    Entries.ofList (membersOf es) = membersOf es := by
  apply Entries.ofList_of_sorted
  rw [Entries.Sorted, keys_membersOf, List.pairwise_map]
  refine List.Pairwise.imp_of_mem (fun {k l} hk hl hkl => ?_) hs
  rw [String.lt_iff, Json.name, Json.name, String.toList_ofList, String.toList_ofList]
  exact ((hvalid k hk).lossy_lt_iff (hvalid l hl)).2 hkl

end

namespace Value

/-- The child behind the segment is kept: an item is, and the value of the last key with its name. -/
inductive KeepsChild : Value → Segment → Value → Prop where
  | item {items : List Value} {i : Nat} {c : Value} (h : items[i]? = some c) :
    KeepsChild (.list items) (.index i) c
  | entry {es : List (Bytes × Value)} {k : Bytes} {c : Value} (hk : Entries.IsLast Json.name es k)
    (h : Entries.get? k es = some c) : KeepsChild (.dict es) (.key k) c

/-- The node at the end of the path, if it is kept all the way. -/
inductive Keeps : Value → Path → Value → Prop where
  | here (v : Value) : Keeps v [] v
  | child {v c w : Value} {s : Segment} {p : Path} (hc : v.KeepsChild s c) (h : c.Keeps p w) :
    Keeps v (s :: p) w

variable {v w : Value} {d : Json.Content}

theorem KeepsChild.child? {s : Segment} (h : v.KeepsChild s w) : v.child? s = some w := by
  cases h with
  | item h => exact h
  | entry _ h => exact h

theorem Keeps.follow? {p : Path} (h : v.Keeps p w) : v.follow? p = some w := by
  induction h with
  | here v => rfl
  | child hc _ ih => exact follow?_cons_eq_some.2 ⟨_, hc.child?, ih⟩

/-- A step into the document of a tree leads to the document of a child that is kept. -/
theorem child?_projection (hv : v.Sorted) {t : Json.Step} :
    v.projection.child? t = some d ↔ ∃ s c, v.KeepsChild s c ∧ s.step = t ∧ c.projection = d := by
  cases v with
  | list items =>
    rw [projection, projectionItems_eq_map]
    cases t with
    | name n =>
      refine ⟨fun h => (by cases h), ?_⟩
      rintro ⟨s, c, ⟨⟩, ⟨⟩, -⟩
    | item i =>
      rw [Json.Content.child?, List.getElem?_map, Option.map_eq_some_iff]
      constructor
      · rintro ⟨c, hc, rfl⟩
        exact ⟨.index i, c, .item hc, rfl, rfl⟩
      · rintro ⟨s, c, hc, hi, rfl⟩
        cases hc with
        | item hc => exact ⟨c, Json.Step.item.inj hi ▸ hc, rfl⟩
  | dict es =>
    rw [projection_dict]
    cases t with
    | item i =>
      refine ⟨fun h => (by cases h), ?_⟩
      rintro ⟨s, c, ⟨⟩, ⟨⟩, -⟩
    | name n =>
      rw [Json.Content.child?, get?_members (sorted_dict.1 hv).1]
      constructor
      · rintro ⟨k, c, hk, hc, rfl, rfl⟩
        exact ⟨.key k, c, .entry hk hc, rfl, rfl⟩
      · rintro ⟨s, c, hc, hn, rfl⟩
        cases hc with
        | entry hk hc => exact ⟨_, c, hk, hc, Json.Step.name.inj hn, rfl⟩
  | _ =>
    refine ⟨fun h => (by cases t <;> cases h), ?_⟩
    rintro ⟨s, c, ⟨⟩, -⟩

/-- The document of a tree consists of the documents of the nodes that are kept. -/
theorem follow?_projection (hv : v.Sorted) {q : List Json.Step} :
    v.projection.follow? q = some d ↔
      ∃ p w, v.Keeps p w ∧ p.map Segment.step = q ∧ w.projection = d := by
  induction q generalizing v with
  | nil =>
    rw [Json.Content.follow?, Option.some.injEq]
    constructor
    · intro h
      exact ⟨[], v, .here v, rfl, h⟩
    · rintro ⟨p, w, hw, hp, rfl⟩
      cases List.map_eq_nil_iff.1 hp
      cases hw
      rfl
  | cons t q ih =>
    simp only [Json.Content.follow?_cons_eq_some, child?_projection hv]
    constructor
    · rintro ⟨e, ⟨s, c, hc, rfl, rfl⟩, hq⟩
      obtain ⟨p, w, hw, rfl, rfl⟩ := (ih (hv.child? hc.child?)).1 hq
      exact ⟨s :: p, w, .child hc hw, rfl, rfl⟩
    · rintro ⟨p, w, hw, hp, rfl⟩
      cases hw with
      | here => cases hp
      | child hc hw =>
        obtain ⟨rfl, rfl⟩ := List.cons.inj hp
        exact ⟨_, ⟨_, _, hc, rfl, rfl⟩, (ih (hv.child? hc.child?)).2 ⟨_, _, hw, rfl, rfl⟩⟩

end Value

theorem readBytes?_json (layout : Json.Layout) (v : Value) :
    Json.readBytes? (Utf8.encode (v.toJson.text layout 0)) = some v.projection := by
  rw [Json.readBytes?, Utf8.decode?_encode, Option.bind_some, Json.read?_text, v.content_toJson]

theorem write_json_bytes {v : Value} (hv : v.HoleFree) (layout : Json.Layout) (s : Bytes) :
    (Format.json layout).write v s = (.ok (), s ++ Utf8.encode (v.toJson.text layout 0)) := by
  rw [Format.write_of_holeFree hv, Format.chunks]
  rfl

/-- The document that is written of a tree holds the nodes that are kept, at the places that their paths
name. A dictionary anywhere in the tree becomes an object with one member for each text of its keys, in the
order of the texts, with the value of the greatest key. No member is lost just if all texts differ, and UTF-8
keys have different texts and keep their order. -/
theorem object_keeps_greatest_key {v : Value} (hv : v.Sorted) (hfree : v.HoleFree) :
    (∀ layout, ∃ bytes, Json.readBytes? bytes = some v.projection ∧
        ∀ s : Bytes, (Format.json layout).write v s = (.ok (), s ++ bytes)) ∧
      (∀ q d, v.projection.follow? q = some d ↔
        ∃ p w, v.Keeps p w ∧ p.map Segment.step = q ∧ w.projection = d) ∧
      ∀ es, .dict es ∈ v.nodes → ∃ members, (Value.dict es).projection = .object members ∧
        MembersOf es members ∧
        (members.length = es.length ↔
          ∀ k ∈ Entries.keys es, ∀ l ∈ Entries.keys es, Json.name k = Json.name l → k = l) ∧
        ((∀ k ∈ Entries.keys es, Utf8.Valid k) →
          members.length = es.length ∧ members = es.map fun e => (Json.name e.1, e.2.projection)) := by
  refine ⟨fun layout => ⟨_, readBytes?_json layout v, write_json_bytes hfree layout⟩,
    fun q d => Value.follow?_projection hv, fun es hes => ?_⟩
  have hsorted : Entries.Sorted es := (Value.sorted_dict.1 (hv.of_mem_nodes hes)).1
  refine ⟨_, projection_dict es, membersOf_ofList hsorted, length_members_iff hsorted, fun hvalid => ?_⟩
  rw [ofList_membersOf_of_valid hsorted hvalid]
  exact ⟨List.length_map _, rfl⟩

/-- Two keys that are not UTF-8 share a name, which comes before that of the smallest key. -/
theorem object_keeps_greatest_key_reordered :
    let es := [([0xEF, 0xBF, 0xBF], .integer 1), ([0xFE], .integer 2), ([0xFF], .integer 3)]
    (Value.list [.dict es]).Sorted ∧ (Value.list [.dict es]).HoleFree ∧
      (Value.list [.dict es]).projection.follow? [.item 0] =
        some (.object [("\uFFFD", .number 3), ("\uFFFF", .number 1)]) ∧
      MembersOf es [("\uFFFD", .number 3), ("\uFFFF", .number 1)] := by
  intro es
  have hkeys : Entries.Sorted es := by decide
  have hsorted : (Value.list [.dict es]).Sorted := ⟨⟨hkeys, trivial, trivial, trivial, trivial⟩, trivial⟩
  have hfree : (Value.list [.dict es]).HoleFree := ⟨⟨trivial, trivial, trivial, trivial⟩, trivial⟩
  have hobject : (Value.dict es).projection =
      .object [("\uFFFD", .number 3), ("\uFFFF", .number 1)] := by
    have h1 : Utf8.lossy [0xEF, 0xBF, 0xBF] = ['\uFFFF'] := by decide +kernel
    have h2 : Utf8.lossy [0xFE] = ['\uFFFD'] := by decide +kernel
    have h3 : Utf8.lossy [0xFF] = ['\uFFFD'] := by decide +kernel
    simp only [es, Value.projection, Value.projectionEntries, h1, h2, h3]
    rfl
  obtain ⟨-, hfollow, hmembers⟩ := object_keeps_greatest_key hsorted hfree
  refine ⟨hsorted, hfree, ?_, ?_⟩
  · exact (hfollow _ _).2 ⟨[.index 0], .dict es, .child (.item rfl) (.here _), rfl, hobject⟩
  · obtain ⟨members, hdict, hof, -⟩ := hmembers es (by simp [Value.nodes, Value.nodesItems])
    rw [hobject, Json.Content.object.injEq] at hdict
    rwa [hdict]

end Bencode
