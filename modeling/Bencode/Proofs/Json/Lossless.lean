import Bencode.Proofs.Json.Members

/-! # JSON tells trees of texts apart

Lossy decoding confuses no two byte strings that are UTF-8 and keeps their order. So if all byte strings and
keys of a tree are UTF-8, every entry has a member of its own at its own place, and the document of the tree
can be traced back to the tree.
-/
namespace Bencode

theorem eq_of_map_eq {α β : Type} {f : α → β} {xs ys : List α}
    (hf : ∀ x ∈ xs, ∀ y ∈ ys, f x = f y → x = y) (h : xs.map f = ys.map f) : xs = ys := by
  induction xs generalizing ys with
  | nil => exact (List.map_eq_nil_iff.1 h.symm).symm
  | cons x xs ih =>
    obtain _ | ⟨y, ys⟩ := ys
    · cases h
    · rw [List.map_cons, List.map_cons, List.cons.injEq] at h
      rw [hf x List.mem_cons_self y List.mem_cons_self h.1]
      refine congrArg (y :: ·) (ih ?_ h.2)
      intro x' hx' y' hy'
      exact hf x' (List.mem_cons_of_mem x hx') y' (List.mem_cons_of_mem y hy')

theorem Json.name_inj {k l : Bytes} (hk : Utf8.Valid k) (hl : Utf8.Valid l)
    (h : Json.name k = Json.name l) : k = l :=
  hk.lossy_inj hl (String.ofList_injective h)

namespace Value

/-- All byte strings of the tree are UTF-8, keys included. -/
def Textual (v : Value) : Prop := ∀ s ∈ v.strings, Utf8.Valid s

theorem textual_list {vs : List Value} : (list vs).Textual ↔ ∀ v ∈ vs, v.Textual := by
  simp only [Textual, mem_strings_list]
  exact ⟨fun h v hv s hs => h s ⟨v, hv, hs⟩, fun h s ⟨v, hv, hs⟩ => h v hv s hs⟩

theorem textual_dict {es : List (Bytes × Value)} :
    (dict es).Textual ↔ (∀ k ∈ Entries.keys es, Utf8.Valid k) ∧ ∀ e ∈ es, e.2.Textual := by
  simp only [Textual, mem_strings_dict]
  constructor
  · intro h
    refine ⟨fun k hk => ?_, fun e he s hs => h s ⟨e, he, .inr hs⟩⟩
    obtain ⟨e, he, rfl⟩ := List.mem_map.1 hk
    exact h e.1 ⟨e, he, .inl rfl⟩
  · rintro ⟨hkeys, hvs⟩ s ⟨e, he, rfl | hs⟩
    · exact hkeys e.1 (List.mem_map_of_mem he)
    · exact hvs e he s hs

/-- Trees of texts are the same if their documents are. By induction on one of them, and its kind is that of
the other. -/
theorem eq_of_projection_eq {a b : Value} (ha : a.Sorted) (hb : b.Sorted) (hta : a.Textual)
    (htb : b.Textual) (h : a.projection = b.projection) : a = b := by
  induction a generalizing b with
  | integer m =>
    cases b with
    | integer n =>
      have hn : (m.toInt : Rat) = n.toInt := Json.Content.number.inj h
      rw [Int64.toInt_inj.1 (Rat.intCast_inj.1 hn)]
    | _ => cases h
  | bytes s =>
    cases b with
    | bytes t =>
      have hs : Utf8.Valid s := hta s List.mem_cons_self
      have ht : Utf8.Valid t := htb t List.mem_cons_self
      rw [Json.name_inj hs ht (Json.Content.string.inj h)]
    | _ => cases h
  | list vs ih =>
    cases b with
    | list ws =>
      rw [projection, projection, projectionItems_eq_map, projectionItems_eq_map] at h
      refine congrArg list (eq_of_map_eq ?_ (Json.Content.array.inj h))
      intro v hv w hw
      exact ih v hv (sorted_list.1 ha v hv) (sorted_list.1 hb w hw) (textual_list.1 hta v hv)
        (textual_list.1 htb w hw)
    | _ => cases h
  | dict es ih =>
    cases b with
    | dict fs =>
      obtain ⟨hes, hvs⟩ := sorted_dict.1 ha
      obtain ⟨hfs, hws⟩ := sorted_dict.1 hb
      obtain ⟨hkeys, htvs⟩ := textual_dict.1 hta
      obtain ⟨hkeys', htws⟩ := textual_dict.1 htb
      rw [projection_dict, projection_dict, Json.Content.object.injEq,
        ofList_membersOf_of_valid hes hkeys, ofList_membersOf_of_valid hfs hkeys'] at h
      refine congrArg dict (eq_of_map_eq ?_ h)
      rintro ⟨k, v⟩ hv ⟨l, w⟩ hw heq
      obtain ⟨hname, hvalue⟩ := Prod.mk.inj heq
      have hk : Utf8.Valid k := hkeys k (List.mem_map_of_mem hv)
      have hl : Utf8.Valid l := hkeys' l (List.mem_map_of_mem hw)
      have hvw : v = w := ih (k, v) hv (hvs _ hv) (hws _ hw) (htvs _ hv) (htws _ hw) hvalue
      rw [Json.name_inj hk hl hname, hvw]
    | _ => cases h
  | hole =>
    cases b with
    | hole => rfl
    | _ => cases h

end Value

/-- Different trees of texts without holes have different JSON, as text and as what is added to the bytes in
a sink, even in different layouts. -/
theorem json_tells_texts_apart {a b : Value} (ha : a.Sorted) (hb : b.Sorted) (hfa : a.HoleFree)
    (hfb : b.HoleFree) (hta : a.Textual) (htb : b.Textual) (layout layout' : Json.Layout) :
    (jsonText layout a = jsonText layout' b → a = b) ∧
      ∀ s : Bytes, (Format.json layout).write a s = (Format.json layout').write b s → a = b := by
  constructor
  · intro h
    rw [jsonText_of_holeFree hfa, jsonText_of_holeFree hfb, Except.ok.injEq] at h
    have htext : a.toJson.text layout 0 = b.toJson.text layout' 0 := String.ofList_injective h
    have hread := Json.read?_text layout a.toJson
    rw [htext, Json.read?_text, b.content_toJson, a.content_toJson, Option.some.injEq] at hread
    exact Value.eq_of_projection_eq ha hb hta htb hread.symm
  · intro s h
    rw [write_json_bytes hfa, write_json_bytes hfb] at h
    have hbytes := List.append_cancel_left (Prod.mk.inj h).2
    have hread := readBytes?_json layout a
    rw [hbytes, readBytes?_json, Option.some.injEq] at hread
    exact Value.eq_of_projection_eq ha hb hta htb hread.symm

/-- A number and its digits differ, also where one text is compact and the other pretty. -/
theorem json_tells_texts_apart_digits :
    (Value.dict [([0xC3, 0xA9], .integer 1)]).Sorted ∧ (Value.dict [([0xC3, 0xA9], .integer 1)]).HoleFree ∧
      (Value.dict [([0xC3, 0xA9], .bytes [49])]).Textual ∧
      jsonText .compact (.dict [([0xC3, 0xA9], .integer 1)]) ≠
        jsonText .pretty (.dict [([0xC3, 0xA9], .bytes [49])]) ∧
      (Format.json .compact).write (.dict [([0xC3, 0xA9], .integer 1)]) ([] : Bytes) ≠
        (Format.json .pretty).write (.dict [([0xC3, 0xA9], .bytes [49])]) [] := by
  have hsorted (w : Value) (hw : w.Sorted) : (Value.dict [([0xC3, 0xA9], w)]).Sorted := by
    simp [Value.Sorted, Value.SortedEntries, Entries.Sorted, Entries.keys, hw]
  have hfree (w : Value) (hw : w.HoleFree) : (Value.dict [([0xC3, 0xA9], w)]).HoleFree := by
    simp [Value.HoleFree, Value.HoleFreeEntries, hw]
  have hnumber : (Value.dict [([0xC3, 0xA9], .integer 1)]).Textual := by
    unfold Value.Textual
    decide +kernel
  have hdigits : (Value.dict [([0xC3, 0xA9], .bytes [49])]).Textual := by
    unfold Value.Textual
    decide +kernel
  have hne : Value.dict [([0xC3, 0xA9], .integer 1)] ≠ .dict [([0xC3, 0xA9], .bytes [49])] := by simp
  obtain ⟨htext, hbytes⟩ := json_tells_texts_apart (hsorted (.integer 1) trivial)
    (hsorted (.bytes [49]) trivial) (hfree (.integer 1) trivial) (hfree (.bytes [49]) trivial) hnumber
    hdigits .compact .pretty
  refine ⟨hsorted _ trivial, hfree _ trivial, hdigits, fun h => hne (htext h), ?_⟩
  exact fun h => hne (hbytes [] h)

end Bencode
