import CiWorkflow.Proofs.Json.Markers
import CiWorkflow.Render.Format

set_option autoImplicit false

namespace CiWorkflow.Render

open Yaml

section Marking

variable (n : Nat)

theorem tags_markMember (i : Nat) (k v : Value) (hv : tags (markFrom n i v).1 = tags v) :
    tags (markMember n i k v).1 = tags v := by
  unfold markMember
  split
  · rename_i s hs
    rw [eq_string_of_script hs, tags, tags]
    all_goals simp
  · exact hv

mutual

theorem tags_markFrom (i : Nat) (v : Value) : tags (markFrom n i v).1 = tags v := by
  cases v with
  | sequence items =>
    rw [markFrom_sequence, tags, tags, tags_markItems i items]
  | mapping entries =>
    rw [markFrom_mapping, tags, tags, tags_markEntries i entries]
  | tagged t v =>
    rw [markFrom_tagged, tags, tags, tags_markFrom i v]
  | _ => rw [markFrom] <;> simp

theorem tags_markItems (i : Nat) (vs : List Value) : itemTags (markItems n i vs).1 = itemTags vs := by
  cases vs with
  | nil => rw [markItems]
  | cons v rest => rw [markItems_cons, itemTags, itemTags, tags_markFrom i v, tags_markItems _ rest]

theorem tags_markEntries (i : Nat) (es : List (Value × Value)) : entryTags (markEntries n i es).1 = entryTags es := by
  cases es with
  | nil => rw [markEntries]
  | cons e rest =>
    obtain ⟨k, v⟩ := e
    rw [markEntries_cons, entryTags, entryTags, tags_markMember n i k v (tags_markFrom i v), tags_markEntries _ rest]

end

variable {n}

theorem mentions_markMember {i : Nat} {k v : Value}
    (hv : Mentions n (texts (markFrom n i v).1) (List.range' i (markFrom n i v).2.length)) :
    Mentions n (texts (markMember n i k v).1) (List.range' i (markMember n i k v).2.length) := by
  unfold markMember
  split
  · exact .reference .nil
  · exact hv

mutual

/-- The texts of a marked value hold the marker in the references, one for each script. -/
theorem mentions_markFrom (i : Nat) (v : Value) (hfree : ∀ s ∈ texts v, HoldsAt n s.toList []) :
    Mentions n (texts (markFrom n i v).1) (List.range' i (markFrom n i v).2.length) := by
  cases v with
  | sequence items =>
    rw [markFrom_sequence]
    exact mentions_markItems i items hfree
  | mapping entries =>
    rw [markFrom_mapping]
    exact mentions_markEntries i entries hfree
  | tagged t v =>
    rw [markFrom_tagged]
    exact mentions_markFrom i v hfree
  | _ =>
    rw [markFrom]
    · exact .of_free hfree
    all_goals simp

theorem mentions_markItems (i : Nat) (vs : List Value) (hfree : ∀ s ∈ itemTexts vs, HoldsAt n s.toList []) :
    Mentions n (itemTexts (markItems n i vs).1) (List.range' i (markItems n i vs).2.length) := by
  cases vs with
  | nil =>
    rw [markItems]
    exact .nil
  | cons v rest =>
    simp only [itemTexts, List.forall_mem_append] at hfree
    rw [markItems_cons, itemTexts, List.length_append, ← List.range'_append_1]
    exact (mentions_markFrom i v hfree.1).append (mentions_markItems _ rest hfree.2)

theorem mentions_markEntries (i : Nat) (es : List (Value × Value))
    (hfree : ∀ s ∈ entryTexts es, HoldsAt n s.toList []) :
    Mentions n (entryTexts (markEntries n i es).1) (List.range' i (markEntries n i es).2.length) := by
  cases es with
  | nil =>
    rw [markEntries]
    exact .nil
  | cons e rest =>
    obtain ⟨k, v⟩ := e
    simp only [entryTexts, List.forall_mem_append] at hfree
    rw [markEntries_cons, entryTexts, List.length_append, ← List.range'_append_1]
    have hkey : Mentions n (texts k) [] := .of_free hfree.1.1
    have hvalue := mentions_markMember (k := k) (mentions_markFrom i v hfree.1.2)
    exact (hkey.append hvalue).append (mentions_markEntries _ rest hfree.2)

end

end Marking

/-- What a format writes for a value holds the marker where the texts of the value do. -/
theorem holdsAt_encoder {n : Nat} (f : Format) {v : Value} {indent : Nat} {text : String} {is : List Nat}
    (h : f.encoder v indent = .ok text) (htags : ∀ t ∈ tags v, HoldsAt n t.toList [])
    (hm : Mentions n (texts v) is) : HoldsAt n text.toList is := by
  cases f with
  | yaml =>
    have hwritten : text = String.ofList (nodeText .root none v) := by
      cases hwrite : write? v with
      | none => simp [Format.encoder, hwrite] at h
      | some written =>
        simp only [Format.encoder, hwrite, Except.ok.injEq] at h
        rw [write?, Option.ite_none_right_eq_some] at hwrite
        exact h.symm.trans (Option.some.inj hwrite.2).symm
    rw [hwritten, String.toList_ofList]
    exact (holdsLines_node .root none v (by simp) htags hm).holds
  | json =>
    cases hvalue : Json.valueText (max indent 1) 0 v with
    | error fault => simp [Format.encoder, Json.write, hvalue, Except.map] at h
    | ok cs =>
      simp only [Format.encoder, Json.write, hvalue, Except.map, Except.ok.injEq] at h
      rw [← h, String.toList_ofList]
      exact Json.holdsAt_value v hvalue htags hm

/-- The search for a marker ends, and it ends at the first marker that stands nowhere in the value exactly if no
tag holds the marker that it ends at. Then the encoded value holds the marker at the references to the scripts, in
their order, and nowhere else, in either format. -/
theorem mark_number_iff (v : Value) :
    Search (texts v) 0 (mark v).2.number ∧
      (IsLeast {n | IsUnused v n} (mark v).2.number ↔
        ∀ t ∈ tags v, ¬ (marker (mark v).2.number).toList <:+: t.toList) ∧
      (IsLeast {n | IsUnused v n} (mark v).2.number →
        ∀ (f : Format) (indent : Nat) (text : String), f.encoder (mark v).1 indent = .ok text →
          HoldsAt (mark v).2.number text.toList (List.range (mark v).2.scripts.length)) := by
  refine ⟨search_freshNumber (texts v), isLeast_freshNumber_iff v, fun hleast f indent text h => ?_⟩
  have hunused (w : String) (hw : w ∈ texts v ++ tags v) : HoldsAt (mark v).2.number w.toList [] :=
    HoldsAt.nil_iff.mpr (hleast.1 w hw)
  rw [List.range_eq_range']
  refine holdsAt_encoder f h (fun t ht => ?_) (mentions_markFrom 0 v fun s hs => hunused s (List.mem_append_left _ hs))
  exact hunused t (List.mem_append_right _ (tags_markFrom (mark v).2.number 0 v ▸ ht))

/-- A text holds the first marker, so the second one is chosen, and the tag does not hold that. -/
theorem mark_number_second : IsLeast {n | IsUnused (.mapping [(.string "run", .string "a\nb"),
    (.string "k", .tagged "__ghaflow_block_0__" (.string "__ghaflow_block_0__"))]) n} 1 := by
  let v : Value := .mapping [(.string "run", .string "a\nb"),
    (.string "k", .tagged "__ghaflow_block_0__" (.string "__ghaflow_block_0__"))]
  have hnumber : (mark v).2.number = 1 := by decide +kernel
  have hiff := (mark_number_iff v).2.1
  rw [hnumber] at hiff
  refine hiff.mpr fun t ht => ?_
  obtain rfl : t = "!__ghaflow_block_0__" := by simpa [v, tags, entryTags, Value.shownTag] using ht
  rw [← Text.occursIn_iff]
  decide

/-- The first marker stands in no text of the value, so it is chosen, but a tag holds it. -/
theorem mark_number_in_tag : ¬ ∀ v : Value, IsLeast {n | IsUnused v n} (mark v).2.number := by
  intro h
  let v : Value := .mapping [(.string "run", .string "a\nb"), (.string "k", .tagged "__ghaflow_block_0__" (.int 1))]
  have hnumber : (mark v).2.number = 0 := by decide +kernel
  have htag : "!__ghaflow_block_0__" ∈ texts v ++ tags v := by decide +kernel
  have hunused := (h v).1 "!__ghaflow_block_0__" htag
  rw [hnumber] at hunused
  exact hunused ⟨['!'], [], by decide⟩

end CiWorkflow.Render
