import CiWorkflow.Yaml.Datum

set_option autoImplicit false

namespace CiWorkflow.Yaml

namespace Value

mutual

/-- No tag inside has an exclamation mark to lose. -/
def plainTags : Value → Bool
  | .sequence items => plainTagsItems items
  | .mapping entries => plainTagsEntries entries
  | .tagged t v => tagName t = t && plainTags v
  | _ => true

def plainTagsItems : List Value → Bool
  | [] => true
  | v :: rest => plainTags v && plainTagsItems rest

def plainTagsEntries : List (Value × Value) → Bool
  | [] => true
  | (k, v) :: rest => plainTags k && plainTags v && plainTagsEntries rest

end

theorem plainTagsItems_iff {items : List Value} : plainTagsItems items ↔ ∀ v ∈ items, v.plainTags := by
  induction items with
  | nil => simp [plainTagsItems]
  | cons v rest ih => simp [plainTagsItems, ih]

theorem plainTagsEntries_iff {es : List (Value × Value)} :
    plainTagsEntries es ↔ ∀ e ∈ es, e.1.plainTags ∧ e.2.plainTags := by
  induction es with
  | nil => simp [plainTagsEntries]
  | cons e rest ih => simp [plainTagsEntries, ih]

mutual

theorem plainTags_of_tagFree : (v : Value) → v.tagFree → v.plainTags
  | .sequence items, h => plainTagsItems_of_tagFree items h
  | .mapping es, h => plainTagsEntries_of_tagFree es h
  | .tagged .., h => nomatch h
  | .null, _ => rfl
  | .bool _, _ => rfl
  | .int _, _ => rfl
  | .float _, _ => rfl
  | .string _, _ => rfl

theorem plainTagsItems_of_tagFree : (items : List Value) → tagFreeItems items → plainTagsItems items
  | [], _ => rfl
  | v :: rest, h => by
    rw [tagFreeItems, Bool.and_eq_true] at h
    rw [plainTagsItems, plainTags_of_tagFree v h.1, plainTagsItems_of_tagFree rest h.2]
    rfl

theorem plainTagsEntries_of_tagFree : (es : List (Value × Value)) → tagFreeEntries es → plainTagsEntries es
  | [], _ => rfl
  | (k, v) :: rest, h => by
    rw [tagFreeEntries, Bool.and_eq_true, Bool.and_eq_true] at h
    rw [plainTagsEntries, plainTags_of_tagFree k h.1.1, plainTags_of_tagFree v h.1.2,
      plainTagsEntries_of_tagFree rest h.2]
    rfl

end

/-! ## Entries put in one after another -/

theorem distinctKeys_iff {es : List (Value × Value)} :
    distinctKeys es ↔ (es.map Prod.fst).Pairwise fun a b => same a b = false := by
  induction es with
  | nil => simp [distinctKeys]
  | cons e rest ih => simp [distinctKeys, ih]

theorem putEntry_append {k v : Value} {es : List (Value × Value)} (h : ∀ e ∈ es, same e.1 k = false) :
    putEntry k v es = es ++ [(k, v)] := by
  induction es with
  | nil => rfl
  | cons e rest ih =>
    rw [putEntry, h e (by simp), ih fun f hf => h f (by simp [hf])]
    rfl

theorem map_fst_putEntry {k v : Value} {es : List (Value × Value)} (h : ∃ e ∈ es, same e.1 k) :
    (putEntry k v es).map Prod.fst = es.map Prod.fst := by
  induction es with
  | nil => simp at h
  | cons e rest ih =>
    rw [putEntry]
    split
    · rfl
    · rename_i hne
      obtain ⟨f, hf, hsame⟩ := h
      rcases List.mem_cons.mp hf with rfl | hf
      · exact absurd hsame hne
      · simp [ih ⟨f, hf, hsame⟩]

theorem distinctKeys_putEntry {k v : Value} {es : List (Value × Value)} (h : distinctKeys es) :
    distinctKeys (putEntry k v es) := by
  rw [distinctKeys_iff] at h ⊢
  by_cases hold : ∃ e ∈ es, same e.1 k
  · rwa [map_fst_putEntry hold]
  · have hnew : ∀ e ∈ es, same e.1 k = false := fun e he =>
      Bool.eq_false_iff.mpr fun hsame => hold ⟨e, he, hsame⟩
    rw [putEntry_append hnew, List.map_append, List.pairwise_append]
    refine ⟨h, by simp, fun x hx y hy => ?_⟩
    obtain ⟨e, he, rfl⟩ := List.mem_map.mp hx
    rw [List.map_singleton, List.mem_singleton] at hy
    subst hy
    exact hnew e he

theorem wellFormedEntries_putEntry {k v : Value} {es : List (Value × Value)} (hk : k.wellFormed)
    (hv : v.wellFormed) (h : wellFormedEntries es) : wellFormedEntries (putEntry k v es) := by
  induction es with
  | nil => simp [putEntry, wellFormedEntries, hk, hv]
  | cons e rest ih =>
    simp only [wellFormedEntries, Bool.and_eq_true] at h
    rw [putEntry]
    split
    · simp [wellFormedEntries, h, hv]
    · simp [wellFormedEntries, h, ih h.2]

theorem wellFormed_ofList {es : List (Value × Value)} (h : wellFormedEntries es) : (ofList es).wellFormed := by
  have hfold (done : List (Value × Value)) (hdone : wellFormed (.mapping done)) :
      wellFormed (.mapping (es.foldl (fun m e => putEntry e.1 e.2 m) done)) := by
    induction es generalizing done with
    | nil => exact hdone
    | cons e rest ih =>
      simp only [wellFormedEntries, Bool.and_eq_true] at h
      simp only [wellFormed, Bool.and_eq_true] at hdone
      refine ih h.2 _ ?_
      simp [wellFormed, distinctKeys_putEntry hdone.1, wellFormedEntries_putEntry h.1.1 h.1.2 hdone.2]
  exact hfold [] rfl

mutual

theorem wellFormed_rebuilt : (v : Value) → v.rebuilt.wellFormed
  | .sequence items => wellFormed_rebuiltItems items
  | .mapping es => wellFormed_ofList (wellFormed_rebuiltEntries es)
  | .tagged _ v => wellFormed_rebuilt v
  | .null => rfl
  | .bool _ => rfl
  | .int _ => rfl
  | .float _ => rfl
  | .string _ => rfl

theorem wellFormed_rebuiltItems : (items : List Value) → wellFormedItems (rebuiltItems items)
  | [] => rfl
  | v :: rest => by
    rw [rebuiltItems, wellFormedItems, wellFormed_rebuilt v, wellFormed_rebuiltItems rest]
    rfl

theorem wellFormed_rebuiltEntries : (es : List (Value × Value)) → wellFormedEntries (rebuiltEntries es)
  | [] => rfl
  | (k, v) :: rest => by
    rw [rebuiltEntries, wellFormedEntries, wellFormed_rebuilt k, wellFormed_rebuilt v,
      wellFormed_rebuiltEntries rest]
    rfl

end

theorem foldl_putEntry {es done : List (Value × Value)}
    (h : ((done ++ es).map Prod.fst).Pairwise fun a b => same a b = false) :
    es.foldl (fun m e => putEntry e.1 e.2 m) done = done ++ es := by
  induction es generalizing done with
  | nil => simp
  | cons e rest ih =>
    have hnew : ∀ d ∈ done, same d.1 e.1 = false := fun d hd =>
      (List.pairwise_append.mp (List.map_append ▸ h)).2.2 d.1 (List.mem_map_of_mem hd) e.1 (by simp)
    rw [List.foldl_cons, putEntry_append hnew, ih (by simpa using h)]
    simp

theorem ofList_eq_self {es : List (Value × Value)} (h : distinctKeys es) : ofList es = .mapping es := by
  rw [ofList, foldl_putEntry (by simpa using distinctKeys_iff.mp h)]
  rfl

mutual

theorem rebuilt_eq_self : (v : Value) → v.wellFormed → v.plainTags → v.rebuilt = v
  | .sequence items, hw, hp => by rw [rebuilt, rebuiltItems_eq_self items hw hp]
  | .mapping es, hw, hp => by
    rw [wellFormed, Bool.and_eq_true] at hw
    rw [rebuilt, rebuiltEntries_eq_self es hw.2 hp, ofList_eq_self hw.1]
  | .tagged t v, hw, hp => by
    rw [plainTags, Bool.and_eq_true, decide_eq_true_eq] at hp
    rw [rebuilt, hp.1, rebuilt_eq_self v hw hp.2]
  | .null, _, _ => rfl
  | .bool _, _, _ => rfl
  | .int _, _, _ => rfl
  | .float _, _, _ => rfl
  | .string _, _, _ => rfl

theorem rebuiltItems_eq_self :
    (items : List Value) → wellFormedItems items → plainTagsItems items → rebuiltItems items = items
  | [], _, _ => rfl
  | v :: rest, hw, hp => by
    rw [wellFormedItems, Bool.and_eq_true] at hw
    rw [plainTagsItems, Bool.and_eq_true] at hp
    rw [rebuiltItems, rebuilt_eq_self v hw.1 hp.1, rebuiltItems_eq_self rest hw.2 hp.2]

theorem rebuiltEntries_eq_self :
    (es : List (Value × Value)) → wellFormedEntries es → plainTagsEntries es → rebuiltEntries es = es
  | [], _, _ => rfl
  | (k, v) :: rest, hw, hp => by
    rw [wellFormedEntries, Bool.and_eq_true, Bool.and_eq_true] at hw
    rw [plainTagsEntries, Bool.and_eq_true, Bool.and_eq_true] at hp
    rw [rebuiltEntries, rebuilt_eq_self k hw.1.1 hp.1.1, rebuilt_eq_self v hw.1.2 hp.1.2,
      rebuiltEntries_eq_self rest hw.2 hp.2]

end

end Value

namespace Datum

mutual

theorem copied_eq_self : (v : Value) → v.plainTags → copied v = v
  | .sequence items, hp => by rw [copied, copiedItems_eq_self items hp]
  | .mapping es, hp => by rw [copied, copiedEntries_eq_self es hp]
  | .tagged t v, hp => by
    rw [Value.plainTags, Bool.and_eq_true, decide_eq_true_eq] at hp
    rw [copied, hp.1, copied_eq_self v hp.2]
  | .null, _ => rfl
  | .bool _, _ => rfl
  | .int _, _ => rfl
  | .float _, _ => rfl
  | .string _, _ => rfl

theorem copiedItems_eq_self : (items : List Value) → Value.plainTagsItems items → copiedItems items = items
  | [], _ => rfl
  | v :: rest, hp => by
    rw [Value.plainTagsItems, Bool.and_eq_true] at hp
    rw [copiedItems, copied_eq_self v hp.1, copiedItems_eq_self rest hp.2]

theorem copiedEntries_eq_self :
    (es : List (Value × Value)) → Value.plainTagsEntries es → copiedEntries es = es
  | [], _ => rfl
  | (k, v) :: rest, hp => by
    rw [Value.plainTagsEntries, Bool.and_eq_true, Bool.and_eq_true] at hp
    rw [copiedEntries, copied_eq_self k hp.1.1, copied_eq_self v hp.1.2, copiedEntries_eq_self rest hp.2]

end

end Datum

end CiWorkflow.Yaml
