import CiWorkflow.Yaml.Source

/-!
# What readers see of a value

Readers look at data through its shape, its text and its keys. Where the data has a value, as a node of a
document has, the two agree: a mapping is seen entry by entry, a list item by item, and a text key by its
name. A reader that takes no notice of tags sees the value under them.
-/
set_option autoImplicit false

namespace CiWorkflow.Yaml

namespace Value

def isCollection (v : Value) : Bool :=
  match v.bare with
  | .sequence _ => true
  | .mapping _ => true
  | _ => false

end Value

class Content (σ : Type) [Source σ] where
  content? : σ → Option Value
  mapping {s : σ} {v : Value} {ws : List (Value × Value)} : content? s = some v → v.bare = .mapping ws →
    (∃ es, Source.shape s = .entries es ∧
      ∀ w ∈ ws, ∃ e ∈ es, content? e.1 = some w.1 ∧ content? e.2 = some w.2) ∨ Source.shape s = .other
  sequence {s : σ} {v : Value} {vs : List Value} : content? s = some v → v.bare = .sequence vs →
    (∃ items : List σ, Source.shape s = .items items ∧
      ∀ (i : Nat) w, vs[i]? = some w → ∃ x, items[i]? = some x ∧ content? x = some w) ∨ Source.shape s = .other
  present {s : σ} {v : Value} : content? s = some v → v.isCollection → Source.present? s = some true
  no_text {s : σ} {v : Value} : content? s = some v → v.isCollection → Source.text? s = none
  no_bool {s : σ} {v : Value} : content? s = some v → v.isCollection → Source.bool? s = none
  word {s : σ} {v : Value} {words : List String} {w : String} : content? s = some v → v.isCollection →
    Source.word? words s = some w → ∃ k, v = .mapping [(k, .null)] ∧ ∀ name, k = .string name → name ∈ words
  text {s : σ} {name : String} : content? s = some (.string name) → Source.text? s = some name
  key {s : σ} {name : String} (names : List String) : content? s = some (.string name) →
    Source.field? names s = some (if names.contains name then some name else none)
  buffer {s : σ} {v w : Value} : content? s = some v → Source.buffer? s = some w → w = v

instance : Content Value where
  content? := some
  mapping := by
    rintro s v ws ⟨⟩ hw
    cases s with
    | mapping es =>
      cases hw
      exact .inl ⟨ws, rfl, fun w h => ⟨w, h, rfl, rfl⟩⟩
    | tagged => exact .inr rfl
    | _ => cases hw
  sequence := by
    rintro s v vs ⟨⟩ hw
    cases s with
    | sequence items =>
      cases hw
      exact .inl ⟨vs, rfl, fun i w h => ⟨w, h, rfl⟩⟩
    | tagged => exact .inr rfl
    | _ => cases hw
  present := by
    rintro s v ⟨⟩ h
    cases s with
    | null => cases h
    | _ => rfl
  no_text := by
    rintro s v ⟨⟩ h
    cases s with
    | string => cases h
    | _ => rfl
  no_bool := by
    rintro s v ⟨⟩ h
    cases s with
    | bool => cases h
    | _ => rfl
  word := by
    rintro s v words w ⟨⟩ h hw
    simp only [Source.word?, Value.word?] at hw
    split at hw
    · cases h
    · rename_i k
      refine ⟨k, rfl, ?_⟩
      rintro name rfl
      simp only [Value.field?, Option.join_some] at hw
      split at hw
      · rename_i hmem
        exact List.contains_iff_mem.mp hmem
      · cases hw
    · cases hw
  text := by
    rintro s name ⟨⟩
    rfl
  key := by
    rintro s name names ⟨⟩
    rfl
  buffer := by
    rintro s v w ⟨⟩ ⟨⟩
    rfl

namespace Node

theorem bare_withTag (tag : Option String) (v : Value) : (withTag tag v).bare = v.bare := by
  rw [withTag]
  split <;> rfl

theorem not_isCollection_scalarValue {tag : Option String} {form : ScalarForm} {text : String} {v : Value}
    (h : scalarValue? tag form text = some v) : v.isCollection = false := by
  have hmeaning (m : Meaning) (hm : m.value? text = some v) : v.isCollection = false := by
    cases m <;> simp only [Meaning.value?, Option.some.injEq, reduceCtorEq] at hm <;> subst hm <;> rfl
  cases tag with
  | none =>
    simp only [scalarValue?] at h
    split at h
    · exact hmeaning _ h
    · cases h
      rfl
  | some t =>
    simp only [scalarValue?] at h
    split at h
    · obtain ⟨b, -, rfl⟩ := Option.map_eq_some_iff.mp h
      rfl
    split at h
    · obtain ⟨m, -, hm⟩ := Option.bind_eq_some_iff.mp h
      exact hmeaning m hm
    split at h
    · obtain ⟨x, -, rfl⟩ := Option.map_eq_some_iff.mp h
      rfl
    split at h
    · split at h
      · cases h
        rfl
      · cases h
    split at h
    · exact hmeaning _ h
    · cases h
      rfl

theorem text_of_scalarValue {tag : Option String} {form : ScalarForm} {text name : String}
    (h : scalarValue? tag form text = some (.string name)) : name = text := by
  have hmeaning (m : Meaning) (hm : m.value? text = some (.string name)) : name = text := by
    cases m <;> simp only [Meaning.value?, Option.some.injEq, Value.string.injEq, reduceCtorEq] at hm
    exact hm.symm
  cases tag with
  | none =>
    simp only [scalarValue?] at h
    split at h
    · exact hmeaning _ h
    · cases h
      rfl
  | some t =>
    simp only [scalarValue?] at h
    split at h
    · simp at h
    split at h
    · obtain ⟨m, -, hm⟩ := Option.bind_eq_some_iff.mp h
      exact hmeaning m hm
    split at h
    · simp at h
    split at h
    · split at h <;> cases h
    split at h
    · exact hmeaning _ h
    · cases h
      rfl

theorem getElem?_itemContents {items : List Node} {vs : List Value} (h : itemContents? items = some vs) (i : Nat)
    (w : Value) (hw : vs[i]? = some w) : ∃ x, items[i]? = some x ∧ x.content? = some w := by
  induction items generalizing vs i with
  | nil =>
    cases h
    simp at hw
  | cons n rest ih =>
    simp only [itemContents?, Option.bind_eq_bind, Option.bind_eq_some_iff, Option.pure_def,
      Option.some.injEq] at h
    obtain ⟨v, hv, others, hothers, rfl⟩ := h
    cases i with
    | zero => exact ⟨n, rfl, by simpa [hv] using hw⟩
    | succ i => exact ih hothers i (by simpa using hw)

theorem mem_entryContents {es : List (Node × Node)} {ws : List (Value × Value)} (h : entryContents? es = some ws)
    (w : Value × Value) (hw : w ∈ ws) : ∃ e ∈ es, e.1.content? = some w.1 ∧ e.2.content? = some w.2 := by
  induction es generalizing ws with
  | nil =>
    cases h
    simp at hw
  | cons e rest ih =>
    simp only [entryContents?, Option.bind_eq_bind, Option.bind_eq_some_iff, Option.pure_def,
      Option.some.injEq] at h
    obtain ⟨k, hk, v, hv, others, hothers, rfl⟩ := h
    rcases List.mem_cons.mp hw with rfl | hw
    · exact ⟨e, by simp, hk, hv⟩
    · obtain ⟨e', he', hc⟩ := ih hothers hw
      exact ⟨e', by simp [he'], hc⟩

theorem not_isCollection_scalar {tag : Option String} {form : ScalarForm} {text : String} {v : Value}
    (h : (Node.scalar tag form text).content? = some v) : v.isCollection = false := by
  rw [content?] at h
  obtain ⟨w, hw, rfl⟩ := Option.map_eq_some_iff.mp h
  have := not_isCollection_scalarValue hw
  simpa [Value.isCollection, bare_withTag] using this

theorem eq_string_of_withTag {tag : Option String} {v : Value} {name : String}
    (h : withTag tag v = .string name) : v = .string name := by
  rw [withTag] at h
  split at h
  · cases h
  · exact h

theorem text_of_content {n : Node} {name : String} (h : n.content? = some (.string name)) : n.text? = some name := by
  cases n with
  | scalar tag form text =>
    rw [content?] at h
    obtain ⟨w, hw, hname⟩ := Option.map_eq_some_iff.mp h
    rw [eq_string_of_withTag hname] at hw
    rw [text_of_scalarValue hw]
    rfl
  | sequence tag items =>
    rw [content?] at h
    obtain ⟨w, -, hname⟩ := Option.map_eq_some_iff.mp h
    cases eq_string_of_withTag hname
  | mapping tag es =>
    rw [content?] at h
    obtain ⟨w, -, hname⟩ := Option.map_eq_some_iff.mp h
    cases eq_string_of_withTag hname

instance : Content Node where
  content? := Node.content?
  mapping := by
    intro n v ws h hw
    cases n with
    | scalar =>
      have := not_isCollection_scalar h
      simp [Value.isCollection, hw] at this
    | sequence tag items =>
      rw [content?] at h
      obtain ⟨vs, -, rfl⟩ := Option.map_eq_some_iff.mp h
      rw [bare_withTag] at hw
      cases hw
    | mapping tag es =>
      rw [content?] at h
      obtain ⟨ws', hws, rfl⟩ := Option.map_eq_some_iff.mp h
      rw [bare_withTag] at hw
      cases hw
      exact .inl ⟨es, rfl, mem_entryContents hws⟩
  sequence := by
    intro n v vs h hw
    cases n with
    | scalar =>
      have := not_isCollection_scalar h
      simp [Value.isCollection, hw] at this
    | sequence tag items =>
      rw [content?] at h
      obtain ⟨vs', hvs, rfl⟩ := Option.map_eq_some_iff.mp h
      rw [bare_withTag] at hw
      cases hw
      exact .inl ⟨items, rfl, getElem?_itemContents hvs⟩
    | mapping tag es =>
      rw [content?] at h
      obtain ⟨ws, -, rfl⟩ := Option.map_eq_some_iff.mp h
      rw [bare_withTag] at hw
      cases hw
  present := by
    intro n v h hv
    cases n with
    | scalar => simp [not_isCollection_scalar h] at hv
    | _ => rfl
  no_text := by
    intro n v h hv
    cases n with
    | scalar => simp [not_isCollection_scalar h] at hv
    | _ => rfl
  no_bool := by
    intro n v h hv
    cases n with
    | scalar => simp [not_isCollection_scalar h] at hv
    | _ => rfl
  word := by
    intro n v words w h hv hw
    cases n with
    | scalar => simp [not_isCollection_scalar h] at hv
    | _ => cases hw
  text := text_of_content
  key := by
    intro n name names h
    simp [Source.field?, field?, text_of_content h]
  buffer := by
    intro n v w h hw
    have hfilter : n.content?.filter Value.tagFree = some w := hw
    rw [Option.filter_eq_some_iff, h] at hfilter
    exact (Option.some.inj hfilter.1).symm

end Node

namespace Record

variable {σ : Type}

/-- Every entry is found under its key if that is known, and in a closed mapping it is. -/
theorem lookup_of_collect [Source σ] {closed : Bool} {names : List String} {found found' : List (String × σ)}
    {es : List (σ × σ)} (h : collect? closed names found es = some found') :
    (∀ name x, found.lookup name = some x → found'.lookup name = some x) ∧
      ∀ e ∈ es, (∃ name, Source.field? names e.1 = some (some name) ∧ found'.lookup name = some e.2) ∨
        (closed = false ∧ Source.field? names e.1 = some none) := by
  induction es generalizing found with
  | nil =>
    cases h
    exact ⟨fun _ _ hx => hx, by simp⟩
  | cons e rest ih =>
    obtain ⟨k, x⟩ := e
    rw [collect?] at h
    split at h
    · cases h
    · rename_i hfree
      split at h
      · cases h
      · rename_i hopen
        obtain ⟨hkept, hrest⟩ := ih h
        refine ⟨hkept, ?_⟩
        rintro e (_ | ⟨_, he⟩)
        · exact .inr ⟨Bool.eq_false_iff.mpr hopen, hfree⟩
        · exact hrest e he
    · rename_i name hname
      split at h
      · cases h
      · rename_i hnew
        obtain ⟨hkept, hrest⟩ := ih h
        have hnone : found.lookup name = none := Option.not_isSome_iff_eq_none.mp hnew
        refine ⟨fun other y hy => hkept other y (by rw [List.lookup_append, hy]; rfl), ?_⟩
        rintro e (_ | ⟨_, he⟩)
        · exact .inl ⟨name, hname, hkept name x (by simp [List.lookup_append, hnone])⟩
        · exact hrest e he

theorem lookup_zip {names : List String} {items : List σ} {i : Nat} {name : String} {x : σ}
    (hnodup : names.Nodup) (hname : names[i]? = some name) (hx : items[i]? = some x) :
    (names.zip items).lookup name = some x := by
  induction names generalizing items i with
  | nil => simp at hname
  | cons n rest ih =>
    cases items with
    | nil => simp at hx
    | cons y ys =>
      cases i with
      | zero =>
        simp only [List.getElem?_cons_zero, Option.some.injEq] at hname hx
        subst hname hx
        simp
      | succ i =>
        simp only [List.getElem?_cons_succ] at hname hx
        have hne : name ≠ n := by
          rintro rfl
          exact (List.nodup_cons.mp hnodup).1 (List.mem_of_getElem? hname)
        rw [List.zip_cons_cons, List.lookup_cons, beq_false_of_ne hne]
        exact ih (List.nodup_cons.mp hnodup).2 hname hx

end Record

end CiWorkflow.Yaml
