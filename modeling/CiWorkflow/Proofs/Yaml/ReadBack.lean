import CiWorkflow.Proofs.Yaml.Rebuilt
import CiWorkflow.Yaml.Fields

set_option autoImplicit false

namespace CiWorkflow

namespace Entries

variable {α : Type}

theorem foldl_insert (es : List (String × α)) (done : Entries α)
    (h : ((done.toList ++ es).map Prod.fst).Nodup) :
    (es.foldl (fun m e => m.insert e.1 e.2) done).toList = done.toList ++ es := by
  have hput (name : String) (a : α) (fs : List (String × α)) (hnew : name ∉ fs.map Prod.fst) :
      putIn name a fs = fs ++ [(name, a)] := by
    induction fs with
    | nil => rfl
    | cons f rest ih =>
      simp only [List.map_cons, List.mem_cons, not_or] at hnew
      rw [putIn, if_neg (Ne.symm hnew.1), ih hnew.2]
      rfl
  induction es generalizing done with
  | nil => simp
  | cons e rest ih =>
    have hnew : e.1 ∉ done.toList.map Prod.fst := by
      intro hmem
      rw [List.map_append, List.map_cons, List.nodup_append] at h
      exact h.2.2 _ hmem _ (by simp) rfl
    have hinsert : (done.insert e.1 e.2).toList = done.toList ++ [e] := hput _ _ _ hnew
    rw [List.foldl_cons, ih _ (by rw [hinsert]; simpa using h), hinsert]
    simp

theorem toList_ofList {es : List (String × α)} (h : (es.map Prod.fst).Nodup) : (ofList es).toList = es := by
  rw [ofList, foldl_insert es empty (by simpa using h)]
  rfl

end Entries

namespace Yaml

class OfValue (σ : Type) [Source σ] where
  of : Value → σ
  text (s : String) : Source.text? (of (.string s)) = some s
  bool (b : Bool) : Source.bool? (of (.bool b)) = some b
  present {v : Value} : v.isNull = false → Source.present? (of v) = some true
  sequence (vs : List Value) : Source.shape (of (.sequence vs)) = .items (vs.map of)
  mapping (es : List (Value × Value)) :
    Source.shape (of (.mapping es)) = .entries (es.map fun e => (of e.1, of e.2))
  key (names : List String) (s : String) :
    Source.field? names (of (.string s)) = some (if names.contains s then some s else none)
  word (words : List String) (s : String) :
    Source.word? words (of (.string s)) = if words.contains s then some s else none
  value {v : Value} : v.wellFormed → v.plainTags → Source.value? (of v) = some v
  buffer {v : Value} : v.tagFree → Source.buffer? (of v) = some v

instance : OfValue Value where
  of := id
  text _ := rfl
  bool _ := rfl
  present {v} h := by simp [Source.present?, h]
  sequence vs := by simp [Source.shape, Value.shape]
  mapping es := by simp [Source.shape, Value.shape]
  key _ _ := rfl
  word _ _ := rfl
  value {v} h _ := by simp [Source.value?, h]
  buffer _ := rfl

instance : OfValue Datum where
  of := Datum.mk
  text _ := rfl
  bool _ := rfl
  present {v} h := by simp [Source.present?, h]
  sequence _ := rfl
  mapping _ := rfl
  key _ _ := rfl
  word _ _ := rfl
  value {v} h hp := by simp [Source.value?, Datum.copied_eq_self v hp, h]
  buffer {v} h := by simp [Source.buffer?, h]

namespace Fields

def IsGroup (name : String) (g : Fields) : Prop := g = [] ∨ ∃ v, g = always name v

variable {α : Type} {name : String}

@[simp]
theorem isGroup_always (v : Value) : IsGroup name (always name v) := .inr ⟨v, rfl⟩

@[simp]
theorem isGroup_ifSome (value : α → Value) (x : Option α) : IsGroup name (ifSome name value x) := by
  cases x with
  | none => exact .inl rfl
  | some a => exact .inr ⟨value a, rfl⟩

@[simp]
theorem isGroup_ifText (x : Option String) : IsGroup name (ifText name x) := isGroup_ifSome _ x

@[simp]
theorem isGroup_ifTexts (texts : List String) : IsGroup name (ifTexts name texts) := by
  rw [ifTexts]
  split
  · exact .inl rfl
  · exact .inr ⟨_, rfl⟩

@[simp]
theorem isGroup_ite (p : Prop) [Decidable p] (v : Value) : IsGroup name (if p then [] else always name v) := by
  split
  · exact .inl rfl
  · exact .inr ⟨_, rfl⟩

@[simp]
theorem isGroup_ifEntries (value : α → Value) (es : Entries α) : IsGroup name (ifEntries name value es) := by
  rw [ifEntries]
  split
  · exact .inl rfl
  · exact .inr ⟨_, rfl⟩

theorem keys_concat {slots : List (String × Fields)} (h : ∀ s ∈ slots, IsGroup s.1 s.2) :
    ((concat (slots.map Prod.snd)).map Prod.fst).Sublist (slots.map fun s => Value.string s.1) := by
  induction slots with
  | nil => exact .slnil
  | cons s rest ih =>
    rw [List.forall_mem_cons] at h
    obtain ⟨name, g⟩ := s
    have hg : g = [] ∨ ∃ v, g = .always name v := h.1
    obtain rfl | ⟨v, rfl⟩ := hg
    · exact (ih h.2).cons _
    · exact (ih h.2).cons_cons _

/-! ### Tags of what is put together -/

theorem tagFreeEntries_append {es fs : Fields} :
    Value.tagFreeEntries (es ++ fs) ↔ Value.tagFreeEntries es ∧ Value.tagFreeEntries fs := by
  induction es with
  | nil => simp [Value.tagFreeEntries]
  | cons e rest ih => simp_all [Value.tagFreeEntries, and_assoc]

theorem tagFree_value {groups : List Fields} :
    (value groups).tagFree ↔ ∀ g ∈ groups, Value.tagFreeEntries g := by
  change Value.tagFreeEntries groups.flatten ↔ _
  induction groups with
  | nil => simp [Value.tagFreeEntries]
  | cons g rest ih => rw [List.flatten_cons, tagFreeEntries_append, ih, List.forall_mem_cons]

theorem plainTags_value {groups : List Fields} :
    (value groups).plainTags ↔ ∀ g ∈ groups, Value.plainTagsEntries g := by
  change Value.plainTagsEntries groups.flatten ↔ _
  simp only [Value.plainTagsEntries_iff, List.mem_flatten]
  exact ⟨fun h g hg e he => h e ⟨g, hg, he⟩, fun h e ⟨g, hg, he⟩ => h g hg e he⟩

@[simp]
theorem tagFreeEntries_always (v : Value) : Value.tagFreeEntries (always name v) = v.tagFree := by
  simp [always, Value.tagFreeEntries, Value.tagFree]

@[simp]
theorem plainTagsEntries_always (v : Value) : Value.plainTagsEntries (always name v) = v.plainTags := by
  simp [always, Value.plainTagsEntries, Value.plainTags]

theorem tagFreeEntries_ite {p : Prop} [Decidable p] {v : Value} (h : v.tagFree) :
    Value.tagFreeEntries (if p then [] else always name v) := by
  split
  · rfl
  · rwa [tagFreeEntries_always]

theorem tagFreeEntries_ifSome {value : α → Value} {x : Option α} :
    Value.tagFreeEntries (ifSome name value x) ↔ ∀ a ∈ x, (value a).tagFree := by
  cases x with
  | none => simp [ifSome, Value.tagFreeEntries]
  | some a => simp [ifSome]

theorem plainTagsEntries_ifSome {value : α → Value} {x : Option α} :
    Value.plainTagsEntries (ifSome name value x) ↔ ∀ a ∈ x, (value a).plainTags := by
  cases x with
  | none => simp [ifSome, Value.plainTagsEntries]
  | some a => simp [ifSome]

@[simp]
theorem tagFreeEntries_ifText (x : Option String) : Value.tagFreeEntries (ifText name x) = true :=
  tagFreeEntries_ifSome.mpr fun _ _ => rfl

theorem tagFree_sequence {vs : List Value} : (Value.sequence vs).tagFree ↔ ∀ v ∈ vs, v.tagFree := by
  change Value.tagFreeItems vs ↔ _
  induction vs with
  | nil => simp [Value.tagFreeItems]
  | cons v rest ih => simp [Value.tagFreeItems, ih]

@[simp]
theorem tagFree_ofTexts (texts : List String) : (ofTexts texts).tagFree = true :=
  tagFree_sequence.mpr (by simp [Value.tagFree])

theorem tagFree_ofEntries {value : α → Value} {es : Entries α} :
    (ofEntries value es).tagFree ↔ ∀ e ∈ es.toList, (value e.2).tagFree := by
  change Value.tagFreeEntries _ ↔ _
  induction es.toList with
  | nil => simp [Value.tagFreeEntries]
  | cons e rest ih => simp [Value.tagFreeEntries, Value.tagFree, ih]

theorem plainTags_ofEntries {value : α → Value} {es : Entries α} :
    (ofEntries value es).plainTags ↔ ∀ e ∈ es.toList, (value e.2).plainTags := by
  change Value.plainTagsEntries _ ↔ _
  induction es.toList with
  | nil => simp [Value.plainTagsEntries]
  | cons e rest ih => simp [Value.plainTagsEntries, Value.plainTags, ih]

@[simp]
theorem tagFreeEntries_ifTexts (texts : List String) : Value.tagFreeEntries (ifTexts name texts) = true := by
  rw [ifTexts]
  split
  · rfl
  · simp

theorem tagFreeEntries_ifEntries {value : α → Value} {es : Entries α} :
    Value.tagFreeEntries (ifEntries name value es) ↔ ∀ e ∈ es.toList, (value e.2).tagFree := by
  rw [ifEntries]
  split
  · rename_i hempty
    rw [Entries.isEmpty, List.isEmpty_iff] at hempty
    simp [hempty, Value.tagFreeEntries]
  · rw [tagFreeEntries_always, tagFree_ofEntries]

theorem plainTagsEntries_ifEntries {value : α → Value} {es : Entries α} :
    Value.plainTagsEntries (ifEntries name value es) ↔ ∀ e ∈ es.toList, (value e.2).plainTags := by
  rw [ifEntries]
  split
  · rename_i hempty
    rw [Entries.isEmpty, List.isEmpty_iff] at hempty
    simp [hempty, Value.plainTagsEntries]
  · rw [plainTagsEntries_always, plainTags_ofEntries]

end Fields

section

variable {σ α : Type} [Source σ] [OfValue σ]

open OfValue (of)

def given (fs : Fields) : List (σ × σ) := fs.map fun e => (of e.1, of e.2)

def Holds (found : List (String × σ)) (name : String) (g : Fields) : Prop :=
  (g = [] ∧ found.lookup name = none) ∨ ∃ v, g = .always name v ∧ found.lookup name = some (of v)

def ReadsBack (read : σ → Option α) (value : α → Value) (a : α) : Prop :=
  ∃ b, read (of (value a)) = some b ∧ value b = value a

theorem find_groups {β : Type} {sort : List (String × σ) → List (σ × σ) → β} {names : List String}
    (hsort : ∀ found name v rest, name ∈ names → found.lookup name = none →
      sort found ((of (.string name), of v) :: rest) = sort (found ++ [(name, of v)]) rest)
    {slots : List (String × Fields)} (found : List (String × σ)) (hslots : ∀ s ∈ slots, Fields.IsGroup s.1 s.2)
    (hnames : ∀ s ∈ slots, s.1 ∈ names) (hnodup : (slots.map Prod.fst).Nodup)
    (hnew : ∀ s ∈ slots, found.lookup s.1 = none) :
    ∃ found', (∀ rest, sort found (given (.concat (slots.map Prod.snd)) ++ rest) = sort found' rest) ∧
      (∀ name, name ∉ slots.map Prod.fst → found'.lookup name = found.lookup name) ∧
      ∀ s ∈ slots, Holds found' s.1 s.2 := by
  induction slots generalizing found with
  | nil => exact ⟨found, fun _ => rfl, fun _ _ => rfl, by simp⟩
  | cons s others ih =>
    obtain ⟨name, g⟩ := s
    simp only [List.forall_mem_cons] at hslots hnames hnew
    simp only [List.map_cons, List.nodup_cons] at hnodup
    obtain rfl | ⟨v, rfl⟩ := hslots.1
    · obtain ⟨found', hfind, hkept, hholds⟩ := ih _ hslots.2 hnames.2 hnodup.2 hnew.2
      refine ⟨found', hfind, fun other ho => hkept other (by simp_all), ?_⟩
      rw [List.forall_mem_cons]
      exact ⟨.inl ⟨rfl, (hkept name hnodup.1).trans hnew.1⟩, hholds⟩
    · have hothers : ∀ s ∈ others, (found ++ [(name, of v)]).lookup s.1 = none := by
        intro s hs
        have hne : s.1 ≠ name := fun h => hnodup.1 (h ▸ List.mem_map_of_mem hs)
        simp [List.lookup_append, hnew.2 s hs, List.lookup_cons, beq_false_of_ne hne]
      obtain ⟨found', hfind, hkept, hholds⟩ := ih _ hslots.2 hnames.2 hnodup.2 hothers
      refine ⟨found', fun rest => ?_, fun other ho => ?_, ?_⟩
      · exact (hsort found name v _ hnames.1 hnew.1).trans (hfind rest)
      · simp only [List.map_cons, List.mem_cons, not_or] at ho
        rw [hkept other ho.2]
        simp [List.lookup_append, List.lookup_cons, beq_false_of_ne ho.1]
      · rw [List.forall_mem_cons]
        refine ⟨.inr ⟨v, rfl, ?_⟩, hholds⟩
        rw [hkept name hnodup.1]
        simp [List.lookup_append, hnew.1]

theorem exists_record (slots : List (String × Fields)) (hnodup : (slots.map Prod.fst).Nodup)
    (hslots : ∀ s ∈ slots, Fields.IsGroup s.1 s.2) :
    ∃ r : Record σ, Record.read? (slots.map Prod.fst) (of (Fields.value (slots.map Prod.snd))) = some r ∧
      r.positional = false ∧ ∀ s ∈ slots, Holds r.found s.1 s.2 := by
  have hcollect (found : List (String × σ)) (name : String) (v : Value) (rest : List (σ × σ))
      (hname : name ∈ slots.map Prod.fst) (hnew : found.lookup name = none) :
      Record.collect? true (slots.map Prod.fst) found ((of (.string name), of v) :: rest) =
        Record.collect? true (slots.map Prod.fst) (found ++ [(name, of v)]) rest := by
    rw [Record.collect?, OfValue.key, if_pos (List.contains_iff_mem.mpr hname)]
    simp [hnew]
  obtain ⟨found, hfind, -, hholds⟩ := find_groups hcollect [] hslots
    (fun s hs => List.mem_map_of_mem hs) hnodup (fun _ _ => rfl)
  refine ⟨⟨false, found⟩, ?_, rfl, hholds⟩
  rw [Record.read?, Fields.value, OfValue.mapping]
  change (Record.collect? true _ [] (given _)).map _ = _
  rw [← List.append_nil (given _), hfind]
  rfl

/-! ## Lists and mappings -/

theorem readList_back {read : σ → Option α} {value : α → Value} {as : List α}
    (h : ∀ a ∈ as, ReadsBack read value a) :
    ∃ bs, readList? read (of (.sequence (as.map value))) = some bs ∧ bs.map value = as.map value := by
  rw [readList?, OfValue.sequence]
  induction as with
  | nil => exact ⟨[], rfl, rfl⟩
  | cons a rest ih =>
    rw [List.forall_mem_cons] at h
    obtain ⟨b, hb, hvalue⟩ := h.1
    obtain ⟨bs, hbs, hvalues⟩ := ih h.2
    refine ⟨b :: bs, ?_, by rw [List.map_cons, List.map_cons, hvalue, hvalues]⟩
    simp only [List.map_cons, List.mapM_cons, hb] at hbs ⊢
    rw [hbs]
    rfl

theorem readTexts_back (texts : List String) : readTexts? (of (ofTexts texts) : σ) = some texts := by
  have hback : ∀ s ∈ texts, ReadsBack (σ := σ) Source.text? .string s := fun s _ => ⟨s, OfValue.text s, rfl⟩
  obtain ⟨bs, hread, hvalue⟩ := readList_back hback
  rw [readTexts?, ofTexts, hread, (List.map_inj_right fun _ _ h => Value.string.inj h).mp hvalue]

theorem readEntries_back {read : σ → Option α} {value : α → Value} (es : Entries α)
    (h : ∀ e ∈ es.toList, ReadsBack read value e.2) :
    ∃ fs : Entries α, readEntries? read (of (ofEntries value es)) = some fs ∧
      fs.toList.map (fun e => (e.1, value e.2)) = es.toList.map fun e => (e.1, value e.2) := by
  have hlist (as : List (String × α)) (has : ∀ e ∈ as, ReadsBack read value e.2) :
      ∃ bs : List (String × α), (given (as.map fun e => (.string e.1, value e.2))).mapM (readNamed? read) = some bs ∧
        bs.map (fun e => (e.1, value e.2)) = as.map fun e => (e.1, value e.2) := by
    induction as with
    | nil => exact ⟨[], rfl, rfl⟩
    | cons e rest ih =>
      rw [List.forall_mem_cons] at has
      obtain ⟨b, hb, hvalue⟩ := has.1
      obtain ⟨bs, hbs, hvalues⟩ := ih has.2
      refine ⟨(e.1, b) :: bs, ?_, by rw [List.map_cons, List.map_cons, hvalue, hvalues]⟩
      have hnamed : readNamed? read (of (.string e.1), of (value e.2)) = some (e.1, b) := by
        simp [readNamed?, OfValue.text, hb]
      simp only [given, List.map_cons, List.mapM_cons, hnamed] at hbs ⊢
      rw [hbs]
      rfl
  obtain ⟨bs, hbs, hvalues⟩ := hlist es.toList h
  have hnames : bs.map Prod.fst = es.toList.map Prod.fst := by
    simpa [Function.comp_def] using congrArg (List.map Prod.fst) hvalues
  refine ⟨.ofList bs, ?_, ?_⟩
  · rw [readEntries?, ofEntries, OfValue.mapping]
    change Option.map _ ((given (es.toList.map fun e => (.string e.1, value e.2))).mapM (readNamed? read)) = _
    rw [hbs]
    rfl
  · rw [Entries.toList_ofList (hnames ▸ es.nodup), hvalues]

theorem readTextEntries_back (es : Entries String) : readTextEntries? (of (ofEntries .string es) : σ) = some es := by
  have hback : ∀ e ∈ es.toList, ReadsBack (σ := σ) Source.text? .string e.2 :=
    fun e _ => ⟨e.2, OfValue.text e.2, rfl⟩
  obtain ⟨fs, hread, hvalues⟩ := readEntries_back es hback
  have hinj : ∀ a b : String × String, (a.1, Value.string a.2) = (b.1, Value.string b.2) → a = b := by
    rintro ⟨a, b⟩ ⟨c, d⟩ h
    simpa using h
  rw [readTextEntries?, hread, Entries.ext ((List.map_inj_right hinj).mp hvalues)]

theorem ofEntries_congr {value : α → Value} {es fs : Entries α}
    (h : fs.toList.map (fun e => (e.1, value e.2)) = es.toList.map fun e => (e.1, value e.2)) :
    ofEntries value fs = ofEntries value es := by
  have hcongr := congrArg (List.map fun e : String × Value => (Value.string e.1, e.2)) h
  simpa [ofEntries, Function.comp_def] using hcongr

/-! ## Fields -/

namespace Holds

variable {found : List (String × σ)} {r : Record σ} {name : String} {read : σ → Option α} {value : α → Value}

theorem lookup_nil (h : Holds found name []) : found.lookup name = none := by
  obtain ⟨-, h⟩ | ⟨v, hv, -⟩ := h
  · exact h
  · cases hv

theorem lookup_always {v : Value} (h : Holds found name (.always name v)) : found.lookup name = some (of v) := by
  obtain ⟨hnil, -⟩ | ⟨w, hw, h⟩ := h
  · cases hnil
  · cases hw
    exact h

theorem required {v : Value} (h : Holds r.found name (.always name v)) :
    r.required? name read = read (of v) := by
  rw [Record.required?, h.lookup_always]
  rfl

theorem required_text {s : String} (h : Holds r.found name (.always name (.string s))) :
    r.required? name Source.text? = some s := h.required.trans (OfValue.text s)

theorem optional {x : Option α} (h : Holds r.found name (.ifSome name value x)) (hpos : r.positional = false)
    (hnull : ∀ a ∈ x, (value a).isNull = false) (hread : ∀ a ∈ x, ReadsBack read value a) :
    ∃ y, r.optional? name read = some y ∧ Fields.ifSome name value y = Fields.ifSome name value x := by
  cases x with
  | none => exact ⟨none, by rw [Record.optional?, h.lookup_nil]; simp [hpos], rfl⟩
  | some a =>
    obtain ⟨b, hb, hvalue⟩ := hread a rfl
    refine ⟨some b, ?_, by rw [Fields.ifSome, Fields.ifSome, hvalue]⟩
    rw [Record.optional?, lookup_always h]
    simp [readOptional?, OfValue.present (hnull a rfl), hb]

theorem text {x : Option String} (h : Holds r.found name (.ifText name x)) (hpos : r.positional = false) :
    r.optional? name Source.text? = some x := by
  cases x with
  | none => rw [Record.optional?, h.lookup_nil]; simp [hpos]
  | some s =>
    rw [Record.optional?, lookup_always h]
    simp [readOptional?, OfValue.present (σ := σ) (v := .string s) rfl, OfValue.text]

theorem texts {xs : List String} (h : Holds r.found name (.ifTexts name xs)) :
    r.defaulted? name [] readTexts? = some xs := by
  rw [Fields.ifTexts] at h
  split at h
  · rename_i hempty
    rw [Record.defaulted?, h.lookup_nil, List.isEmpty_iff.mp hempty]
  · rw [Record.defaulted?, h.lookup_always]
    exact readTexts_back xs

theorem items {as : List α}
    (h : Holds r.found name (if as.isEmpty then [] else .always name (.sequence (as.map value))))
    (hread : ∀ a ∈ as, ReadsBack read value a) :
    ∃ bs, r.defaulted? name [] (readList? read) = some bs ∧
      (if bs.isEmpty then [] else Fields.always name (.sequence (bs.map value))) =
        if as.isEmpty then [] else Fields.always name (.sequence (as.map value)) := by
  split at h
  · rename_i hempty
    refine ⟨[], by rw [Record.defaulted?, h.lookup_nil], ?_⟩
    rw [if_pos hempty]
    rfl
  · obtain ⟨bs, hbs, hvalues⟩ := readList_back hread
    refine ⟨bs, by rw [Record.defaulted?, h.lookup_always]; exact hbs, ?_⟩
    have hisEmpty : bs.isEmpty = as.isEmpty := by simpa using congrArg List.isEmpty hvalues
    rw [hisEmpty, hvalues]

theorem entries {es : Entries α} (h : Holds r.found name (.ifEntries name value es))
    (hread : ∀ e ∈ es.toList, ReadsBack read value e.2) :
    ∃ fs, r.defaulted? name .empty (readEntries? read) = some fs ∧
      Fields.ifEntries name value fs = Fields.ifEntries name value es := by
  rw [Fields.ifEntries] at h
  split at h
  · rename_i hempty
    refine ⟨.empty, by rw [Record.defaulted?, h.lookup_nil], ?_⟩
    rw [Fields.ifEntries, Fields.ifEntries, hempty]
    rfl
  · rename_i hempty
    obtain ⟨fs, hfs, hvalues⟩ := readEntries_back es hread
    refine ⟨fs, by rw [Record.defaulted?, h.lookup_always]; exact hfs, ?_⟩
    have hisEmpty : fs.isEmpty = es.isEmpty := by
      simpa [Entries.isEmpty] using congrArg List.isEmpty hvalues
    rw [Fields.ifEntries, Fields.ifEntries, hisEmpty, ofEntries_congr hvalues]

theorem textEntries {es : Entries String} (h : Holds r.found name (.ifEntries name .string es)) :
    r.defaulted? name .empty readTextEntries? = some es := by
  rw [Fields.ifEntries] at h
  split at h
  · rename_i hempty
    rw [Record.defaulted?, h.lookup_nil, Entries.ext (b := es) (a := .empty) (List.isEmpty_iff.mp hempty).symm]
  · rw [Record.defaulted?, h.lookup_always]
    exact readTextEntries_back es

end Holds

/-- A record reads from its groups of fields if it does once each field is found. -/
theorem exists_read {read : σ → Option α} {P : α → Prop} {v : Value} {names : List String}
    {groups : List Fields} {k : Record σ → Option α} (hvalue : v = Fields.value groups)
    (hread : ∀ s, read s = (Record.read? names s).bind k) (hnodup : names.Nodup)
    (hlength : names.length = groups.length) (hgroups : ∀ s ∈ names.zip groups, Fields.IsGroup s.1 s.2)
    (hk : ∀ r, r.positional = false → (∀ s ∈ names.zip groups, Holds r.found s.1 s.2) →
      ∃ b, k r = some b ∧ P b) : ∃ b, read (of v) = some b ∧ P b := by
  have hfst : (names.zip groups).map Prod.fst = names := List.map_fst_zip (by omega)
  have hsnd : (names.zip groups).map Prod.snd = groups := List.map_snd_zip (by omega)
  obtain ⟨r, hr, hpos, hheld⟩ := exists_record (σ := σ) (names.zip groups) (hfst.symm ▸ hnodup) hgroups
  rw [hfst, hsnd] at hr
  obtain ⟨b, hb, hback⟩ := hk r hpos hheld
  exact ⟨b, by rw [hread, hvalue, hr, Option.bind_some, hb], hback⟩

theorem ReadsBack.record {read : σ → Option α} {value : α → Value} {a : α} {names : List String}
    {groups : List Fields} {k : Record σ → Option α} (hvalue : value a = Fields.value groups)
    (hread : ∀ s, read s = (Record.read? names s).bind k) (hnodup : names.Nodup)
    (hlength : names.length = groups.length) (hgroups : ∀ s ∈ names.zip groups, Fields.IsGroup s.1 s.2)
    (hk : ∀ r, r.positional = false → (∀ s ∈ names.zip groups, Holds r.found s.1 s.2) →
      ∃ b, k r = some b ∧ value b = value a) : ReadsBack read value a :=
  exists_read hvalue hread hnodup hlength hgroups hk

theorem readOneOf_of {reads : List (Value → Option α)} {v : Value} (h : v.tagFree) :
    readOneOf? reads (of v : σ) = reads.findSome? (· v) := by
  rw [readOneOf?, OfValue.buffer h]
  rfl

theorem readOneOf_text {β : Type} {f : String → β} {g : α → β} {read : Value → Option α} (s : String) :
    readOneOf? [fun v => v.text?.map f, fun v => (read v).map g] (of (.string s) : σ) = some (f s) := by
  rw [readOneOf_of rfl]
  rfl

theorem readOneOf_other {β : Type} {f : String → β} {g : α → β} {read : Value → Option α} {v : Value} {a : α}
    (htags : v.tagFree) (htext : v.text? = none) (ha : read v = some a) :
    readOneOf? [fun v => v.text?.map f, fun v => (read v).map g] (of v : σ) = some (g a) := by
  rw [readOneOf_of htags]
  simp [htext, ha]

end

end Yaml

end CiWorkflow
