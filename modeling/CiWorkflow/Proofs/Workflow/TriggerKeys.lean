import CiWorkflow.Proofs.Workflow.ReadBack.Trigger
import CiWorkflow.Proofs.Workflow.StrayKey
import CiWorkflow.Proofs.Workflow.Validity

set_option autoImplicit false

namespace CiWorkflow

open Yaml

namespace Yaml

def Value.keys : Value → List Value
  | .mapping es => es.map Prod.fst
  | _ => []

theorem Fields.mem_keys_concat {slots : List (String × Fields)} (h : ∀ s ∈ slots, IsGroup s.1 s.2) (k : Value) :
    k ∈ (concat (slots.map Prod.snd)).map Prod.fst ↔ ∃ s ∈ slots, s.2 ≠ [] ∧ k = .string s.1 := by
  induction slots with
  | nil => simp [concat]
  | cons s rest ih =>
    rw [List.forall_mem_cons] at h
    obtain ⟨name, g⟩ := s
    have hcons : (concat (((name, g) :: rest).map Prod.snd)).map Prod.fst =
        g.map Prod.fst ++ (concat (rest.map Prod.snd)).map Prod.fst := by
      simp [concat]
    have hg : g = [] ∨ ∃ v, g = always name v := h.1
    rw [hcons, List.mem_append, ih h.2]
    obtain rfl | ⟨v, rfl⟩ := hg <;> simp [always]

theorem Value.putEntry_ne_nil (k v : Value) (es : List (Value × Value)) : putEntry k v es ≠ [] := by
  cases es with
  | nil => simp [putEntry]
  | cons e rest =>
    rw [putEntry]
    split <;> simp

end Yaml

namespace TriggerSpec

/-- A trigger counts as active exactly if the mapping that is written for it has a key. -/
theorem isActive_iff_keys (t : TriggerSpec) : t.isActive = true ↔ t.value.keys ≠ [] := by
  have hput (others : List (String × Value)) (es : Fields) :
      others.foldl (fun es e => Value.putEntry (.string e.1) e.2.rebuilt es) es = [] ↔ es = [] ∧ others = [] := by
    induction others generalizing es with
    | nil => simp
    | cons e rest ih => simp [ih, Value.putEntry_ne_nil]
  have hsome {α : Type} {name : String} {value : α → Value} {x : Option α} :
      Fields.ifSome name value x = [] ↔ x.isSome = false := by
    cases x <;> simp [Fields.ifSome, Fields.always]
  have hown : t.ownFields = [] ↔ ∀ g ∈ t.groups, g = [] := List.flatten_eq_nil_iff
  have hkeys : t.value.keys = [] ↔ (∀ g ∈ t.groups, g = []) ∧ t.other.toList = [] := by
    rw [← hown, ← hput]
    exact List.map_eq_nil_iff
  rw [← not_iff_not, Bool.not_eq_true, not_not, hkeys]
  simp [isActive, Entries.isEmpty, groups, hsome, and_assoc]

section Reading

variable {σ : Type} [Source σ] {found found' : List (String × σ)} {other other' : Entries Value} {es : List (σ × σ)}

theorem found_of_sortEvents (h : sortEvents? found other es = some (found', other')) {name : String} {x : σ}
    (hx : found'.lookup name = some x) :
    found.lookup name = some x ∨ ∃ e ∈ es, Source.text? e.1 = some name ∧ e.2 = x := by
  induction es generalizing found other with
  | nil =>
    cases h
    exact .inl hx
  | cons e rest ih =>
    have hrest : (∃ e ∈ rest, Source.text? e.1 = some name ∧ e.2 = x) →
        ∃ e' ∈ e :: rest, Source.text? e'.1 = some name ∧ e'.2 = x :=
      fun ⟨e', he', h⟩ => ⟨e', List.mem_cons_of_mem _ he', h⟩
    obtain ⟨own, htext, ⟨-, -, h⟩ | ⟨-, settings, h⟩⟩ := sortEvents_cons h
    · obtain hlookup | hlater := ih h
      · rw [List.lookup_append, Option.or_eq_some_iff] at hlookup
        obtain hlookup | ⟨-, hlookup⟩ := hlookup
        · exact .inl hlookup
        · by_cases hown : name = own
          · subst hown
            exact .inr ⟨e, List.mem_cons_self .., htext, by simpa using hlookup⟩
          · simp [List.lookup_cons, beq_false_of_ne hown] at hlookup
      · exact .inr (hrest hlater)
    · exact (ih h).imp_right hrest

theorem names_of_sortEvents (h : sortEvents? found other es = some (found', other')) (name : String) :
    name ∈ other'.names ↔ name ∈ other.names ∨ name ∉ fieldNames ∧ ∃ e ∈ es, Source.text? e.1 = some name := by
  induction es generalizing found other with
  | nil =>
    cases h
    simp
  | cons e rest ih =>
    obtain ⟨own, htext, ⟨hown, -, h⟩ | ⟨hfree, settings, h⟩⟩ := sortEvents_cons h
    · rw [ih h]
      refine or_congr_right (and_congr_right fun hname => ?_)
      have hne : own ≠ name := fun heq => hname (heq ▸ hown)
      simp [htext, hne]
    · rw [ih h, Entries.mem_names_insert]
      simp only [List.mem_cons, or_and_right, exists_or, exists_eq_left, htext, Option.some.injEq]
      constructor
      · rintro ((rfl | hname) | ⟨hname, hlater⟩)
        · exact .inr ⟨hfree, .inl rfl⟩
        · exact .inl hname
        · exact .inr ⟨hname, .inr hlater⟩
      · rintro (hname | ⟨hname, rfl | hlater⟩)
        · exact .inl (.inr hname)
        · exact .inl (.inl rfl)
        · exact .inr ⟨hname, hlater⟩

theorem exists_name_of_sortEvents (h : sortEvents? found other es = some (found', other')) :
    ∀ e ∈ es, ∃ name, Source.text? e.1 = some name := by
  induction es generalizing found other with
  | nil => simp
  | cons e rest ih =>
    obtain ⟨name, htext, ⟨-, -, h⟩ | ⟨-, settings, h⟩⟩ := sortEvents_cons h
    all_goals exact List.forall_mem_cons.mpr ⟨⟨name, htext⟩, ih h⟩

/-- The event is found; a schedule has settings besides. -/
def IsFound (found : List (String × σ)) (name : String) : Prop :=
  ∃ x, found.lookup name = some x ∧ (name = "schedule" → Source.present? x ≠ some false)

theorem isSome_readEvent {α : Type} [Inhabited α] {name : String} {read : σ → Option α} {x : Option α}
    (hname : name ≠ "schedule") (h : readEvent? name read found = some x) : x.isSome ↔ IsFound found name := by
  rw [readEvent?] at h
  split at h
  · rename_i hnone
    cases h
    simp [IsFound, hnone]
  · rename_i s hs
    obtain ⟨y, -, rfl⟩ := Option.map_eq_some_iff.mp h
    simp [IsFound, hs, hname]

theorem isSome_readSchedule {x : Option Schedule} (h : readSchedule? found = some x) :
    x.isSome ↔ IsFound found "schedule" := by
  rw [readSchedule?] at h
  split at h
  · rename_i hnone
    cases h
    simp [IsFound, hnone]
  · rename_i s hs
    rw [readOptional?] at h
    split at h
    · cases h
    · rename_i hpresent
      cases h
      simp [IsFound, hs, hpresent]
    · rename_i hpresent
      obtain ⟨y, -, rfl⟩ := Option.map_eq_some_iff.mp h
      simp [IsFound, hs, hpresent]

theorem groups_of_found {t : TriggerSpec} (h : ofFound? found other = some t) :
    t.other = other ∧ ∀ s ∈ fieldNames.zip t.groups, s.2 ≠ [] ↔ IsFound found s.1 := by
  have hsome {α : Type} {name : String} {value : α → Value} {x : Option α} :
      Fields.ifSome name value x ≠ [] ↔ x.isSome := by
    cases x <;> simp [Fields.ifSome, Fields.always]
  simp only [ofFound?, Option.bind_eq_bind, Option.bind_eq_some_iff] at h
  obtain ⟨_, hpush, _, hpull, _, htarget, _, hmerge, _, hschedule, _, hdispatch, _, hcall, _, hrun, _, hrelease, _,
    hissues, _, hcomment, ht⟩ := h
  cases ht
  refine ⟨rfl, ?_⟩
  simp only [fieldNames, groups, List.zip_cons_cons, List.zip_nil_right, List.forall_mem_cons, hsome]
  exact ⟨isSome_readEvent (by decide) hpush, isSome_readEvent (by decide) hpull,
    isSome_readEvent (by decide) htarget, isSome_readEvent (by decide) hmerge, isSome_readSchedule hschedule,
    isSome_readEvent (by decide) hdispatch, isSome_readEvent (by decide) hcall,
    isSome_readEvent (by decide) hrun, isSome_readEvent (by decide) hrelease,
    isSome_readEvent (by decide) hissues, isSome_readEvent (by decide) hcomment, by simp⟩

/-- The written mapping has the key of every entry that was read but that of a schedule without settings. -/
theorem mem_keys_of_read {s : σ} {t : TriggerSpec} (hs : Source.shape s = .entries es) (ht : read? s = some t)
    (k : Value) : k ∈ t.value.keys ↔ ∃ e ∈ es, ∃ name, Source.text? e.1 = some name ∧ k = .string name ∧
      (name = "schedule" → Source.present? e.2 ≠ some false) := by
  rw [read?, hs] at ht
  obtain ⟨⟨found, other⟩, hsort, hfound⟩ := Option.bind_eq_some_iff.mp ht
  obtain ⟨rfl, hgroups⟩ := groups_of_found hfound
  have hnames := names_of_sortEvents hsort
  obtain ⟨-, hkept⟩ := lookup_of_sortEvents hsort
  have hfree : t.FreeNames := fun e he hown => by
    obtain hn | hn := (hnames e.1).mp (List.mem_map_of_mem he)
    · cases hn
    · exact hn.1 hown
  have hisFound {name : String} (hn : name ∈ fieldNames) : IsFound found name ↔
      ∃ e ∈ es, Source.text? e.1 = some name ∧ (name = "schedule" → Source.present? e.2 ≠ some false) := by
    constructor
    · rintro ⟨x, hx, hpresent⟩
      obtain hx | ⟨e, he, htext, rfl⟩ := found_of_sortEvents hsort hx
      · cases hx
      · exact ⟨e, he, htext, hpresent⟩
    · rintro ⟨e, he, htext, hpresent⟩
      exact ⟨e.2, hkept e he name hn htext, hpresent⟩
  have hkeys : t.value.keys = ((Fields.concat ((fieldNames.zip t.groups).map Prod.snd)) ++
      others t.other.toList).map Prod.fst := by
    rw [value_eq hfree]
    rfl
  have hown : (∃ s ∈ fieldNames.zip t.groups, s.2 ≠ [] ∧ k = .string s.1) ↔
      ∃ name ∈ fieldNames, IsFound found name ∧ k = .string name := by
    have hzip : (fieldNames.zip t.groups).map Prod.fst = fieldNames := rfl
    constructor
    · rintro ⟨s, hmem, hne, hk⟩
      exact ⟨s.1, (List.of_mem_zip hmem).1, (hgroups s hmem).mp hne, hk⟩
    · rintro ⟨name, hn, hfound, hk⟩
      rw [← hzip] at hn
      obtain ⟨s, hmem, rfl⟩ := List.mem_map.mp hn
      exact ⟨s, hmem, (hgroups s hmem).mpr hfound, hk⟩
  have hothers : k ∈ (others t.other.toList).map Prod.fst ↔ ∃ name ∈ t.other.names, k = .string name := by
    simp [others, Entries.names, eq_comm]
  rw [hkeys, List.map_append, List.mem_append, Fields.mem_keys_concat t.isGroup_groups, hown, hothers]
  constructor
  · rintro (⟨name, hn, hfound, rfl⟩ | ⟨name, hn, rfl⟩)
    · obtain ⟨e, he, htext, hpresent⟩ := (hisFound hn).mp hfound
      exact ⟨e, he, name, htext, rfl, hpresent⟩
    · obtain hn | ⟨hfree, e, he, htext⟩ := (hnames name).mp hn
      · cases hn
      · refine ⟨e, he, name, htext, rfl, ?_⟩
        rintro rfl
        exact absurd (by decide) hfree
  · rintro ⟨e, he, name, htext, rfl, hpresent⟩
    by_cases hn : name ∈ fieldNames
    · exact .inl ⟨name, hn, (hisFound hn).mpr ⟨e, he, htext, hpresent⟩, rfl⟩
    · exact .inr ⟨name, (hnames name).mpr (.inr ⟨hn, e, he, htext⟩), rfl⟩

/-- No event is lost, and the events are accepted exactly if there are any, unless a schedule is given without
settings. -/
theorem keys_kept_iff {s : σ} {t : TriggerSpec} (hs : Source.shape s = .entries es) (ht : read? s = some t) :
    ((∀ k, k ∈ t.value.keys ↔ ∃ e ∈ es, ∃ name, Source.text? e.1 = some name ∧ k = .string name) ∧
        (Triggers.validate (.spec t) = .ok () ↔ es ≠ [])) ↔
      ∀ e ∈ es, Source.text? e.1 = some "schedule" → Source.present? e.2 ≠ some false := by
  have hkeys := mem_keys_of_read hs ht
  have haccepted : Triggers.validate (.spec t) = .ok () ↔ t.value.keys ≠ [] := by
    rw [← isActive_iff_keys, Triggers.validate, Triggers.isActive]
    cases t.isActive <;> simp
  rw [read?, hs] at ht
  obtain ⟨⟨found, other⟩, hsort, -⟩ := Option.bind_eq_some_iff.mp ht
  constructor
  · rintro ⟨hsame, -⟩ e he htext
    have hschedule := (hsame (.string "schedule")).mpr ⟨e, he, _, htext, rfl⟩
    obtain ⟨e', he', name, htext', hk, hpresent⟩ := (hkeys _).mp hschedule
    cases hk
    have hlookup := (lookup_of_sortEvents hsort).2
    have hsettings : e.2 = e'.2 := Option.some.inj
      ((hlookup e he _ (by decide) htext).symm.trans (hlookup e' he' _ (by decide) htext'))
    exact hsettings ▸ hpresent rfl
  · intro hsettings
    have hsame (k : Value) :
        k ∈ t.value.keys ↔ ∃ e ∈ es, ∃ name, Source.text? e.1 = some name ∧ k = .string name := by
      rw [hkeys]
      refine exists_congr fun e => and_congr_right fun he => exists_congr fun name => and_congr_right fun htext => ?_
      refine and_iff_left ?_
      rintro rfl
      exact hsettings e he htext
    refine ⟨hsame, haccepted.trans (not_congr ⟨fun hnone => ?_, fun hnone => ?_⟩)⟩
    · refine List.eq_nil_iff_forall_not_mem.mpr fun e he => ?_
      obtain ⟨name, htext⟩ := exists_name_of_sortEvents hsort e he
      have hmem := (hsame (.string name)).mpr ⟨e, he, name, htext, rfl⟩
      simp [hnone] at hmem
    · refine List.eq_nil_iff_forall_not_mem.mpr fun k hk => ?_
      obtain ⟨e, he, -⟩ := (hsame k).mp hk
      simp [hnone] at he

/-- A push without settings, a schedule, and an event without settings of its own. -/
def threeEvents : List (Value × Value) :=
  [(.string "push", .null), (.string "schedule", .sequence [.string "0 0 * * *"]), (.string "fork", .null)]

theorem keys_kept_three_events : ∃ t, read? (.mapping threeEvents : Value) = some t ∧
    (∀ e ∈ threeEvents, Source.text? e.1 = some "schedule" → Source.present? e.2 ≠ some false) ∧
    (∀ k, k ∈ t.value.keys ↔ k = .string "push" ∨ k = .string "schedule" ∨ k = .string "fork") ∧
    Triggers.validate (.spec t) = .ok () := by
  have hread : read? (.mapping threeEvents : Value) = some { empty with
      push := some default, schedule := some ⟨["0 0 * * *"]⟩, other := .ofList [("fork", .null)] } := rfl
  have hsettings : ∀ e ∈ threeEvents, Source.text? e.1 = some "schedule" → Source.present? e.2 ≠ some false := by
    simp [threeEvents, Source.present?, Source.text?, Value.text?, Value.isNull]
  obtain ⟨hkeys, haccepted⟩ := (keys_kept_iff rfl hread).mpr hsettings
  refine ⟨_, hread, hsettings, fun k => (hkeys k).trans ?_, haccepted.mpr (by simp [threeEvents])⟩
  simp [threeEvents, Source.text?, Value.text?]

/-- A schedule without settings counts as none. -/
theorem keys_lost_empty_schedule : ¬ ∀ (v : Value) (es : List (Value × Value)) (t : TriggerSpec),
    Source.shape v = .entries es → read? v = some t →
      (∀ k, k ∈ t.value.keys ↔ ∃ e ∈ es, ∃ name, Source.text? e.1 = some name ∧ k = .string name) ∧
        (Triggers.validate (.spec t) = .ok () ↔ es ≠ []) := by
  intro h
  obtain ⟨-, haccepted⟩ := h (.mapping [(.string "schedule", .null)]) _ .empty rfl rfl
  have hrefused : Triggers.validate (.spec .empty) = .error .emptyTriggerSet := rfl
  have hgiven := haccepted.mpr (by simp)
  rw [hrefused] at hgiven
  cases hgiven

end Reading

end TriggerSpec

end CiWorkflow
