import CiWorkflow.Proofs.Workflow.Schema
import CiWorkflow.Workflow.Validate

/-!
# No stray key in a workflow that loads

A reader guards a schema if it reads no value with a stray key. Records, lists, mappings and choices of
shapes keep this, so the readers of all parts of a workflow guard theirs. The one exception is the record
with all times of a schedule: keys besides its own are passed over.
-/
set_option autoImplicit false

namespace CiWorkflow

namespace Yaml

theorem isSome_mapM_iff {α β : Type} {read : α → Option β} {items : List α} :
    (items.mapM read).isSome ↔ ∀ s ∈ items, (read s).isSome := by
  induction items with
  | nil => simp
  | cons x rest ih =>
    cases hx : read x with
    | none => simp [List.mapM_cons, hx]
    | some a => cases hrest : rest.mapM read <;> simp_all [List.mapM_cons]

theorem exists_of_mapM {α β : Type} {read : α → Option β} {items : List α} {as : List β} {s : α}
    (h : items.mapM read = some as) (hs : s ∈ items) : ∃ a, read s = some a :=
  Option.isSome_iff_exists.mp (isSome_mapM_iff.mp (by simp [h]) s hs)

section

variable {σ α β : Type} [Source σ]

variable [Content σ]

def Guards (read : σ → Option α) (sch : Schema) : Prop :=
  ∀ ⦃s : σ⦄ ⦃v : Value⦄ ⦃a : α⦄, Content.content? s = some v → read s = some a → ¬ HasStrayKey sch v

def Clean (found : List (String × σ)) (name : String) (sch : Schema) : Prop :=
  ∀ ⦃s : σ⦄ ⦃v : Value⦄, found.lookup name = some s → Content.content? s = some v → ¬ HasStrayKey sch v

namespace Guards

variable {read : σ → Option α} {sch other : Schema}

theorem free : Guards read .free := fun _ _ _ _ _ => HasStrayKey.not_free

theorem text : Guards (Source.text? (σ := σ)) sch := by
  intro s v a hv ha h
  rw [Content.no_text hv h.isCollection] at ha
  cases ha

theorem bool : Guards (Source.bool? (σ := σ)) sch := by
  intro s v a hv ha h
  rw [Content.no_bool hv h.isCollection] at ha
  cases ha

theorem word {words : List String} : Guards (Source.word? (σ := σ) words) (.ofNames words) := by
  intro s v w hv hw h
  obtain ⟨k, rfl, hk⟩ := Content.word hv h.isCollection hw
  cases h with
  | undeclared hmap he hn =>
    cases hmap
    rw [List.mem_singleton, Prod.mk.injEq] at he
    exact hn (by simpa [Function.comp_def] using hk _ he.1.symm)
  | field hmap he hf h =>
    cases hmap
    rw [List.mem_singleton, Prod.mk.injEq] at he
    obtain ⟨-, rfl⟩ := he
    cases h.isCollection
  | place hseq => cases hseq

theorem optional (hread : Guards read sch) : Guards (readOptional? read) sch := by
  intro s v x hv hx h
  rw [readOptional?, Content.present hv h.isCollection] at hx
  obtain ⟨a, ha, -⟩ := Option.map_eq_some_iff.mp hx
  exact hread hv ha h

theorem map {f : α → β} (hread : Guards read sch) : Guards (fun s => (read s).map f) sch := by
  intro s v b hv hb
  obtain ⟨a, ha, -⟩ := Option.map_eq_some_iff.mp hb
  exact hread hv ha

theorem bind {f : α → Option β} (hread : Guards read sch) : Guards (fun s => (read s).bind f) sch := by
  intro s v b hv hb
  obtain ⟨a, ha, -⟩ := Option.bind_eq_some_iff.mp hb
  exact hread hv ha

theorem listOr (hseq : ∀ s v vs a, Content.content? s = some v → v.bare = .sequence vs → read s = some a →
      ∀ w ∈ vs, ¬ HasStrayKey sch w)
    (hmap : ∀ s v es a, Content.content? s = some v → v.bare = .mapping es → read s = some a →
      ¬ HasStrayKey other v) : Guards read (.listOr sch other) := by
  intro s v a hv ha h
  cases h with
  | item hbare hw h => exact hseq s v _ a hv hbare ha _ hw h
  | other hbare h => exact hmap s v _ a hv hbare ha h

theorem not_mapping_of_list {s : σ} {v : Value} {es : List (Value × Value)} {as : List α}
    (hv : Content.content? s = some v) (hmap : v.bare = .mapping es) : readList? read s ≠ some as := by
  intro h
  obtain ⟨xs, hshape, -⟩ | hother := Content.mapping hv hmap
  · rw [readList?, hshape] at h
    cases h
  · rw [readList?, hother] at h
    cases h

theorem items (hread : Guards read sch) {s : σ} {v : Value} {vs : List Value} {as : List α}
    (hv : Content.content? s = some v) (hseq : v.bare = .sequence vs) (h : readList? read s = some as) :
    ∀ w ∈ vs, ¬ HasStrayKey sch w := by
  intro w hw
  obtain ⟨xs, hshape, hitems⟩ | hother := Content.sequence hv hseq
  · rw [readList?, hshape] at h
    obtain ⟨i, hi⟩ := List.mem_iff_getElem?.mp hw
    obtain ⟨x, hx, hcontent⟩ := hitems i w hi
    obtain ⟨a, ha⟩ := exists_of_mapM h (List.mem_of_getElem? hx)
    exact hread hcontent ha
  · rw [readList?, hother] at h
    cases h

theorem list (hread : Guards read sch) : Guards (readList? read) (.listOr sch other) :=
  listOr (fun _ _ _ _ hv hseq ha => hread.items hv hseq ha)
    fun _ _ _ _ hv hmap ha => absurd ha (not_mapping_of_list hv hmap)

theorem flat (hread : ∀ sch, Guards read sch) : Guards (readList? read) sch := by
  intro s v as hv ha h
  cases hbare : v.bare with
  | sequence vs => exact HasStrayKey.not_flat hbare (fun w hw sch' => (hread sch').items hv hbare ha w hw) h
  | mapping ws => exact not_mapping_of_list hv hbare ha
  | _ => simpa [Value.isCollection, hbare] using h.isCollection

theorem texts : Guards (readTexts? (σ := σ)) sch := flat fun _ => text

theorem openMap (hread : Guards read sch) : Guards (readEntries? read) (.openMap sch) := by
  refine listOr (fun s v vs as hv hseq ha => ?_) ?_
  · obtain ⟨xs, hshape, -⟩ | hother := Content.sequence hv hseq
    · rw [readEntries?, hshape] at ha
      cases ha
    · rw [readEntries?, hother] at ha
      cases ha
  · rintro s v ws as hv - ha (_ | _ | ⟨hmap, he, h⟩)
    obtain ⟨xs, hshape, hentries⟩ | hother := Content.mapping hv hmap
    · rw [readEntries?, hshape] at ha
      obtain ⟨x, hx, -, hcontent⟩ := hentries _ he
      obtain ⟨as', has, -⟩ := Option.map_eq_some_iff.mp ha
      obtain ⟨a, hnamed⟩ := exists_of_mapM has hx
      simp only [readNamed?, Option.bind_eq_bind, Option.bind_eq_some_iff] at hnamed
      obtain ⟨-, -, b, hb, -⟩ := hnamed
      exact hread hcontent hb h
    · rw [readEntries?, hother] at ha
      cases ha

theorem oneOf {reads : List (Value → Option α)} (hreads : ∀ read ∈ reads, Guards read sch) :
    Guards (readOneOf? (σ := σ) reads) sch := by
  intro s v a hv ha h
  obtain ⟨w, hw, hfirst⟩ := Option.bind_eq_some_iff.mp ha
  obtain ⟨read, hmem, hread⟩ := List.exists_of_findSome?_eq_some hfirst
  exact hreads read hmem (Content.buffer hv hw ▸ rfl) hread h

theorem either {first second : Value → Option α} (hfirst : Guards first sch) (hsecond : Guards second sch) :
    Guards (readOneOf? (σ := σ) [first, second]) sch :=
  oneOf (by simpa using ⟨hfirst, hsecond⟩)

theorem anyOf {first second third : Value → Option α} (hfirst : Guards first sch) (hsecond : Guards second sch)
    (hthird : Guards third sch) : Guards (readOneOf? (σ := σ) [first, second, third]) sch :=
  oneOf (by simpa using ⟨hfirst, hsecond, hthird⟩)

theorem natural {bound : Nat} : Guards (readNatural? bound) sch := by
  intro s v n hv hn h
  cases hv
  cases s with
  | int => cases h.isCollection
  | _ => cases hn

/-- A word that comes as a key to null is a mapping without anything under its key. -/
theorem word_openMap {words : List String} : Guards (Source.word? (σ := σ) words) (.openMap sch) := by
  intro s v w hv hw h
  obtain ⟨k, rfl, -⟩ := Content.word hv h.isCollection hw
  rcases h with _ | _ | _ | _ | _ | _ | _ | ⟨hseq⟩ | ⟨-, _ | _ | ⟨hmap, he, h⟩⟩
  · cases hseq
  · cases hmap
    rw [List.mem_singleton] at he
    subst he
    cases h.isCollection

/-- A record guards its fields if each of them is clean in what was found. -/
theorem record {fields : List (String × Schema)} {k : Record σ → Option α} (hnodup : (fields.map Prod.fst).Nodup)
    (hread : ∀ s, read s = (Record.read? (fields.map Prod.fst) s).bind k)
    (hk : ∀ r a, k r = some a → ∀ f ∈ fields, Clean r.found f.1 f.2) : Guards read (.record fields) := by
  intro s v a hv ha h
  rw [hread, Option.bind_eq_some_iff] at ha
  obtain ⟨r, hr, ha⟩ := ha
  have hclean := hk r a ha
  have hmapping {es : List (Value × Value)} (hmap : v.bare = .mapping es) {name : String} {w : Value}
      (he : (.string name, w) ∈ es) :
      name ∈ fields.map Prod.fst ∧ ∃ x, r.found.lookup name = some x ∧ Content.content? x = some w := by
    obtain ⟨xs, hshape, hentries⟩ | hother := Content.mapping hv hmap
    · rw [Record.read?, hshape] at hr
      obtain ⟨found, hfound, rfl⟩ := Option.map_eq_some_iff.mp hr
      obtain ⟨x, hx, hkey, hcontent⟩ := hentries _ he
      obtain ⟨known, hknown, hlookup⟩ | ⟨hopen, -⟩ := (Record.lookup_of_collect hfound).2 x hx
      · rw [Content.key _ hkey, Option.some.injEq] at hknown
        split at hknown
        · rename_i hmem
          cases hknown
          exact ⟨List.contains_iff_mem.mp hmem, _, hlookup, hcontent⟩
        · cases hknown
      · cases hopen
    · rw [Record.read?, hother] at hr
      cases hr
  cases h with
  | undeclared hmap he hn => exact hn (hmapping hmap he).1
  | field hmap he hf h =>
    obtain ⟨-, x, hx, hcontent⟩ := hmapping hmap he
    exact hclean _ hf hx hcontent h
  | @place _ _ w items i name sch hseq hi hf h =>
    obtain ⟨xs, hshape, hitems⟩ | hother := Content.sequence hv hseq
    · rw [Record.read?, hshape] at hr
      simp only at hr
      split at hr
      · cases hr
        obtain ⟨x, hx, hcontent⟩ := hitems _ _ hi
        have hname : (fields.map Prod.fst)[i]? = some name := by rw [List.getElem?_map, hf]; rfl
        exact hclean _ (List.mem_of_getElem? hf) (Record.lookup_zip hnodup hname hx) hcontent h
      · cases hr
    · rw [Record.read?, hother] at hr
      cases hr

end Guards

namespace Clean

variable {read : σ → Option α} {sch : Schema} {name : String} {r : Record σ} {found : List (String × σ)}

theorem free : Clean found name .free := fun _ _ _ _ => HasStrayKey.not_free

theorem required {a : α} (h : r.required? name read = some a) (hread : Guards read sch) :
    Clean r.found name sch := by
  intro s v hs hv
  rw [Record.required?, hs] at h
  exact hread hv h

theorem optional {x : Option α} (h : r.optional? name read = some x) (hread : Guards read sch) :
    Clean r.found name sch := by
  intro s v hs hv
  rw [Record.optional?, hs] at h
  exact hread.optional hv h

theorem defaulted {default a : α} (h : r.defaulted? name default read = some a) (hread : Guards read sch) :
    Clean r.found name sch := by
  intro s v hs hv
  rw [Record.defaulted?, hs] at h
  exact hread hv h

theorem event [Inhabited α] {x : Option α} (h : TriggerSpec.readEvent? name read found = some x)
    (hread : Guards read sch) : Clean found name sch := by
  intro s v hs hv
  rw [TriggerSpec.readEvent?, hs] at h
  obtain ⟨y, hy, -⟩ := Option.map_eq_some_iff.mp h
  exact hread.optional hv hy

end Clean

end

end Yaml

open Yaml

section

variable {σ : Type} [Source σ] [Content σ] {sch : Schema}

theorem Flag.guards : Guards (Flag.read? (σ := σ)) sch := .either (.map .bool) (.map .text)

theorem Count.guards : Guards (Count.read? (σ := σ)) sch := .either (.map .natural) (.map .text)

theorem Needs.guards : Guards (Needs.read? (σ := σ)) sch := .either (.map .text) (.map .texts)

theorem Port.guards : Guards (Port.read? (σ := σ)) sch := .either (.map .natural) (.map .text)

theorem PermissionLevel.guards : Guards (PermissionLevel.read? (σ := σ)) schema := .bind .word

theorem InputType.guards : Guards (InputType.read? (σ := σ)) schema := .bind .word

theorem Permissions.guards : Guards (Permissions.read? (σ := σ)) schema := by
  refine .either (fun s v p hv hp => ?_) (.map (.openMap PermissionLevel.guards))
  rw [readWord?] at hp
  split at hp
  · exact Guards.word_openMap hv ‹_›
  · cases hp

theorem Secrets.guards : Guards (Secrets.read? (σ := σ)) (.openMap .plain) :=
  .either (.map .word_openMap) (.map (.openMap .text))

theorem Matrix.guards : Guards (Matrix.read? (σ := σ)) (.openMap .free) :=
  .either (.map .text) (.map (.openMap .free))

theorem ConcurrencySpec.guards : Guards (ConcurrencySpec.read? (σ := σ)) (.ofNames fieldNames) := by
  refine .record (by decide) (fun _ => rfl) fun r a h => ?_
  simp only [Option.bind_eq_bind, Option.bind_eq_some_iff] at h
  obtain ⟨_, hgroup, _, hcancel, -⟩ := h
  simpa [fieldNames] using ⟨Clean.required hgroup .text, Clean.optional hcancel Flag.guards⟩

theorem Concurrency.guards : Guards (Concurrency.read? (σ := σ)) schema :=
  .either (.map .text) (.map ConcurrencySpec.guards)

theorem RunDefaults.guards : Guards (RunDefaults.read? (σ := σ)) (.ofNames fieldNames) := by
  refine .record (by decide) (fun _ => rfl) fun r a h => ?_
  simp only [Option.bind_eq_bind, Option.bind_eq_some_iff] at h
  obtain ⟨_, hshell, _, hdirectory, -⟩ := h
  simpa [fieldNames] using ⟨Clean.optional hshell .text, Clean.optional hdirectory .text⟩

theorem Defaults.guards : Guards (Defaults.read? (σ := σ)) schema := by
  refine .record (by decide) (fun _ => rfl) fun r a h => ?_
  simp only [Option.bind_eq_bind, Option.bind_eq_some_iff] at h
  obtain ⟨_, hrun, -⟩ := h
  simpa using Clean.optional hrun RunDefaults.guards

theorem EnvironmentSpec.guards : Guards (EnvironmentSpec.read? (σ := σ)) (.ofNames fieldNames) := by
  refine .record (by decide) (fun _ => rfl) fun r a h => ?_
  simp only [Option.bind_eq_bind, Option.bind_eq_some_iff] at h
  obtain ⟨_, hname, _, hurl, -⟩ := h
  simpa [fieldNames] using ⟨Clean.required hname .text, Clean.optional hurl .text⟩

theorem Environment.guards : Guards (Environment.read? (σ := σ)) schema :=
  .either (.map .text) (.map EnvironmentSpec.guards)

theorem Strategy.guards : Guards (Strategy.read? (σ := σ)) schema := by
  refine .record (by decide) (fun _ => rfl) fun r a h => ?_
  simp only [Option.bind_eq_bind, Option.bind_eq_some_iff] at h
  obtain ⟨_, hmatrix, _, hfailFast, _, hmaxParallel, -⟩ := h
  simpa using ⟨Clean.optional hmatrix Matrix.guards, Clean.optional hfailFast Flag.guards, Clean.optional
    hmaxParallel Count.guards⟩

theorem Credentials.guards : Guards (Credentials.read? (σ := σ)) (.ofNames fieldNames) := by
  refine .record (by decide) (fun _ => rfl) fun r a h => ?_
  simp only [Option.bind_eq_bind, Option.bind_eq_some_iff] at h
  obtain ⟨_, husername, _, hpassword, -⟩ := h
  simpa [fieldNames] using ⟨Clean.required husername .text, Clean.required hpassword .text⟩

theorem ContainerSpec.guards : Guards (ContainerSpec.read? (σ := σ)) Container.schema := by
  refine .record (by decide) (fun _ => rfl) fun r a h => ?_
  simp only [Option.bind_eq_bind, Option.bind_eq_some_iff] at h
  obtain ⟨_, himage, _, hcredentials, _, henv, _, hports, _, hvolumes, _, hoptions, -⟩ := h
  simpa using ⟨Clean.required himage .text, Clean.optional hcredentials Credentials.guards, Clean.defaulted
    henv (.openMap .text), Clean.defaulted hports (.flat fun _ => Port.guards), Clean.defaulted hvolumes .texts,
    Clean.optional hoptions .text⟩

theorem Container.guards : Guards (Container.read? (σ := σ)) schema :=
  .either (.map .text) (.map ContainerSpec.guards)

theorem Step.guards : Guards (Step.read? (σ := σ)) schema := by
  refine .record (by decide) (fun _ => rfl) fun r a h => ?_
  simp only [Option.bind_eq_bind, Option.bind_eq_some_iff] at h
  obtain ⟨_, hname, _, hid, _, hcondition, _, huses, _, hinputs, _, hrun, _, hshell, _, hdirectory, _, henv,
    _, hcontinue, _, htimeout, -⟩ := h
  simpa using ⟨Clean.optional hname .text, Clean.optional hid .text, Clean.optional hcondition .text,
    Clean.optional huses .text, Clean.defaulted hinputs (.openMap .free), Clean.optional hrun .text,
    Clean.optional hshell .text, Clean.optional hdirectory .text, Clean.defaulted henv (.openMap .text),
    Clean.optional hcontinue Flag.guards, Clean.optional htimeout Count.guards⟩

theorem PushTrigger.guards : Guards (PushTrigger.read? (σ := σ)) (.ofNames fieldNames) := by
  refine .record (by decide) (fun _ => rfl) fun r a h => ?_
  simp only [Option.bind_eq_bind, Option.bind_eq_some_iff] at h
  obtain ⟨_, hbranches, _, hbranchesIgnore, _, htags, _, htagsIgnore, _, hpaths, _, hpathsIgnore, -⟩ := h
  simpa [fieldNames] using ⟨Clean.defaulted hbranches .texts, Clean.defaulted hbranchesIgnore .texts,
    Clean.defaulted htags .texts, Clean.defaulted htagsIgnore .texts, Clean.defaulted hpaths .texts,
    Clean.defaulted hpathsIgnore .texts⟩

theorem PullRequestTrigger.guards : Guards (PullRequestTrigger.read? (σ := σ)) (.ofNames fieldNames) := by
  refine .record (by decide) (fun _ => rfl) fun r a h => ?_
  simp only [Option.bind_eq_bind, Option.bind_eq_some_iff] at h
  obtain ⟨_, htypes, _, hbranches, _, hbranchesIgnore, _, hpaths, _, hpathsIgnore, -⟩ := h
  simpa [fieldNames] using ⟨Clean.defaulted htypes .texts, Clean.defaulted hbranches .texts, Clean.defaulted
    hbranchesIgnore .texts, Clean.defaulted hpaths .texts, Clean.defaulted hpathsIgnore .texts⟩

theorem TypesTrigger.guards : Guards (TypesTrigger.read? (σ := σ)) (.ofNames fieldNames) := by
  refine .record (by decide) (fun _ => rfl) fun r a h => ?_
  simp only [Option.bind_eq_bind, Option.bind_eq_some_iff] at h
  obtain ⟨_, htypes, -⟩ := h
  simpa [fieldNames] using Clean.defaulted htypes .texts

theorem WorkflowRun.guards : Guards (WorkflowRun.read? (σ := σ)) (.ofNames fieldNames) := by
  refine .record (by decide) (fun _ => rfl) fun r a h => ?_
  simp only [Option.bind_eq_bind, Option.bind_eq_some_iff] at h
  obtain ⟨_, hworkflows, _, htypes, _, hbranches, _, hbranchesIgnore, -⟩ := h
  simpa [fieldNames] using ⟨Clean.required hworkflows .texts, Clean.defaulted htypes .texts, Clean.defaulted
    hbranches .texts, Clean.defaulted hbranchesIgnore .texts⟩

theorem WorkflowInput.guards : Guards (WorkflowInput.read? (σ := σ)) schema := by
  refine .record (by decide) (fun _ => rfl) fun r a h => ?_
  simp only [Option.bind_eq_bind, Option.bind_eq_some_iff] at h
  obtain ⟨_, hdescription, _, hrequired, _, htype, -, -, _, hoptions, -⟩ := h
  simpa [Clean.free] using ⟨Clean.optional hdescription .text, Clean.optional hrequired .bool,
    Clean.optional htype InputType.guards, Clean.defaulted hoptions .texts⟩

theorem WorkflowDispatch.guards : Guards (WorkflowDispatch.read? (σ := σ)) schema := by
  refine .record (by decide) (fun _ => rfl) fun r a h => ?_
  simp only [Option.bind_eq_bind, Option.bind_eq_some_iff] at h
  obtain ⟨_, hinputs, -⟩ := h
  simpa using Clean.defaulted hinputs (.openMap WorkflowInput.guards)

theorem CallSecret.guards : Guards (CallSecret.read? (σ := σ)) (.ofNames fieldNames) := by
  refine .record (by decide) (fun _ => rfl) fun r a h => ?_
  simp only [Option.bind_eq_bind, Option.bind_eq_some_iff] at h
  obtain ⟨_, hdescription, _, hrequired, -⟩ := h
  simpa [fieldNames] using ⟨Clean.optional hdescription .text, Clean.optional hrequired .bool⟩

theorem CallOutput.guards : Guards (CallOutput.read? (σ := σ)) (.ofNames fieldNames) := by
  refine .record (by decide) (fun _ => rfl) fun r a h => ?_
  simp only [Option.bind_eq_bind, Option.bind_eq_some_iff] at h
  obtain ⟨_, hdescription, _, hvalue, -⟩ := h
  simpa [fieldNames] using ⟨Clean.optional hdescription .text, Clean.required hvalue .text⟩

theorem WorkflowCall.guards : Guards (WorkflowCall.read? (σ := σ)) schema := by
  refine .record (by decide) (fun _ => rfl) fun r a h => ?_
  simp only [Option.bind_eq_bind, Option.bind_eq_some_iff] at h
  obtain ⟨_, hinputs, _, hsecrets, _, houtputs, -⟩ := h
  simpa using ⟨Clean.defaulted hinputs (.openMap WorkflowInput.guards), Clean.defaulted hsecrets (.openMap
    CallSecret.guards), Clean.defaulted houtputs (.openMap CallOutput.guards)⟩

theorem Machine.guards_labels : Guards (Machine.readLabels? (σ := σ)) sch := .either (.map .text) .texts

theorem Machine.guards_fields : Guards (Machine.read? (σ := σ)) (.record (fieldNames.map (·, sch))) := by
  refine .record (by simp [fieldNames]) (fun _ => rfl) fun r a h => ?_
  simp only [Option.bind_eq_bind, Option.bind_eq_some_iff] at h
  obtain ⟨_, hname, _, hgroup, _, hlabels, -⟩ := h
  simpa [fieldNames] using
    ⟨Clean.optional hname .text, Clean.optional hgroup .text, Clean.optional hlabels guards_labels⟩

theorem Machine.guards : Guards (Machine.read? (σ := σ)) schema := guards_fields

theorem Runner.guards : Guards (Runner.read? (σ := σ)) Machine.schema := .either (.map .text) (.map Machine.guards)

/-- A list that reads as a machine has as many elements as a machine has fields, and none with keys. -/
theorem Machine.guards_items {s : σ} {v : Value} {vs : List Value} {m : Machine}
    (hv : Content.content? s = some v) (hseq : v.bare = .sequence vs) (h : Machine.read? s = some m) :
    ∀ w ∈ vs, ¬ HasStrayKey sch w := by
  intro w hw hstray
  obtain ⟨r, hr, -⟩ := Option.bind_eq_some_iff.mp h
  obtain ⟨xs, hshape, hitems⟩ | hother := Content.sequence hv hseq
  · rw [Record.read?, hshape] at hr
    simp only at hr
    split at hr
    · rename_i hlength
      obtain ⟨i, hi⟩ := List.mem_iff_getElem?.mp hw
      obtain ⟨x, hx, -⟩ := hitems i w hi
      have hi' : i < fieldNames.length := Nat.lt_of_lt_of_le (List.getElem?_eq_some_iff.mp hx).1 hlength
      have hf : (fieldNames.map (·, sch))[i]? = some (fieldNames[i], sch) := by simp [hi']
      exact guards_fields hv h (.place hseq hi hf hstray)
    · cases hr
  · rw [Record.read?, hother] at hr
    cases hr

theorem RunsOn.guards : Guards (RunsOn.read? (σ := σ)) schema :=
  .anyOf (.map .text)
    (.map (.listOr (fun _ _ _ _ hv hseq h => Machine.guards_items hv hseq h)
      fun _ _ _ _ hv _ h => Machine.guards hv h))
    (.map (.list Runner.guards))

theorem Schedule.guards_cron : Guards (Schedule.readCron? (σ := σ)) (.ofNames entryFieldNames) := by
  refine .record (by decide) (fun _ => rfl) fun r a h => ?_
  simpa [entryFieldNames] using Clean.required h .text

theorem Schedule.guards_wrapped : Guards readWrapped? (.openRecord [("cron", .plain)]) := by
  rintro s v crons ⟨⟩ hcrons h
  cases h with
  | known hmap he hf h =>
    cases s with
    | mapping es =>
      cases hmap
      obtain ⟨found, hfound, hcrons⟩ := Option.bind_eq_some_iff.mp hcrons
      obtain ⟨x, hx, hread⟩ := Option.bind_eq_some_iff.mp hcrons
      rw [List.mem_singleton, Prod.mk.injEq] at hf
      obtain ⟨rfl, rfl⟩ := hf
      obtain ⟨name, hname, hlookup⟩ | ⟨-, hfree⟩ := (Record.lookup_of_collect hfound).2 _ he
      · cases hname
        cases hx.symm.trans hlookup
        exact Guards.texts rfl hread h
      · cases hfree
    | _ => cases hcrons

theorem Schedule.guards : Guards (Schedule.read? (σ := σ)) (schema false) := by
  refine .map (.anyOf .texts (.list guards_cron) (.listOr (fun s v vs crons hv hseq h => ?_) ?_))
  · cases hv
    cases s with
    | mapping => cases hseq
    | _ => cases h
  · exact fun s v es crons hv _ h => guards_wrapped hv h

theorem Yaml.Clean.schedule {found : List (String × σ)} {x : Option Schedule}
    (h : TriggerSpec.readSchedule? found = some x) : Clean found "schedule" (Schedule.schema false) := by
  intro s v hs hv
  rw [TriggerSpec.readSchedule?, hs] at h
  exact Schedule.guards.optional hv h

namespace TriggerSpec

/-- What happens to the first event: it is found under its name, or it is put to the others. -/
theorem sortEvents_cons {σ : Type} [Source σ] {found : List (String × σ)} {other : Entries Value} {e : σ × σ}
    {es : List (σ × σ)} {r : List (String × σ) × Entries Value} (h : sortEvents? found other (e :: es) = some r) :
    ∃ name, Source.text? e.1 = some name ∧
      (name ∈ fieldNames ∧ found.lookup name = none ∧ sortEvents? (found ++ [(name, e.2)]) other es = some r ∨
        name ∉ fieldNames ∧ ∃ settings, sortEvents? found (other.insert name settings) es = some r) := by
  obtain ⟨name, hname, h⟩ := Option.bind_eq_some_iff.mp h
  refine ⟨name, hname, ?_⟩
  split at h
  · rename_i hown
    split at h
    · cases h
    · rename_i hnew
      exact .inl ⟨List.contains_iff_mem.mp hown, Option.not_isSome_iff_eq_none.mp hnew, h⟩
  · rename_i hfree
    obtain ⟨settings, -, h⟩ := Option.bind_eq_some_iff.mp h
    exact .inr ⟨fun hown => hfree (List.contains_iff_mem.mpr hown), settings, h⟩

theorem lookup_of_sortEvents {σ : Type} [Source σ] {found found' : List (String × σ)} {other other' : Entries Value}
    {es : List (σ × σ)} (h : sortEvents? found other es = some (found', other')) :
    (∀ name x, found.lookup name = some x → found'.lookup name = some x) ∧
      ∀ e ∈ es, ∀ name ∈ fieldNames, Source.text? e.1 = some name → found'.lookup name = some e.2 := by
  induction es generalizing found other with
  | nil =>
    cases h
    exact ⟨fun _ _ hx => hx, by simp⟩
  | cons e rest ih =>
    obtain ⟨name, hname, ⟨-, hnone, h⟩ | ⟨hfree, settings, h⟩⟩ := sortEvents_cons h
    · obtain ⟨hkept, hrest⟩ := ih h
      refine ⟨fun o y hy => hkept o y (by rw [List.lookup_append, hy]; rfl), ?_⟩
      rintro e (_ | ⟨_, he⟩) o ho htext
      · cases hname.symm.trans htext
        exact hkept name e.2 (by simp [List.lookup_append, hnone])
      · exact hrest e he o ho htext
    · obtain ⟨hkept, hrest⟩ := ih h
      refine ⟨hkept, ?_⟩
      rintro e (_ | ⟨_, he⟩) o ho htext
      · cases hname.symm.trans htext
        exact absurd ho hfree
      · exact hrest e he o ho htext

theorem clean_events {found : List (String × σ)} {other : Entries Value} {t : TriggerSpec}
    (h : ofFound? found other = some t) : ∀ f ∈ events false, Clean found f.1 f.2 := by
  simp only [ofFound?, Option.bind_eq_bind, Option.bind_eq_some_iff] at h
  obtain ⟨_, hpush, _, hpull, _, htarget, _, hmerge, _, hschedule, _, hdispatch, _, hcall, _, hrun, _, hrelease, _,
    hissues, _, hcomment, -⟩ := h
  simpa [events] using ⟨Clean.event hpush PushTrigger.guards, Clean.event hpull PullRequestTrigger.guards,
    Clean.event htarget PullRequestTrigger.guards, Clean.event hmerge TypesTrigger.guards,
    Clean.schedule hschedule, Clean.event hdispatch WorkflowDispatch.guards,
    Clean.event hcall WorkflowCall.guards, Clean.event hrun WorkflowRun.guards,
    Clean.event hrelease TypesTrigger.guards, Clean.event hissues TypesTrigger.guards,
    Clean.event hcomment TypesTrigger.guards⟩

theorem guards : Guards (TriggerSpec.read? (σ := σ)) (Triggers.schema false) := by
  refine .listOr (fun s v vs t hv hseq ht => ?_) fun s v es t hv _ ht h => ?_
  · obtain ⟨xs, hshape, -⟩ | hother := Content.sequence hv hseq
    · rw [TriggerSpec.read?, hshape] at ht
      cases ht
    · rw [TriggerSpec.read?, hother] at ht
      cases ht
  · rcases h with _ | _ | _ | _ | _ | _ | ⟨hmap, he, hf, h⟩
    obtain ⟨xs, hshape, hentries⟩ | hother := Content.mapping hv hmap
    · rw [TriggerSpec.read?, hshape] at ht
      obtain ⟨⟨found, other⟩, hfound, ht⟩ := Option.bind_eq_some_iff.mp ht
      obtain ⟨x, hx, hkey, hcontent⟩ := hentries _ he
      have hname := List.mem_map_of_mem (f := Prod.fst) hf
      have hlookup := (lookup_of_sortEvents hfound).2 x hx _ hname (Content.text hkey)
      exact clean_events ht _ hf hlookup hcontent h
    · rw [TriggerSpec.read?, hother] at ht
      cases ht

end TriggerSpec

theorem Triggers.guards : Guards (Triggers.read? (σ := σ)) (schema false) :=
  .anyOf (.map .text) (.map .texts) (.map TriggerSpec.guards)

theorem Job.guards : Guards (Job.read? (σ := σ)) schema := by
  refine .record (by decide) (fun _ => rfl) fun r a h => ?_
  -- one step at a time: all nineteen at once are beyond the simplifier
  obtain ⟨_, hname, h⟩ := Option.bind_eq_some_iff.mp h
  obtain ⟨_, hneeds, h⟩ := Option.bind_eq_some_iff.mp h
  obtain ⟨_, hcondition, h⟩ := Option.bind_eq_some_iff.mp h
  obtain ⟨_, hrunsOn, h⟩ := Option.bind_eq_some_iff.mp h
  obtain ⟨_, hpermissions, h⟩ := Option.bind_eq_some_iff.mp h
  obtain ⟨_, henvironment, h⟩ := Option.bind_eq_some_iff.mp h
  obtain ⟨_, hconcurrency, h⟩ := Option.bind_eq_some_iff.mp h
  obtain ⟨_, houtputs, h⟩ := Option.bind_eq_some_iff.mp h
  obtain ⟨_, henv, h⟩ := Option.bind_eq_some_iff.mp h
  obtain ⟨_, hdefaults, h⟩ := Option.bind_eq_some_iff.mp h
  obtain ⟨_, htimeout, h⟩ := Option.bind_eq_some_iff.mp h
  obtain ⟨_, hcontinue, h⟩ := Option.bind_eq_some_iff.mp h
  obtain ⟨_, hstrategy, h⟩ := Option.bind_eq_some_iff.mp h
  obtain ⟨_, hcontainer, h⟩ := Option.bind_eq_some_iff.mp h
  obtain ⟨_, hservices, h⟩ := Option.bind_eq_some_iff.mp h
  obtain ⟨_, huses, h⟩ := Option.bind_eq_some_iff.mp h
  obtain ⟨_, hinputs, h⟩ := Option.bind_eq_some_iff.mp h
  obtain ⟨_, hsecrets, h⟩ := Option.bind_eq_some_iff.mp h
  obtain ⟨_, hsteps, -⟩ := Option.bind_eq_some_iff.mp h
  simp only [List.forall_mem_cons]
  exact ⟨Clean.optional hname .text, Clean.optional hneeds Needs.guards, Clean.optional hcondition .text,
    Clean.optional hrunsOn RunsOn.guards, Clean.optional hpermissions Permissions.guards,
    Clean.optional henvironment Environment.guards, Clean.optional hconcurrency Concurrency.guards,
    Clean.defaulted houtputs (.openMap .text), Clean.defaulted henv (.openMap .text),
    Clean.optional hdefaults Defaults.guards, Clean.optional htimeout Count.guards,
    Clean.optional hcontinue Flag.guards, Clean.optional hstrategy Strategy.guards,
    Clean.optional hcontainer Container.guards, Clean.defaulted hservices (.openMap Container.guards),
    Clean.optional huses .text, Clean.defaulted hinputs (.openMap .free), Clean.optional hsecrets Secrets.guards,
    Clean.optional hsteps (.list Step.guards), by simp⟩

theorem Workflow.guards : Guards (Workflow.read? (σ := σ)) (schema false) := by
  refine .record (by decide) (fun _ => rfl) fun r a h => ?_
  simp only [Option.bind_eq_bind, Option.bind_eq_some_iff] at h
  obtain ⟨_, hname, _, hrunName, _, hon, _, henv, _, hpermissions, _, hconcurrency, _, hdefaults, _, hjobs, -⟩ := h
  simpa using ⟨Clean.required hname .text, Clean.optional hrunName .text, Clean.required hon Triggers.guards,
    Clean.defaulted henv (.openMap .text), Clean.optional hpermissions Permissions.guards,
    Clean.optional hconcurrency Concurrency.guards, Clean.optional hdefaults Defaults.guards,
    Clean.defaulted hjobs (.openMap Job.guards)⟩

end

namespace Workflow

/-- A text with a stray key is no definition, unless the key stands beside all times of a schedule. -/
theorem load_stray_key {text : String} {v : Value} (path : String) (hv : Yaml.read? text = some v)
    (hs : HasStrayKey (schema false) v) : load path text = .error (.invalidDefinition path) := by
  obtain ⟨n, hn, hcontent⟩ := Option.bind_eq_some_iff.mp hv
  have hnone : read? n = none := by
    cases hread : read? n with
    | none => rfl
    | some w => exact absurd hs (guards ((Option.filter_eq_some_iff.mp hcontent).1) hread)
  rw [load, readDocument?, hn, Option.bind_some, hnone]

theorem load_stray_key_in_job :
    Yaml.read? "\x7bname: a, on: b, jobs: \x7bj: \x7bstep: c\x7d\x7d\x7d" =
        some (.mapping [(.string "name", .string "a"), (.string "on", .string "b"),
          (.string "jobs", .mapping [(.string "j", .mapping [(.string "step", .string "c")])])]) ∧
      load "p" "\x7bname: a, on: b, jobs: \x7bj: \x7bstep: c\x7d\x7d\x7d" = .error (.invalidDefinition "p") := by
  have htokens : tokens? "\x7bname: a, on: b, jobs: \x7bj: \x7bstep: c\x7d\x7d\x7d" =
      some [.flowMapping, .key, .scalar .plain "name", .value, .scalar .plain "a", .flowEntry, .key,
        .scalar .plain "on", .value, .scalar .plain "b", .flowEntry, .key, .scalar .plain "jobs", .value,
        .flowMapping, .key, .scalar .plain "j", .value, .flowMapping, .key, .scalar .plain "step", .value,
        .scalar .plain "c", .flowMappingEnd, .flowMappingEnd, .flowMappingEnd] := by decide +kernel
  have hread : Yaml.read? "\x7bname: a, on: b, jobs: \x7bj: \x7bstep: c\x7d\x7d\x7d" =
      some (.mapping [(.string "name", .string "a"), (.string "on", .string "b"),
        (.string "jobs", .mapping [(.string "j", .mapping [(.string "step", .string "c")])])]) := by
    rw [Yaml.read?, Node.read?, htokens]
    rfl
  refine ⟨hread, load_stray_key "p" hread ?_⟩
  have hstep : HasStrayKey Job.schema (.mapping [(.string "step", .string "c")]) :=
    .undeclared rfl (List.mem_singleton.mpr rfl) (by decide)
  have hjobs : HasStrayKey (.openMap Job.schema)
      (.mapping [(.string "j", .mapping [(.string "step", .string "c")])]) :=
    .other rfl (.entry rfl (List.mem_singleton.mpr rfl) hstep)
  exact .field rfl (.tail _ (.tail _ (.head _))) (by simp) hjobs

/-- The key `crom` is no key of a schedule, and the definition loads without it. -/
theorem loads_stray_key_beside_crons : ¬ ∀ (path text : String) (v : Value), Yaml.read? text = some v →
    HasStrayKey (schema true) v → load path text = .error (.invalidDefinition path) := by
  intro h
  have htokens : tokens? "\x7bname: a, on: \x7bschedule: \x7bcron: [], crom: b\x7d\x7d\x7d" =
      some [.flowMapping, .key, .scalar .plain "name", .value, .scalar .plain "a", .flowEntry, .key,
        .scalar .plain "on", .value, .flowMapping, .key, .scalar .plain "schedule", .value, .flowMapping, .key,
        .scalar .plain "cron", .value, .flowSequence, .flowSequenceEnd, .flowEntry, .key,
        .scalar .plain "crom", .value, .scalar .plain "b", .flowMappingEnd, .flowMappingEnd,
        .flowMappingEnd] := by decide +kernel
  have hread : Yaml.read? "\x7bname: a, on: \x7bschedule: \x7bcron: [], crom: b\x7d\x7d\x7d" =
      some (.mapping [(.string "name", .string "a"), (.string "on", .mapping [(.string "schedule",
        .mapping [(.string "cron", .sequence []), (.string "crom", .string "b")])])]) := by
    rw [Yaml.read?, Node.read?, htokens]
    rfl
  have hloads : (load "p" "\x7bname: a, on: \x7bschedule: \x7bcron: [], crom: b\x7d\x7d\x7d").isOk = true := by
    rw [load, readDocument?, Node.read?, htokens]
    rfl
  have hschedule : HasStrayKey (Schedule.schema true)
      (.mapping [(.string "cron", .sequence []), (.string "crom", .string "b")]) :=
    .other rfl (.undeclared rfl (.tail _ (.head _)) (by decide))
  have hon : HasStrayKey (Triggers.schema true) (.mapping [(.string "schedule",
      .mapping [(.string "cron", .sequence []), (.string "crom", .string "b")])]) :=
    .other rfl (.known rfl (List.mem_singleton.mpr rfl) (by simp [TriggerSpec.events]) hschedule)
  have hclaim := h "p" _ _ hread (.field rfl (.tail _ (.head _)) (by simp) hon)
  rw [hclaim] at hloads
  cases hloads

end Workflow

end CiWorkflow
