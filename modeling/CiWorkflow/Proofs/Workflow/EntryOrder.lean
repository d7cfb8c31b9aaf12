import CiWorkflow.Proofs.Workflow.BuildOrder
import CiWorkflow.Proofs.Workflow.Canonical
import CiWorkflow.Proofs.Workflow.FieldOrder

/-!
# The order of entries

Entries that are put in one after another stand in the order in which their names first came; one that is put in
again keeps its place and gets the new value. So stand the entries of every map that calls build up, in the value of
the workflow that comes out.
-/
set_option autoImplicit false

namespace CiWorkflow

open Render Yaml

section

variable {α β : Type} {given found es : List (String × α)}

/-- Entries as they stand when others have been put in one after another: names in the order in which they first
came, each with the value that was given last. -/
structure Settled (given found : List (String × α)) : Prop where
  names : found.map Prod.fst = (given.map Prod.fst).eraseDups
  lookup : ∀ name, found.lookup name = given.reverse.lookup name

def putAll (es new : List (String × α)) : List (String × α) := new.foldl (fun es e => putIn e.1 e.2 es) es

theorem names_putIn (name : String) (value : α) (es : List (String × α)) :
    (putIn name value es).map Prod.fst =
      if name ∈ es.map Prod.fst then es.map Prod.fst else es.map Prod.fst ++ [name] := by
  induction es with
  | nil => rfl
  | cons e es ih =>
    rw [putIn]
    by_cases he : e.1 = name
    · simp [he]
    · simp only [he, ↓reduceIte, List.map_cons, ih, List.mem_cons, Ne.symm he, false_or]
      split <;> rfl

theorem lookup_cons (name other : String) (value : α) (es : List (String × α)) :
    ((name, value) :: es).lookup other = if other = name then some value else es.lookup other := by
  rw [List.lookup_cons]
  by_cases h : other = name
  · rw [if_pos h, beq_iff_eq.mpr h]
  · rw [if_neg h, beq_eq_false_iff_ne.mpr h]

theorem lookup_putIn (name other : String) (value : α) (es : List (String × α)) :
    (putIn name value es).lookup other = if other = name then some value else es.lookup other := by
  induction es with
  | nil => exact lookup_cons name other value []
  | cons e es ih =>
    rw [putIn, lookup_cons e.1 other e.2 es]
    by_cases he : e.1 = name
    · rw [if_pos he, lookup_cons, he]
      split <;> rfl
    · rw [if_neg he, lookup_cons e.1 other e.2, ih]
      by_cases h : other = e.1
      · rw [if_pos h, if_neg (h ▸ he), if_pos h]
      · rw [if_neg h, if_neg h]

namespace Settled

theorem put (h : Settled given found) (name : String) (value : α) :
    Settled (given ++ [(name, value)]) (putIn name value found) where
  names := by
    have hmem : name ∈ found.map Prod.fst ↔ name ∈ given.map Prod.fst := by rw [h.names, List.mem_eraseDups]
    rw [names_putIn, List.map_append, List.eraseDups_append, ← h.names]
    by_cases hname : name ∈ given.map Prod.fst
    · simp [hmem.mpr hname, List.removeAll, hname]
    · simp [mt hmem.mp hname, List.removeAll, hname, List.eraseDups_cons]
  lookup other := by
    rw [lookup_putIn, h.lookup, List.reverse_append]
    exact (lookup_cons name other value given.reverse).symm

theorem putAll (h : Settled given found) (new : List (String × α)) :
    Settled (given ++ new) (CiWorkflow.putAll found new) := by
  induction new generalizing given found with
  | nil => rwa [List.append_nil]
  | cons e new ih =>
    have hnext := ih (h.put e.1 e.2)
    rwa [List.append_assoc] at hnext

theorem nil : Settled ([] : List (String × α)) [] := ⟨rfl, fun _ => rfl⟩

end Settled

theorem toList_foldl_insert (es : Entries α) (new : List (String × α)) :
    (new.foldl (fun es e => es.insert e.1 e.2) es).toList = putAll es.toList new := by
  induction new generalizing es with
  | nil => rfl
  | cons e new ih => exact ih (es.insert e.1 e.2)

theorem Settled.of_nodup (h : (es.map Prod.fst).Nodup) : Settled es es := by
  have hput : CiWorkflow.putAll [] es = es := (toList_foldl_insert .empty es).symm.trans (Entries.toList_ofList h)
  have hsettled := Settled.nil.putAll es
  rwa [List.nil_append, hput] at hsettled

def mapValues (f : α → β) (es : List (String × α)) : List (String × β) := es.map fun e => (e.1, f e.2)

@[simp]
theorem names_mapValues (f : α → β) (es : List (String × α)) :
    (mapValues f es).map Prod.fst = es.map Prod.fst := by
  simp [mapValues, Function.comp_def]

theorem mapValues_putIn (f : α → β) (name : String) (value : α) (es : List (String × α)) :
    mapValues f (putIn name value es) = putIn name (f value) (mapValues f es) := by
  induction es with
  | nil => rfl
  | cons e es ih =>
    rw [putIn, mapValues, mapValues, List.map_cons, putIn]
    split
    · rfl
    · rw [List.map_cons]
      exact congrArg _ ih

theorem mapValues_putAll (f : α → β) (es new : List (String × α)) :
    mapValues f (putAll es new) = putAll (mapValues f es) (mapValues f new) := by
  induction new generalizing es with
  | nil => rfl
  | cons e new ih => exact (ih (putIn e.1 e.2 es)).trans (by rw [mapValues_putIn]; rfl)

/-- If each call puts in one entry or none, a run of calls puts in all of them. -/
theorem foldl_entries {σ ε : Type} {apply : σ → ε → σ} (entries : σ → List (String × α))
    (puts? : ε → Option (String × α)) (hstep : ∀ s e, entries (apply s e) = putAll (entries s) (puts? e).toList)
    (calls : List ε) (s : σ) : entries (calls.foldl apply s) = putAll (entries s) (calls.filterMap puts?) := by
  induction calls generalizing s with
  | nil => rfl
  | cons e calls ih =>
    rw [List.foldl_cons, ih, hstep, List.filterMap_cons]
    cases puts? e <;> rfl

end

namespace Yaml

def Value.HasEntries (v : Value) (name : String) (given : List (String × Value)) : Prop :=
  ∃ found, Settled given found ∧ v.entriesAt name = found.map fun e => (.string e.1, e.2)

theorem Value.entriesAt_of_ifEntries {α : Type} {v : Value} {name : String} {toValue : α → Value} {es : Entries α}
    (h : v.at? name = (Fields.ifEntries name toValue es).head?.map Prod.snd) :
    v.entriesAt name = (mapValues toValue es.toList).map fun e => (.string e.1, e.2) := by
  rw [entriesAt, h, Fields.ifEntries, Entries.isEmpty, mapValues, List.map_map]
  cases hes : es.toList with
  | nil => rfl
  | cons e rest =>
    simp only [List.isEmpty_cons, Bool.false_eq_true, ↓reduceIte, Fields.always, List.head?_cons, Option.map_some,
      ofEntries, hes]
    rfl

end Yaml

/-! ## Steps -/

def StepEdit.puts? (name : String) : StepEdit → Option (String × Value)
  | .input k v => if name = "with" then some (k, v.rebuilt) else none
  | .env k v => if name = "env" then some (k, .string v) else none
  | _ => none

namespace Step

def mapNames : List String := ["with", "env"]

def entries (name : String) (s : Step) : List (String × Value) :=
  if name = "with" then mapValues Value.rebuilt s.inputs.toList
  else if name = "env" then mapValues .string s.env.toList
  else []

theorem entries_edit (name : String) (s : Step) (e : StepEdit) :
    (s.edit e).entries name = putAll (s.entries name) (e.puts? name).toList := by
  cases e with
  | input k v =>
    by_cases hname : name = "with"
    · simp [entries, hname, edit, StepEdit.puts?, mapValues_putIn, putAll]
    · simp [entries, hname, edit, StepEdit.puts?, putAll]
  | env k v =>
    by_cases hname : name = "env"
    · simp [entries, hname, edit, StepEdit.puts?, mapValues_putIn, putAll]
    · simp [entries, hname, edit, StepEdit.puts?, putAll]
  | _ => rfl

theorem nodup_entries (name : String) (s : Step) : ((s.entries name).map Prod.fst).Nodup := by
  rw [entries]
  split
  · rw [names_mapValues]
    exact s.inputs.nodup
  · split
    · rw [names_mapValues]
      exact s.env.nodup
    · exact List.nodup_nil

theorem entriesAt_value (s : Step) {name : String} (hname : name ∈ mapNames) :
    s.value.entriesAt name = (s.entries name).map fun e => (.string e.1, e.2) := by
  simp only [mapNames, List.mem_cons, List.not_mem_nil, or_false] at hname
  obtain rfl | rfl := hname
  · exact Value.entriesAt_of_ifEntries (at?_value (by simp [fieldNames, groups]))
  · exact Value.entriesAt_of_ifEntries (at?_value (by simp [fieldNames, groups]))

end Step

namespace StepPlan

def given (p : StepPlan) (name : String) : List (String × Value) :=
  p.start.entries name ++ p.calls.filterMap (StepEdit.puts? name)

/-- The value has the entries of each map as they were given. -/
def Settles (p : StepPlan) (v : Value) : Prop := ∀ name ∈ Step.mapNames, v.HasEntries name (p.given name)

theorem settles (p : StepPlan) : p.Settles p.build.value := by
  intro name hname
  have hentries : p.build.entries name = putAll (p.start.entries name) (p.calls.filterMap (StepEdit.puts? name)) :=
    foldl_entries (Step.entries name) (StepEdit.puts? name) (Step.entries_edit name) p.calls p.start
  exact ⟨p.build.entries name, hentries ▸ (Settled.of_nodup (p.start.nodup_entries name)).putAll _,
    p.build.entriesAt_value hname⟩

end StepPlan

/-! ## Jobs -/

def JobEdit.puts? (name : String) : JobEdit → Option (String × Value)
  | .output k v => if name = "outputs" then some (k, .string v) else none
  | .env k v => if name = "env" then some (k, .string v) else none
  | .service k c => if name = "services" then some (k, c.value) else none
  | .input k v => if name = "with" then some (k, v.rebuilt) else none
  | _ => none

namespace Job

def mapNames : List String := ["outputs", "env", "services", "with"]

def entries (name : String) (j : Job) : List (String × Value) :=
  if name = "outputs" then mapValues .string j.outputs.toList
  else if name = "env" then mapValues .string j.env.toList
  else if name = "services" then mapValues Container.value j.services.toList
  else if name = "with" then mapValues Value.rebuilt j.inputs.toList
  else []

theorem entries_edit (name : String) (j : Job) (e : JobEdit) :
    (j.edit e).entries name = putAll (j.entries name) (e.puts? name).toList := by
  cases e with
  | output k v =>
    by_cases hname : name = "outputs"
    · simp [entries, hname, edit, JobEdit.puts?, mapValues_putIn, putAll]
    · simp [entries, hname, edit, JobEdit.puts?, putAll]
  | env k v =>
    by_cases hname : name = "env"
    · simp [entries, hname, edit, JobEdit.puts?, mapValues_putIn, putAll]
    · simp [entries, hname, edit, JobEdit.puts?, putAll]
  | service k c =>
    by_cases hname : name = "services"
    · simp [entries, hname, edit, JobEdit.puts?, mapValues_putIn, putAll]
    · simp [entries, hname, edit, JobEdit.puts?, putAll]
  | input k v =>
    by_cases hname : name = "with"
    · simp [entries, hname, edit, JobEdit.puts?, mapValues_putIn, putAll]
    · simp [entries, hname, edit, JobEdit.puts?, putAll]
  | _ => rfl

theorem nodup_entries (name : String) (j : Job) : ((j.entries name).map Prod.fst).Nodup := by
  rw [entries]
  split
  · rw [names_mapValues]
    exact j.outputs.nodup
  · split
    · rw [names_mapValues]
      exact j.env.nodup
    · split
      · rw [names_mapValues]
        exact j.services.nodup
      · split
        · rw [names_mapValues]
          exact j.inputs.nodup
        · exact List.nodup_nil

theorem entriesAt_of_value {j : Job} {v : Value} (h : j.value? = some v) {name : String} (hname : name ∈ mapNames) :
    v.entriesAt name = (j.entries name).map fun e => (.string e.1, e.2) := by
  simp only [mapNames, List.mem_cons, List.not_mem_nil, or_false] at hname
  obtain rfl | rfl | rfl | rfl := hname
  · exact Value.entriesAt_of_ifEntries (at?_of_value h (by simp [fieldNames, groups]))
  · exact Value.entriesAt_of_ifEntries (at?_of_value h (by simp [fieldNames, groups]))
  · exact Value.entriesAt_of_ifEntries (at?_of_value h (by simp [fieldNames, groups]))
  · exact Value.entriesAt_of_ifEntries (at?_of_value h (by simp [fieldNames, groups]))

end Job

def JobPart.step? : JobPart → Option StepPlan
  | .edit (.step s) => some ⟨s, []⟩
  | .edit _ => none
  | .step p => some p

namespace JobPlan

variable {p : JobPlan} {v : Value}

def given (p : JobPlan) (name : String) : List (String × Value) :=
  p.start.entries name ++ p.parts.filterMap fun c => c.toEdit.puts? name

def steps (p : JobPlan) : List StepPlan :=
  (p.start.steps.getD []).map (⟨·, []⟩) ++ p.parts.filterMap JobPart.step?

theorem steps_edit (j : Job) (c : JobPart) :
    (j.edit c.toEdit).steps.getD [] = j.steps.getD [] ++ c.step?.toList.map StepPlan.build := by
  cases c with
  | step q => rfl
  | edit e => cases e <;> simp [JobPart.toEdit, JobPart.step?, Job.edit, StepPlan.build]

theorem steps_build (p : JobPlan) : p.build.steps.getD [] = p.steps.map StepPlan.build := by
  have hfold : ∀ (parts : List JobPart) (j : Job), (parts.foldl (fun j c => j.edit c.toEdit) j).steps.getD [] =
      j.steps.getD [] ++ (parts.filterMap JobPart.step?).map StepPlan.build := by
    intro parts
    induction parts with
    | nil => simp
    | cons c parts ih =>
      intro j
      rw [List.foldl_cons, ih, steps_edit, List.filterMap_cons]
      cases c.step? <;> simp
  rw [build, hfold, steps, List.map_append, List.map_map]
  congr 1
  exact (List.map_id _).symm

/-- The value has the entries of each map, and the steps, as they were given. -/
structure Settles (p : JobPlan) (v : Value) : Prop where
  maps : ∀ name ∈ Job.mapNames, v.HasEntries name (p.given name)
  steps : List.Forall₂ StepPlan.Settles p.steps (v.itemsAt "steps")

theorem settles (h : p.build.value? = some v) : p.Settles v where
  maps name hname := by
    have hentries : p.build.entries name = putAll (p.start.entries name)
        (p.parts.filterMap fun c => c.toEdit.puts? name) :=
      foldl_entries (Job.entries name) _ (fun j c => j.entries_edit name c.toEdit) p.parts p.start
    exact ⟨p.build.entries name, hentries ▸ (Settled.of_nodup (p.start.nodup_entries name)).putAll _,
      Job.entriesAt_of_value h hname⟩
  steps := by
    rw [Job.itemsAt_of_value h, steps_build, List.map_map, List.forall₂_map_right_iff, List.forall₂_same]
    exact fun q _ => q.settles

end JobPlan

/-! ## Workflows -/

def WorkflowEdit.env? : WorkflowEdit → Option (String × Value)
  | .env k v => some (k, .string v)
  | _ => none

def WorkflowPart.job? : WorkflowPart → Option (String × JobPlan)
  | .edit (.job id j) => some (id, ⟨j, []⟩)
  | .edit _ => none
  | .job id p => some (id, p)

namespace WorkflowPlan

variable {p q : WorkflowPlan} {v : Value}

def env (p : WorkflowPlan) : List (String × Value) :=
  mapValues .string p.start.env.toList ++ p.parts.filterMap fun c => c.toEdit.env?

/-- The jobs under their names, from the start on. -/
def jobs (p : WorkflowPlan) : List (String × JobPlan) :=
  mapValues (⟨·, []⟩) p.start.jobs.toList ++ p.parts.filterMap WorkflowPart.job?

theorem env_edit (w : Workflow) (c : WorkflowPart) :
    mapValues Value.string (w.edit c.toEdit).env.toList =
      putAll (mapValues .string w.env.toList) c.toEdit.env?.toList := by
  cases c with
  | job id q => rfl
  | edit e =>
    cases e with
    | env k x => exact mapValues_putIn ..
    | _ => rfl

theorem jobs_edit (w : Workflow) (c : WorkflowPart) :
    (w.edit c.toEdit).jobs.toList = putAll w.jobs.toList (mapValues JobPlan.build c.job?.toList) := by
  cases c with
  | job id q => rfl
  | edit e => cases e <;> rfl

theorem jobs_build (p : WorkflowPlan) : ∃ found, Settled p.jobs found ∧
    p.build.jobs.toList = mapValues JobPlan.build found := by
  have hnodup : ((mapValues (fun j => (⟨j, []⟩ : JobPlan)) p.start.jobs.toList).map Prod.fst).Nodup := by
    rw [names_mapValues]
    exact p.start.jobs.nodup
  refine ⟨_, (Settled.of_nodup hnodup).putAll _, ?_⟩
  have hfold : p.build.jobs.toList = putAll p.start.jobs.toList
      (p.parts.filterMap fun c => c.job?.map fun e => (e.1, e.2.build)) :=
    foldl_entries (fun w : Workflow => w.jobs.toList) _ (fun w c => by rw [jobs_edit]; cases c.job? <;> rfl) p.parts
      p.start
  have hstart : mapValues JobPlan.build (mapValues (fun j => (⟨j, []⟩ : JobPlan)) p.start.jobs.toList) =
      p.start.jobs.toList := by
    rw [mapValues, mapValues, List.map_map]
    exact List.map_id _
  rw [mapValues_putAll, hstart, hfold, mapValues, List.map_filterMap]

/-- The value has the entries of each map, and the jobs under their names, as they were given. -/
structure Settles (p : WorkflowPlan) (v : Value) : Prop where
  env : v.HasEntries "env" p.env
  jobs : ∃ found, Settled p.jobs found ∧
    List.Forall₂ (fun e f => f.1 = .string e.1 ∧ e.2.Settles f.2) found (v.entriesAt "jobs")

theorem settles (h : p.build.value? = some v) : p.Settles v where
  env := by
    have hentries : mapValues Value.string p.build.env.toList =
        putAll (mapValues .string p.start.env.toList) (p.parts.filterMap fun c => c.toEdit.env?) :=
      foldl_entries (fun w : Workflow => mapValues Value.string w.env.toList) _ env_edit p.parts p.start
    have hnodup : ((mapValues Value.string p.start.env.toList).map Prod.fst).Nodup := by
      rw [names_mapValues]
      exact p.start.env.nodup
    refine ⟨mapValues .string p.build.env.toList, hentries ▸ (Settled.of_nodup hnodup).putAll _, ?_⟩
    exact Value.entriesAt_of_ifEntries (Workflow.at?_of_value h (by simp [Workflow.fieldNames, Workflow.groups]))
  jobs := by
    obtain ⟨found, hsettled, hjobs⟩ := p.jobs_build
    have hentries := Workflow.entriesAt_jobs h
    rw [hjobs, mapValues, List.forall₂_map_left_iff] at hentries
    exact ⟨found, hsettled, hentries.imp fun e f h => ⟨h.1, JobPlan.settles h.2⟩⟩

end WorkflowPlan

/-- The order of calls does not show in the text, as long as those for one field keep theirs: in the value fields
stand in the order of their declaration, and entries in the order in which they were first given. -/
theorem render_of_reordered {p q : WorkflowPlan} (h : p.Reordered q) :
    (∀ r : Renderer, r.render p.build = r.render q.build) ∧
      ∀ v, p.build.canonical = .ok v → Workflow.InFieldOrder v ∧ p.Settles v := by
  refine ⟨fun r => by rw [h.build_eq], fun v hv => ?_⟩
  have hvalue := Workflow.value_of_canonical hv
  exact ⟨Workflow.inFieldOrder_of_value hvalue, WorkflowPlan.settles hvalue⟩

/-- A step, a job with it and a workflow with that, each built by two calls. -/
def plainStep : StepPlan := ⟨.ofScript "make", [.name "Make", .id "make"]⟩

def plainJob : JobPlan := ⟨.onRunner (.one (.label "u")), [.edit (.name "Build"), .step plainStep]⟩

def plainPlan : WorkflowPlan := ⟨.new "CI" (.event "push"), [.edit (.env "A" "1"), .job "build" plainJob]⟩

def turnedStep : StepPlan := ⟨.ofScript "make", [.id "make", .name "Make"]⟩

def turnedJob : JobPlan := ⟨.onRunner (.one (.label "u")), [.step turnedStep, .edit (.name "Build")]⟩

def turnedPlan : WorkflowPlan := ⟨.new "CI" (.event "push"), [.job "build" turnedJob, .edit (.env "A" "1")]⟩

theorem reordered_turnedPlan : plainPlan.Reordered turnedPlan := by
  have hstep : plainStep.Reordered turnedStep := ⟨rfl, .swap (by decide) []⟩
  have hjob : plainJob.Reordered turnedJob :=
    ⟨rfl, [.edit (.name "Build"), .step turnedStep], .cons (.edit _) (.cons (.step hstep) .nil),
      .swap (by decide) []⟩
  exact ⟨rfl, [.edit (.env "A" "1"), .job "build" turnedJob], .cons (.edit _) (.cons (.job _ hjob) .nil),
    .swap (by decide) []⟩

theorem render_of_reordered_turnedPlan :
    plainPlan.Reordered turnedPlan ∧ (∀ r : Renderer, r.render plainPlan.build = r.render turnedPlan.build) ∧
      ∃ v, plainPlan.build.canonical = .ok v ∧ Workflow.InFieldOrder v ∧ plainPlan.Settles v := by
  obtain ⟨hrender, horder⟩ := render_of_reordered reordered_turnedPlan
  exact ⟨reordered_turnedPlan, hrender, _, rfl, horder _ rfl⟩

end CiWorkflow
