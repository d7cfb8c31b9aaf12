import CiWorkflow.Workflow.Validate
import Mathlib.Logic.Basic

/-!
# Valid workflows

What a workflow has to be is said twice. `Workflow.WellFormed` says it without order, part by part.
`Workflow.checks` lists everything that may be wrong in the order of the document, each with the error that
tells where. Validation accepts exactly the well-formed workflows, and otherwise reports the first check
that is broken.
-/
set_option autoImplicit false

namespace CiWorkflow

open Text

/-! ## Checks made one after another -/

structure Check where
  broken : Prop
  error : Error

/-- The error belongs to the first of the checks that is broken. -/
def FirstBroken (checks : List Check) (e : Error) : Prop :=
  ∃ before c after, checks = before ++ c :: after ∧ (∀ b ∈ before, ¬ b.broken) ∧ c.broken ∧ c.error = e

inductive Reports : List Check → Except Error Unit → Prop where
  | nil : Reports [] (.ok ())
  | broken {c : Check} {rest : List Check} (h : c.broken) : Reports (c :: rest) (.error c.error)
  | kept {c : Check} {rest : List Check} {r : Except Error Unit} (h : ¬ c.broken) (tail : Reports rest r) :
      Reports (c :: rest) r

namespace Reports

variable {checks others : List Check} {r r' : Except Error Unit}

theorem bind (h : Reports checks r) (h' : Reports others r') :
    Reports (checks ++ others) (r >>= fun _ => r') := by
  induction h with
  | nil => exact h'
  | broken hc => exact .broken hc
  | kept hc _ ih => exact .kept hc ih

theorem skip (h : ∀ c ∈ checks, ¬ c.broken) (h' : Reports others r') : Reports (checks ++ others) r' := by
  induction checks with
  | nil => exact h'
  | cons c rest ih =>
    simp only [List.mem_cons, forall_eq_or_imp] at h
    exact .kept h.1 (ih h.2)

theorem of_kept (h : ∀ c ∈ checks, ¬ c.broken) : Reports checks (.ok ()) := by
  simpa using skip h .nil

theorem and_kept (h : Reports checks r) (h' : ∀ c ∈ others, ¬ c.broken) : Reports (checks ++ others) r := by
  have hboth := h.bind (of_kept h')
  cases r <;> exact hboth

theorem ok_iff (h : Reports checks r) : r = .ok () ↔ ∀ c ∈ checks, ¬ c.broken := by
  induction h with
  | nil => simp
  | broken hc => simp [hc]
  | kept hc _ ih => simp [hc, ih]

end Reports

theorem firstBroken_cons {c : Check} {rest : List Check} {e : Error} :
    FirstBroken (c :: rest) e ↔ (c.broken ∧ c.error = e) ∨ (¬ c.broken ∧ FirstBroken rest e) := by
  constructor
  · rintro ⟨before, d, after, hsplit, hbefore, hd, he⟩
    cases before with
    | nil =>
      obtain ⟨rfl, -⟩ := List.cons.inj hsplit
      exact .inl ⟨hd, he⟩
    | cons b before =>
      obtain ⟨rfl, hrest⟩ := List.cons.inj hsplit
      simp only [List.mem_cons, forall_eq_or_imp] at hbefore
      exact .inr ⟨hbefore.1, before, d, after, hrest, hbefore.2, hd, he⟩
  · rintro (⟨hc, he⟩ | ⟨hc, before, d, after, rfl, hbefore, hd, he⟩)
    · exact ⟨[], c, rest, rfl, by simp, hc, he⟩
    · exact ⟨c :: before, d, after, rfl, by simpa [hc] using hbefore, hd, he⟩

theorem Reports.error_iff {checks : List Check} {r : Except Error Unit} (h : Reports checks r) (e : Error) :
    r = .error e ↔ FirstBroken checks e := by
  induction h with
  | nil => simp [FirstBroken]
  | broken hc => simp [firstBroken_cons, hc]
  | kept hc _ ih => simp [firstBroken_cons, hc, ih]

theorem Entries.isEmpty_iff {α : Type} (es : Entries α) : es.isEmpty = true ↔ es = .empty := by
  constructor
  · intro h
    exact Entries.ext (List.isEmpty_iff.mp h)
  · rintro rfl
    rfl

/-! ## Triggers -/

namespace Triggers

def IsGiven : Triggers → Prop
  | .event name => ∃ c ∈ name.toList, isBlank c = false
  | .events names => ∃ name ∈ names, ∃ c ∈ name.toList, isBlank c = false
  | .spec t => t ≠ .empty

def checks (t : Triggers) : List Check := [⟨¬ t.IsGiven, .emptyTriggerSet⟩]

theorem spec_eq_empty (t : TriggerSpec) (h : t.isActive = false) : t = .empty := by
  simp only [TriggerSpec.isActive, Bool.or_eq_false_iff, Bool.not_eq_false', Option.isSome_eq_false_iff,
    Option.isNone_iff_eq_none, Entries.isEmpty_iff] at h
  cases t
  simp_all [TriggerSpec.empty]

theorem spec_isActive_iff (t : TriggerSpec) : t.isActive = true ↔ t ≠ .empty := by
  constructor
  · rintro h rfl
    cases h
  · intro h
    cases hactive : t.isActive with
    | true => rfl
    | false => exact absurd (spec_eq_empty t hactive) h

theorem isActive_iff (t : Triggers) : t.isActive = true ↔ t.IsGiven := by
  cases t with
  | event name => simp [isActive, IsGiven, isBlankText]
  | events names => simp [isActive, IsGiven, isBlankText]
  | spec t => exact spec_isActive_iff t

theorem reports (t : Triggers) : Reports t.checks t.validate := by
  rw [validate]
  split
  · rename_i h
    exact .of_kept (by simpa [checks] using (isActive_iff t).mp h)
  · rename_i h
    exact .broken (by simpa [isActive_iff] using h)

theorem kept_iff (t : Triggers) : (∀ c ∈ t.checks, ¬ c.broken) ↔ t.IsGiven := by
  simp [checks]

end Triggers

/-! ## Steps -/

namespace Step

/-- A script to run or an action to use, and nothing that belongs to the other. -/
structure WellFormed (s : Step) : Prop where
  one : Xor (s.run.isSome = true) (s.uses.isSome = true)
  inputs : s.run.isSome = true → s.inputs = .empty
  shell : s.uses.isSome = true → s.shell = none
  workingDirectory : s.uses.isSome = true → s.workingDirectory = none

def checks (job : String) (index : Nat) (s : Step) : List Check :=
  [⟨s.run.isSome = true ∧ s.uses.isSome = true, .invalidStep job index .runAndUses⟩,
    ⟨s.run = none ∧ s.uses = none, .invalidStep job index .neitherRunNorUses⟩,
    ⟨s.run.isSome = true ∧ s.inputs ≠ .empty, .invalidStep job index .inputsOnRun⟩,
    ⟨s.uses.isSome = true ∧ s.shell.isSome = true, .invalidStep job index .shellOnUses⟩,
    ⟨s.uses.isSome = true ∧ s.workingDirectory.isSome = true, .invalidStep job index .directoryOnUses⟩]

theorem reports (job : String) (index : Nat) (s : Step) : Reports (s.checks job index) (s.validate job index) := by
  obtain ⟨name, id, condition, uses, inputs, run, shell, directory, env, continueOnError, timeout⟩ := s
  cases run with
  | none =>
    cases uses with
    | none => exact .kept (by simp) (.broken (by simp))
    | some action =>
      refine .kept (by simp) (.kept (by simp) (.kept (by simp) ?_))
      cases shell with
      | some _ => exact .broken (by simp)
      | none =>
        cases directory with
        | some _ => exact .kept (by simp) (.broken (by simp))
        | none => exact .of_kept (by simp)
  | some script =>
    cases uses with
    | some action => exact .broken (by simp)
    | none =>
      refine .kept (by simp) (.kept (by simp) ?_)
      by_cases hinputs : inputs.isEmpty = true
      · simp only [validate, fault?, kind?, hinputs, if_true]
        exact .of_kept (by simp [(Entries.isEmpty_iff _).mp hinputs])
      · simp only [validate, fault?, kind?, hinputs]
        exact .broken (by simpa [Entries.isEmpty_iff] using hinputs)

theorem kept_iff (job : String) (index : Nat) (s : Step) :
    (∀ c ∈ s.checks job index, ¬ c.broken) ↔ s.WellFormed := by
  constructor
  · intro h
    simp only [checks, List.forall_mem_cons] at h
    obtain ⟨hboth, hneither, hinputs, hshell, hdirectory, -⟩ := h
    refine ⟨?_, by simpa using hinputs, by simpa using hshell, by simpa using hdirectory⟩
    cases hr : s.run <;> cases hu : s.uses <;> simp_all [Xor]
  · rintro ⟨hone, hinputs, hshell, hdirectory⟩
    simp only [checks, List.forall_mem_cons]
    refine ⟨?_, ?_, by simpa using hinputs, by simpa using hshell, by simpa using hdirectory, by simp⟩
    all_goals cases hr : s.run <;> cases hu : s.uses <;> simp_all [Xor]

end Step

/-! ## Jobs -/

namespace Job

/-- Steps on a runner, or a call of another workflow, and nothing that belongs to the other. -/
structure WellFormed (j : Job) : Prop where
  one : Xor (j.steps.isSome = true) (j.uses.isSome = true)
  runsOn : j.steps.isSome = true → ∃ r, j.runsOn = some r ∧ r.labels?.isSome = true
  inputs : j.steps.isSome = true → j.inputs = .empty
  secrets : j.steps.isSome = true → j.secrets = none
  steps : ∀ steps, j.steps = some steps → steps ≠ [] ∧ ∀ s ∈ steps, s.WellFormed
  noRunnerFields : j.uses.isSome = true →
    j.runsOn = none ∧ j.environment = none ∧ j.outputs = .empty ∧ j.defaults = none ∧ j.container = none ∧
      j.services = .empty

def shapeChecks (id : String) (j : Job) : List Check :=
  [⟨j.steps.isSome = true ∧ j.uses.isSome = true, .invalidJob id .stepsAndUses⟩,
    ⟨j.steps = none ∧ j.uses = none, .invalidJob id .neitherStepsNorUses⟩]

def runnerChecks (id : String) (j : Job) : List Check :=
  [⟨j.steps.isSome = true ∧ j.runsOn = none, .invalidJob id .noRunner⟩,
    ⟨j.steps.isSome = true ∧ ∃ r, j.runsOn = some r ∧ r.labels? = none, .invalidJob id .emptyMachine⟩,
    ⟨j.steps.isSome = true ∧ j.inputs ≠ .empty, .invalidJob id .inputsOnRunner⟩,
    ⟨j.steps.isSome = true ∧ j.secrets.isSome = true, .invalidJob id .secretsOnRunner⟩,
    ⟨j.steps = some [], .invalidJob id .noSteps⟩]

def runnerFieldsGiven (j : Job) : List (RunnerField × Bool) :=
  [(.runsOn, j.runsOn.isSome), (.environment, j.environment.isSome), (.outputs, !j.outputs.isEmpty),
    (.defaults, j.defaults.isSome), (.container, j.container.isSome), (.services, !j.services.isEmpty)]

def callChecks (id : String) (j : Job) : List Check :=
  j.runnerFieldsGiven.map fun (field, given) =>
    ⟨j.uses.isSome = true ∧ given = true, .invalidJob id (.runnerFieldOnCall field)⟩

def ownChecks (id : String) (j : Job) : List Check :=
  j.shapeChecks id ++ (j.runnerChecks id ++ j.callChecks id)

def stepChecks (id : String) (index : Nat) (steps : List Step) : List Check :=
  (steps.zipIdx index).flatMap fun (s, i) => s.checks id i

def checks (id : String) (j : Job) : List Check :=
  j.ownChecks id ++ stepChecks id 0 (j.steps.getD [])

/-- What a fault found in a job as such amounts to. -/
def outcome (id : String) : Option JobFault → Except Error Unit
  | some fault => .error (.invalidJob id fault)
  | none => .ok ()

theorem shape_reports (id : String) (j : Job) (h : Xor (j.steps.isSome = true) (j.uses.isSome = true)) :
    ∀ c ∈ j.shapeChecks id, ¬ c.broken := by
  simp only [shapeChecks, List.forall_mem_cons]
  cases hs : j.steps <;> cases hu : j.uses <;> simp_all [Xor]

theorem runnerChecks_reports (id : String) (j : Job) (steps : List Step) (hsteps : j.steps = some steps) :
    Reports (j.runnerChecks id) (outcome id j.runnerFault?) := by
  cases hr : j.runsOn with
  | none =>
    simp only [runnerFault?, hr]
    exact .broken ⟨by simp [hsteps], hr⟩
  | some r =>
    refine .kept (by simp [hr]) ?_
    cases hl : r.labels? with
    | none =>
      simp only [runnerFault?, hr, hl]
      exact .broken ⟨by simp [hsteps], r, rfl, hl⟩
    | some labels =>
      refine .kept (by simp [hr, hl]) ?_
      by_cases hi : j.inputs.isEmpty = true
      · refine .kept (by simp [(Entries.isEmpty_iff _).mp hi]) ?_
        cases hs : j.secrets with
        | some secrets =>
          simp only [runnerFault?, hr, hl, hi, hs]
          exact .broken (by simp [hsteps])
        | none =>
          refine .kept (by simp) ?_
          cases steps with
          | nil =>
            simp only [runnerFault?, hr, hl, hi, hs, hsteps]
            exact .broken trivial
          | cons s rest =>
            simp only [runnerFault?, hr, hl, hi, hs, hsteps]
            exact .of_kept (by simp)
      · simp only [runnerFault?, hr, hl, hi]
        exact .broken (by simpa [hsteps, Entries.isEmpty_iff] using hi)

theorem given_reports (id : String) (uses : Prop) (h : uses) (fields : List (RunnerField × Bool)) :
    Reports (fields.map fun (field, given) =>
        ⟨uses ∧ given = true, .invalidJob id (.runnerFieldOnCall field)⟩)
      (outcome id ((fields.filterMap fun (field, given) => if given then some field else none).head?.map
        .runnerFieldOnCall)) := by
  induction fields with
  | nil => exact .nil
  | cons f rest ih =>
    obtain ⟨field, given⟩ := f
    cases given with
    | true => exact .broken ⟨h, rfl⟩
    | false => exact .kept (by simp) ih

theorem callChecks_reports (id : String) (j : Job) (h : j.uses.isSome = true) :
    Reports (j.callChecks id) (outcome id (j.runnerFields.head?.map .runnerFieldOnCall)) :=
  given_reports id _ h j.runnerFieldsGiven

theorem fault?_of_runner {j : Job} {steps : List Step} (hs : j.steps = some steps) (hu : j.uses = none) :
    j.fault? = j.runnerFault? := by
  simp [fault?, kind?, hs, hu]

theorem fault?_of_call {j : Job} {action : String} (hs : j.steps = none) (hu : j.uses = some action) :
    j.fault? = j.runnerFields.head?.map .runnerFieldOnCall := by
  simp [fault?, kind?, hs, hu]

theorem ownChecks_reports (id : String) (j : Job) : Reports (j.ownChecks id) (outcome id j.fault?) := by
  cases hs : j.steps with
  | none =>
    cases hu : j.uses with
    | none =>
      simp only [fault?, kind?, hs, hu]
      exact .kept (by simp [hs]) (.broken ⟨hs, hu⟩)
    | some action =>
      rw [fault?_of_call hs hu]
      refine .skip (shape_reports id j (by simp [Xor, hs, hu])) (.skip ?_ (callChecks_reports id j (by simp [hu])))
      simp [runnerChecks, hs]
  | some steps =>
    cases hu : j.uses with
    | none =>
      rw [fault?_of_runner hs hu]
      refine .skip (shape_reports id j (by simp [Xor, hs, hu])) ?_
      exact (runnerChecks_reports id j steps hs).and_kept (by simp [callChecks, hu])
    | some action =>
      simp only [fault?, hs, hu]
      exact .broken (by simp [hs, hu])

theorem stepChecks_reports (id : String) (index : Nat) (steps : List Step) :
    Reports (stepChecks id index steps) (Step.validateAll id index steps) := by
  induction steps generalizing index with
  | nil => exact .nil
  | cons s rest ih =>
    simp only [stepChecks, List.zipIdx_cons, List.flatMap_cons]
    exact (s.reports id index).bind (ih (index + 1))

theorem reports (id : String) (j : Job) : Reports (j.checks id) (j.validate id) := by
  have h := (ownChecks_reports id j).bind (stepChecks_reports id 0 (j.steps.getD []))
  rw [validate]
  cases hf : j.fault? with
  | none =>
    rw [hf] at h
    exact h
  | some fault =>
    rw [hf] at h
    exact h

theorem callChecks_kept_iff (id : String) (j : Job) :
    (∀ c ∈ j.callChecks id, ¬ c.broken) ↔ (j.uses.isSome = true →
      j.runsOn = none ∧ j.environment = none ∧ j.outputs = .empty ∧ j.defaults = none ∧ j.container = none ∧
        j.services = .empty) := by
  simp only [callChecks, runnerFieldsGiven, List.map_cons, List.map_nil, List.forall_mem_cons]
  cases j.uses <;> simp [Entries.isEmpty_iff]

theorem stepChecks_kept_iff (id : String) (index : Nat) (steps : List Step) :
    (∀ c ∈ stepChecks id index steps, ¬ c.broken) ↔ ∀ s ∈ steps, s.WellFormed := by
  induction steps generalizing index with
  | nil => simp [stepChecks]
  | cons s rest ih =>
    have hrest := ih (index + 1)
    simp only [stepChecks] at hrest
    simp only [stepChecks, List.zipIdx_cons, List.flatMap_cons, List.forall_mem_append, List.forall_mem_cons,
      hrest, s.kept_iff]

theorem kept_iff (id : String) (j : Job) : (∀ c ∈ j.checks id, ¬ c.broken) ↔ j.WellFormed := by
  simp only [checks, ownChecks, List.forall_mem_append, callChecks_kept_iff, stepChecks_kept_iff,
    shapeChecks, runnerChecks, List.forall_mem_cons]
  constructor
  · rintro ⟨⟨⟨hboth, hneither, -⟩, ⟨hnone, hmachine, hinputs, hsecrets, hempty, -⟩, hcall⟩, hsteps⟩
    refine ⟨?_, ?_, by simpa using hinputs, by simpa using hsecrets, ?_, hcall⟩
    · cases hs : j.steps <;> cases hu : j.uses <;> simp_all [Xor]
    · intro hs
      cases hr : j.runsOn with
      | none => exact absurd ⟨hs, hr⟩ hnone
      | some r =>
        refine ⟨r, rfl, ?_⟩
        cases hl : r.labels? with
        | none => exact absurd ⟨hs, r, hr, hl⟩ hmachine
        | some labels => rfl
    · rintro steps hs
      refine ⟨?_, by simpa [hs] using hsteps⟩
      rintro rfl
      exact hempty hs
  · rintro ⟨hone, hruns, hinputs, hsecrets, hsteps, hcall⟩
    refine ⟨⟨⟨?_, ?_, by simp⟩, ⟨?_, ?_, by simpa using hinputs, by simpa using hsecrets, ?_, by simp⟩, hcall⟩,
      ?_⟩
    · cases hs : j.steps <;> cases hu : j.uses <;> simp_all [Xor]
    · cases hs : j.steps <;> cases hu : j.uses <;> simp_all [Xor]
    · rintro ⟨hs, hr⟩
      obtain ⟨r, hr', -⟩ := hruns hs
      simp [hr] at hr'
    · rintro ⟨hs, r, hr, hl⟩
      obtain ⟨r', hr', hl'⟩ := hruns hs
      simp_all
    · intro hs
      exact (hsteps [] hs).1 rfl
    · cases hs : j.steps with
      | none => simp
      | some steps => exact (hsteps steps hs).2

end Job

/-! ## Workflows -/

namespace Workflow

/-- Given triggers, well-formed jobs, and needs that are other jobs of the workflow. -/
structure WellFormed (w : Workflow) : Prop where
  on : w.on.IsGiven
  jobs : ∀ e ∈ w.jobs.toList, e.2.WellFormed
  needs : ∀ e ∈ w.jobs.toList, ∀ needs, e.2.needs = some needs →
    ∀ name ∈ needs.names, name ≠ e.1 ∧ name ∈ w.jobs.names

def needChecks (ids : List String) (id name : String) : List Check :=
  [⟨name = id, .invalidJob id .needsItself⟩, ⟨name ∉ ids, .unknownJobDependency id name⟩]

def neededNames (j : Job) : List String := (j.needs.map Needs.names).getD []

/-- Everything that may be wrong with a workflow: the triggers, then job after job, each before its steps, and
at last the needs. -/
def checks (w : Workflow) : List Check :=
  w.on.checks ++
    ((w.jobs.toList.flatMap fun (id, j) => j.checks id) ++
      w.jobs.toList.flatMap fun (id, j) => (neededNames j).flatMap (needChecks w.jobs.names id))

theorem jobs_reports (jobs : List (String × Job)) :
    Reports (jobs.flatMap fun (id, j) => j.checks id) (Job.validateAll jobs) := by
  induction jobs with
  | nil => exact .nil
  | cons e rest ih => exact (e.2.reports e.1).bind ih

theorem needed_reports (ids : List String) (id : String) (names : List String) :
    Reports (names.flatMap (needChecks ids id)) (validateNeeded ids id names) := by
  induction names with
  | nil => exact .nil
  | cons name rest ih =>
    rw [validateNeeded]
    split
    · rename_i hself
      exact .broken hself
    · rename_i hself
      split
      · rename_i hids
        exact .kept hself (.broken (by simpa using hids))
      · rename_i hids
        exact .kept hself (.kept (by simpa using hids) ih)

theorem needs_reports (ids : List String) (jobs : List (String × Job)) :
    Reports (jobs.flatMap fun (id, j) => (neededNames j).flatMap (needChecks ids id)) (validateNeeds ids jobs) := by
  induction jobs with
  | nil => exact .nil
  | cons e rest ih => exact (needed_reports ids e.1 (neededNames e.2)).bind ih

theorem reports (w : Workflow) : Reports w.checks w.validate :=
  w.on.reports.bind ((jobs_reports w.jobs.toList).bind (needs_reports w.jobs.names w.jobs.toList))

theorem jobs_kept_iff (jobs : List (String × Job)) :
    (∀ c ∈ jobs.flatMap fun (id, j) => j.checks id, ¬ c.broken) ↔ ∀ e ∈ jobs, e.2.WellFormed := by
  simp only [List.forall_mem_flatMap, Job.kept_iff]

theorem needed_kept_iff (ids : List String) (id : String) (names : List String) :
    (∀ c ∈ names.flatMap (needChecks ids id), ¬ c.broken) ↔ ∀ name ∈ names, name ≠ id ∧ name ∈ ids := by
  rw [List.forall_mem_flatMap]
  refine forall₂_congr fun name _ => ?_
  simp [needChecks]

theorem needs_kept_iff (ids : List String) (jobs : List (String × Job)) :
    (∀ c ∈ jobs.flatMap fun (id, j) => (neededNames j).flatMap (needChecks ids id), ¬ c.broken) ↔
      ∀ e ∈ jobs, ∀ needs, e.2.needs = some needs → ∀ name ∈ needs.names, name ≠ e.1 ∧ name ∈ ids := by
  rw [List.forall_mem_flatMap]
  refine forall₂_congr fun e _ => ?_
  rw [needed_kept_iff]
  cases hn : e.2.needs <;> simp [neededNames, hn]

theorem kept_iff (w : Workflow) : (∀ c ∈ w.checks, ¬ c.broken) ↔ w.WellFormed := by
  rw [checks, List.forall_mem_append, List.forall_mem_append, Triggers.kept_iff, jobs_kept_iff, needs_kept_iff]
  exact ⟨fun ⟨hon, hjobs, hneeds⟩ => ⟨hon, hjobs, hneeds⟩, fun ⟨hon, hjobs, hneeds⟩ => ⟨hon, hjobs, hneeds⟩⟩

/-- Exactly the well-formed workflows are valid; of any other one the first broken check is reported. -/
theorem validate_exact (w : Workflow) :
    (w.validate = .ok () ↔ w.WellFormed) ∧ ∀ e, w.validate = .error e ↔ FirstBroken w.checks e :=
  ⟨w.reports.ok_iff.trans w.kept_iff, w.reports.error_iff⟩

end Workflow

end CiWorkflow
