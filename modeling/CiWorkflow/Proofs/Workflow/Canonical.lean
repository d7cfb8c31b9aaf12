import CiWorkflow.Proofs.Workflow.StrayKey
import CiWorkflow.Proofs.Workflow.Validity

set_option autoImplicit false

namespace CiWorkflow

open Yaml

namespace RunsOn

def runners : RunsOn → List Runner
  | .one r => [r]
  | .many rs => rs

theorem isSome_labels_iff (r : RunsOn) : r.labels?.isSome ↔ ∀ runner ∈ r.runners, runner.label?.isSome := by
  cases r with
  | one runner => rw [labels?, runners, Option.isSome_map, List.forall_mem_singleton]
  | many rs => rw [labels?, runners, Option.isSome_map, isSome_mapM_iff]

theorem isSome_value_iff (r : RunsOn) : r.value?.isSome ↔ r.labels?.isSome := by
  rw [value?, Option.isSome_map]

end RunsOn

namespace Job

theorem isSome_value_iff (j : Job) : j.value?.isSome ↔ ∀ r, j.runsOn = some r → r.value?.isSome := by
  have hfields : j.value?.isSome ↔ j.runsOnFields?.isSome := by
    rw [value?]
    cases j.runsOnFields? <;> rfl
  rw [hfields, runsOnFields?]
  cases j.runsOn with
  | none => simp
  | some r => simp

/-- A job on a runner has runners that all have a label, and a call has no runner. -/
theorem WellFormed.isSome_label {j : Job} (h : j.WellFormed) {r : RunsOn} (hr : j.runsOn = some r) :
    ∀ runner ∈ r.runners, runner.label?.isSome := by
  rw [← r.isSome_labels_iff]
  obtain ⟨hsteps, -⟩ | ⟨huses, -⟩ := h.one
  · obtain ⟨other, hother, hlabels⟩ := h.runsOn hsteps
    cases hr.symm.trans hother
    exact hlabels
  · obtain ⟨hnone, -⟩ := h.noRunnerFields huses
    cases hr.symm.trans hnone

theorem WellFormed.isSome_value {j : Job} (h : j.WellFormed) : j.value?.isSome := by
  rw [isSome_value_iff]
  intro r hr
  rw [r.isSome_value_iff, r.isSome_labels_iff]
  exact h.isSome_label hr

end Job

namespace Workflow

variable {w : Workflow} {v : Value}

theorem isSome_jobEntries_iff {js : List (String × Job)} : (jobEntries? js).isSome ↔ ∀ e ∈ js, e.2.value?.isSome := by
  induction js with
  | nil => simp [jobEntries?]
  | cons e rest ih =>
    rw [List.forall_mem_cons, ← ih, jobEntries?]
    cases e.2.value? <;> cases jobEntries? rest <;> simp

theorem isSome_value_iff (w : Workflow) : w.value?.isSome ↔ ∀ e ∈ w.jobs.toList, e.2.value?.isSome := by
  rw [← isSome_jobEntries_iff, value?]
  cases jobEntries? w.jobs.toList <;> rfl

theorem wellFormed_of_validate (h : w.validate = .ok ()) : w.WellFormed := w.kept_iff.mp (w.reports.ok_iff.mp h)

theorem exists_value_of_validate (h : w.validate = .ok ()) : ∃ v, w.value? = some v :=
  Option.isSome_iff_exists.mp
    (w.isSome_value_iff.mpr fun e he => ((wellFormed_of_validate h).jobs e he).isSome_value)

theorem value_of_canonical (h : w.canonical = .ok v) : w.value? = some v := by
  obtain ⟨-, -, h⟩ := bind_eq_ok.mp h
  split at h
  · rename_i hv
    cases h
    exact hv
  · cases h

theorem canonical_of_validate_error {e : Error} (h : w.validate = .error e) : w.canonical = .error e := by
  rw [canonical, h]
  rfl

theorem exists_canonical_of_validate (h : w.validate = .ok ()) : ∃ v, w.canonical = .ok v := by
  obtain ⟨v, hv⟩ := exists_value_of_validate h
  refine ⟨v, ?_⟩
  rw [canonical, h, hv]
  rfl

/-- The value of a workflow and its check succeed and fail together, with the same error; and where the check
succeeds, every runner of every job has a label. -/
theorem canonical_iff_validate (w : Workflow) :
    ((∃ v, w.canonical = .ok v) ↔ w.validate = .ok ()) ∧ (∀ e, w.canonical = .error e ↔ w.validate = .error e) ∧
      (w.validate = .ok () → ∀ e ∈ w.jobs.toList, ∀ r, e.2.runsOn = some r →
        r.value?.isSome ∧ ∀ runner ∈ r.runners, runner.label?.isSome) := by
  refine ⟨⟨fun ⟨v, hv⟩ => ?_, exists_canonical_of_validate⟩, fun e => ⟨fun he => ?_, canonical_of_validate_error⟩,
    fun h e he r hr => ?_⟩
  · cases hvalid : w.validate with
    | ok _ => rfl
    | error e => cases hv.symm.trans (canonical_of_validate_error hvalid)
  · cases hvalid : w.validate with
    | ok _ =>
      obtain ⟨v, hv⟩ := exists_canonical_of_validate hvalid
      cases he.symm.trans hv
    | error e' => rw [Except.error.inj (he.symm.trans (canonical_of_validate_error hvalid))]
  · have hlabels := ((wellFormed_of_validate h).jobs e he).isSome_label hr
    exact ⟨r.isSome_value_iff.mpr (r.isSome_labels_iff.mpr hlabels), hlabels⟩

def mixedRunners : RunsOn := .many [.label "u", .machine ⟨none, some "g", none⟩]

def mixedJob : Job := { Job.onRunner mixedRunners with steps := some [Step.ofScript "make"] }

def mixedWorkflow : Workflow := { new "n" (.event "push") with jobs := .ofList [("j", mixedJob)] }

theorem canonical_iff_validate_mixed :
    mixedWorkflow.validate = .ok () ∧ (∃ v, mixedWorkflow.canonical = .ok v) ∧ mixedRunners.value?.isSome ∧
      ∀ runner ∈ mixedRunners.runners, runner.label?.isSome := by
  have hvalid : mixedWorkflow.validate = .ok () := rfl
  obtain ⟨hok, -, hrunners⟩ := canonical_iff_validate mixedWorkflow
  have hjob : ("j", mixedJob) ∈ mixedWorkflow.jobs.toList := List.mem_singleton.mpr rfl
  exact ⟨hvalid, hok.mpr hvalid, hrunners hvalid _ hjob mixedRunners rfl⟩

end Workflow

end CiWorkflow
