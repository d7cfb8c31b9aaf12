import CiWorkflow.Proofs.Workflow.ReadBack.Trigger
import CiWorkflow.Workflow.Document

/-!
# Workflows read back

The value of a workflow reads as a workflow of the same value. It need not be the same workflow: a machine comes
back as its label, and an open value as it is built anew. Building anew takes an exclamation mark off a tag
that still starts with one, so tags have to be plain.
-/
set_option autoImplicit false

namespace CiWorkflow

open Yaml

variable {σ : Type} [Source σ] [OfValue σ]

theorem Step.reads_back (s : Step) (hplain : ∀ e ∈ s.inputs.toList, e.2.rebuilt.plainTags) :
    ReadsBack (σ := σ) read? value s := by
  refine .record rfl (fun _ => rfl) (by decide) rfl (by simp [fieldNames]) fun r hpos hheld => ?_
  simp only [fieldNames, List.zip_cons_cons, List.forall_mem_cons] at hheld
  obtain ⟨hname, hid, hcondition, huses, hinputs, hrun, hshell, hdirectory, henv, hcontinue, htimeout, -⟩ := hheld
  obtain ⟨inputs, hinputs, e₁⟩ := hinputs.entries fun e he => Value.reads_back (hplain e he)
  obtain ⟨continueOnError, hcontinue, e₂⟩ :=
    hcontinue.optional hpos (fun f _ => f.isNull_value) fun f _ => f.reads_back
  obtain ⟨timeout, htimeout, e₃⟩ := htimeout.optional hpos (fun c _ => c.isNull_value) fun c _ => c.reads_back
  refine ⟨⟨s.name, s.id, s.condition, s.uses, inputs, s.run, s.shell, s.workingDirectory, s.env, continueOnError,
    timeout⟩, ?_, by rw [value, e₁, e₂, e₃]; rfl⟩
  have hinputs' : r.defaulted? "with" .empty readValueEntries? = some inputs := hinputs
  simp [hname.text hpos, hid.text hpos, hcondition.text hpos, huses.text hpos, hinputs', hrun.text hpos,
    hshell.text hpos, hdirectory.text hpos, henv.textEntries, hcontinue, htimeout]

theorem readList_steps {ss : List Step} (h : ∀ s ∈ ss, ReadsBack (σ := σ) Step.read? Step.value s) :
    ReadsBack (σ := σ) (readList? Step.read?) (fun ss => .sequence (ss.map Step.value)) ss := by
  obtain ⟨bs, hbs, hvalues⟩ := readList_back h
  exact ⟨bs, hbs, congrArg Value.sequence hvalues⟩

namespace Job

/-- The runner is not given as a list, and no value of the matrix has a tag. -/
structure Ordinary (j : Job) : Prop where
  runner : ∀ rs, j.runsOn ≠ some (.many rs)
  matrix : ∀ s ∈ j.strategy, ∀ m ∈ s.matrix, m.value.tagFree

theorem runsOn_back {j : Job} {g : Fields} {r : Record σ} (hg : j.runsOnFields? = some g)
    (hrunner : ∀ rs, j.runsOn ≠ some (.many rs)) (h : Holds r.found "runs-on" g) (hpos : r.positional = false) :
    ∃ y, r.optional? "runs-on" RunsOn.read? = some y ∧ ∀ b : Job, b.runsOn = y → b.runsOnFields? = some g := by
  rw [runsOnFields?] at hg
  split at hg
  · cases hg
    refine ⟨none, by rw [Record.optional?, h.lookup_nil]; simp [hpos], fun b hb => ?_⟩
    rw [runsOnFields?, hb]
  · rename_i runsOn hrunsOn
    cases runsOn with
    | many rs => exact absurd hrunsOn (hrunner rs)
    | one runner =>
      obtain ⟨v, hv, rfl⟩ := Option.map_eq_some_iff.mp hg
      obtain ⟨l, hl, rfl⟩ := Option.map_eq_some_iff.mp hv
      obtain ⟨label, -, rfl⟩ := Option.map_eq_some_iff.mp hl
      refine ⟨some (.one (.label label)), ?_, fun b hb => ?_⟩
      · have hread : RunsOn.read? (OfValue.of (.string label) : σ) = some (.one (.label label)) := by
          rw [RunsOn.read?, readOneOf_of rfl]
          rfl
        have hpresent : Source.present? (OfValue.of (.string label) : σ) = some true := OfValue.present rfl
        rw [Record.optional?, h.lookup_always]
        simp [readOptional?, RunnerLabel.value, hpresent, hread]
      · rw [runsOnFields?, hb]
        rfl

theorem isGroup_runsOn {j : Job} {g : Fields} (hg : j.runsOnFields? = some g) : Fields.IsGroup "runs-on" g := by
  rw [runsOnFields?] at hg
  split at hg
  · cases hg
    exact .inl rfl
  · obtain ⟨v, -, rfl⟩ := Option.map_eq_some_iff.mp hg
    exact .inr ⟨v, rfl⟩

theorem plainTags_inputs {s : Step} (h : s.value.plainTags) : ∀ e ∈ s.inputs.toList, e.2.rebuilt.plainTags := by
  rw [Step.value, Fields.plainTags_value] at h
  exact Fields.plainTagsEntries_ifEntries.mp (h (.ifEntries "with" Value.rebuilt s.inputs) (by simp))

theorem reads_back {j : Job} {v : Value} (hv : j.value? = some v) (hj : j.Ordinary) (hplain : v.plainTags) :
    ∃ b, read? (OfValue.of v : σ) = some b ∧ b.value? = some v := by
  obtain ⟨g, hg, hv⟩ := Option.bind_eq_some_iff.mp hv
  cases hv
  rw [Fields.plainTags_value] at hplain
  have hinputs : ∀ e ∈ j.inputs.toList, e.2.rebuilt.plainTags :=
    Fields.plainTagsEntries_ifEntries.mp (hplain (.ifEntries "with" Value.rebuilt j.inputs) (by simp))
  have hsteps : ∀ ss ∈ j.steps, ∀ s ∈ ss, s.value.plainTags := by
    intro ss hss s hs
    have hseq := Fields.plainTagsEntries_ifSome.mp
      (hplain (.ifSome "steps" (fun ss => .sequence (ss.map Step.value)) j.steps) (by simp)) ss hss
    exact Value.plainTagsItems_iff.mp hseq _ (List.mem_map_of_mem hs)
  refine exists_read rfl (fun _ => rfl) (by decide) rfl (by simp [fieldNames, isGroup_runsOn hg]) fun r hpos hheld => ?_
  simp only [fieldNames, List.zip_cons_cons, List.forall_mem_cons] at hheld
  obtain ⟨hname, hneeds, hcondition, hrunsOn, hpermissions, henvironment, hconcurrency, houtputs, henv, hdefaults,
    htimeout, hcontinue, hstrategy, hcontainer, hservices, huses, hinputs', hsecrets, hsteps', -⟩ := hheld
  obtain ⟨needs, hneeds, e₁⟩ := hneeds.optional hpos (fun x _ => x.isNull_value) fun x _ => x.reads_back
  obtain ⟨runsOn, hrunsOn, e₂⟩ := runsOn_back hg hj.runner hrunsOn hpos
  obtain ⟨permissions, hpermissions, e₃⟩ :=
    hpermissions.optional hpos (fun x _ => x.isNull_value) fun x _ => x.reads_back
  obtain ⟨environment, henvironment, e₄⟩ :=
    henvironment.optional hpos (fun x _ => x.isNull_value) fun x _ => x.reads_back
  obtain ⟨concurrency, hconcurrency, e₅⟩ :=
    hconcurrency.optional hpos (fun x _ => x.isNull_value) fun x _ => x.reads_back
  obtain ⟨defaults, hdefaults, e₆⟩ := hdefaults.optional hpos (fun _ _ => rfl) fun x _ => x.reads_back
  obtain ⟨timeout, htimeout, e₇⟩ := htimeout.optional hpos (fun x _ => x.isNull_value) fun x _ => x.reads_back
  obtain ⟨continueOnError, hcontinue, e₈⟩ :=
    hcontinue.optional hpos (fun x _ => x.isNull_value) fun x _ => x.reads_back
  obtain ⟨strategy, hstrategy, e₉⟩ :=
    hstrategy.optional hpos (fun _ _ => rfl) fun x hx => x.reads_back (hj.matrix x hx)
  obtain ⟨container, hcontainer, e₁₀⟩ :=
    hcontainer.optional hpos (fun x _ => x.isNull_value) fun x _ => x.reads_back
  obtain ⟨services, hservices, e₁₁⟩ := hservices.entries fun e _ => e.2.reads_back
  obtain ⟨inputs, hread, e₁₂⟩ := hinputs'.entries fun e he => Value.reads_back (hinputs e he)
  obtain ⟨secrets, hsecrets, e₁₃⟩ := hsecrets.optional hpos (fun x _ => x.isNull_value) fun x _ => x.reads_back
  obtain ⟨steps, hsteps', e₁₄⟩ := hsteps'.optional hpos (fun _ _ => rfl) fun ss hss =>
    readList_steps fun s hs => s.reads_back (plainTags_inputs (hsteps ss hss s hs))
  refine ⟨⟨j.name, needs, j.condition, runsOn, permissions, environment, concurrency, j.outputs, j.env, defaults,
    timeout, continueOnError, strategy, container, services, j.uses, inputs, secrets, steps⟩, ?_, ?_⟩
  · have hinputs'' : r.defaulted? "with" .empty readValueEntries? = some inputs := hread
    simp [hname.text hpos, hneeds, hcondition.text hpos, hrunsOn, hpermissions, henvironment, hconcurrency,
      houtputs.textEntries, henv.textEntries, hdefaults, htimeout, hcontinue, hstrategy, hcontainer, hservices,
      huses.text hpos, hinputs'', hsecrets, hsteps']
  · rw [value?, e₂ _ rfl, e₁, e₃, e₄, e₅, e₆, e₇, e₈, e₉, e₁₀, e₁₁, e₁₂, e₁₃, e₁₄]
    rfl

end Job

namespace Workflow

theorem jobs_back {js : List (String × Job)} {es : Fields} (hes : jobEntries? js = some es)
    (hjs : ∀ e ∈ js, e.2.Ordinary) (hplain : Value.plainTagsEntries es) :
    ∃ bs : List (String × Job), (given es : List (σ × σ)).mapM (readNamed? Job.read?) = some bs ∧
      bs.map Prod.fst = js.map Prod.fst ∧ jobEntries? bs = some es := by
  induction js generalizing es with
  | nil =>
    cases hes
    exact ⟨[], rfl, rfl, rfl⟩
  | cons e rest ih =>
    simp only [jobEntries?, Option.bind_eq_bind, Option.bind_eq_some_iff] at hes
    obtain ⟨v, hv, fs, hfs, hes⟩ := hes
    cases hes
    rw [List.forall_mem_cons] at hjs
    simp only [Value.plainTagsEntries, Bool.and_eq_true] at hplain
    obtain ⟨b, hb, hvalue⟩ := e.2.reads_back (σ := σ) hv hjs.1 hplain.1.2
    obtain ⟨bs, hbs, hnames, hvalues⟩ := ih hfs hjs.2 hplain.2
    have hnamed : readNamed? Job.read? ((OfValue.of (.string e.1), OfValue.of v) : σ × σ) = some (e.1, b) := by
      simp [readNamed?, OfValue.text, hb]
    refine ⟨(e.1, b) :: bs, ?_, by rw [List.map_cons, List.map_cons, hnames], ?_⟩
    · change ((_, _) :: given fs).mapM _ = _
      rw [List.mapM_cons, hnamed, hbs]
      rfl
    · simp [jobEntries?, hvalue, hvalues]

/-- No runner is given as a list, nothing under the events or in a matrix has a tag, no input has null for its
default, and no other event is named like one with settings of its own. -/
structure Ordinary (w : Workflow) : Prop where
  jobs : ∀ e ∈ w.jobs.toList, e.2.Ordinary
  tags : w.on.value.tagFree
  dispatch : ∀ s, w.on = .spec s → ∀ d ∈ s.workflowDispatch, NoNullDefault d.inputs
  call : ∀ s, w.on = .spec s → ∀ c ∈ s.workflowCall, NoNullDefault c.inputs
  names : ∀ s, w.on = .spec s → s.FreeNames

/-- The value of a workflow reads as a workflow of the same value if its tags are plain. -/
theorem value_fixed {w : Workflow} {v : Value} (hv : w.value? = some v) (hw : w.Ordinary) (hplain : v.plainTags) :
    ∃ w', read? (OfValue.of v : σ) = some w' ∧ w'.value? = some v := by
  obtain ⟨jobs, hjobs, hv⟩ := Option.bind_eq_some_iff.mp hv
  cases hv
  rw [Fields.plainTags_value] at hplain
  have hplainJobs : Value.plainTagsEntries jobs := by
    simpa [Value.plainTags] using hplain (.always "jobs" (.mapping jobs)) (by simp)
  refine exists_read rfl (fun _ => rfl) (by decide) rfl (by simp [fieldNames]) fun r hpos hheld => ?_
  simp only [fieldNames, List.zip_cons_cons, List.forall_mem_cons] at hheld
  obtain ⟨hname, hrunName, hon, henv, hpermissions, hconcurrency, hdefaults, hheldJobs, -⟩ := hheld
  obtain ⟨on, hread, e₁⟩ := w.on.reads_back (σ := σ) hw.names hw.dispatch hw.call hw.tags
  obtain ⟨permissions, hpermissions, e₂⟩ :=
    hpermissions.optional hpos (fun x _ => x.isNull_value) fun x _ => x.reads_back
  obtain ⟨concurrency, hconcurrency, e₃⟩ :=
    hconcurrency.optional hpos (fun x _ => x.isNull_value) fun x _ => x.reads_back
  obtain ⟨defaults, hdefaults, e₄⟩ := hdefaults.optional hpos (fun _ _ => rfl) fun x _ => x.reads_back
  obtain ⟨bs, hbs, hnames, hvalues⟩ := jobs_back (σ := σ) hjobs hw.jobs hplainJobs
  have hreadJobs : r.defaulted? "jobs" .empty (readEntries? Job.read?) = some (.ofList bs) := by
    rw [Record.defaulted?, hheldJobs.lookup_always]
    change readEntries? Job.read? (OfValue.of (.mapping jobs)) = _
    rw [readEntries?, OfValue.mapping]
    change Option.map _ ((given jobs).mapM _) = _
    rw [hbs]
    rfl
  have hlist : (Entries.ofList bs).toList = bs := Entries.toList_ofList (hnames ▸ w.jobs.nodup)
  refine ⟨⟨w.name, w.runName, on, w.env, permissions, concurrency, defaults, .ofList bs⟩, ?_, ?_⟩
  · simp [hname.required_text, hrunName.text hpos, hon.required, hread, henv.textEntries, hpermissions,
      hconcurrency, hdefaults, hreadJobs]
  · rw [value?, hlist, hvalues, e₁, e₂, e₃, e₄]
    rfl

def taggedInputJob (tag : String) : Job :=
  { Job.onRunner (.one (.label "u")) with
    steps := some [{ Step.ofAction "a" with inputs := .ofList [("k", .tagged tag (.int 1))] }] }

def withTaggedInput (tag : String) : Workflow :=
  { new "n" (.event "push") with jobs := .ofList [("j", taggedInputJob tag)] }

def taggedInputValue (tag : String) : Value :=
  .mapping [(.string "name", .string "n"), (.string "on", .string "push"),
    (.string "jobs", .mapping [(.string "j", .mapping [(.string "runs-on", .string "u"),
      (.string "steps", .sequence [.mapping [(.string "uses", .string "a"),
        (.string "with", .mapping [(.string "k", .tagged tag (.int 1))])]])])])]

theorem ordinary_withTaggedInput (tag : String) : (withTaggedInput tag).Ordinary where
  jobs := by
    have hjobs : (withTaggedInput tag).jobs.toList = [("j", taggedInputJob tag)] := rfl
    rw [hjobs, List.forall_mem_singleton]
    exact ⟨nofun, nofun⟩
  tags := rfl
  dispatch _ h := nomatch h
  call _ h := nomatch h
  names _ h := nomatch h

theorem value_fixed_tagged_input : (withTaggedInput "x").value? = some (taggedInputValue "x") ∧
    (withTaggedInput "x").Ordinary ∧ (taggedInputValue "x").plainTags = true ∧
    ∃ w', read? (⟨taggedInputValue "x"⟩ : Datum) = some w' ∧ w'.value? = some (taggedInputValue "x") :=
  ⟨rfl, ordinary_withTaggedInput "x", rfl,
    value_fixed (σ := Datum) (rfl : (withTaggedInput "x").value? = some (taggedInputValue "x"))
      (ordinary_withTaggedInput "x") rfl⟩

/-- A tag that is shown with two exclamation marks loses one when it is read and written again. -/
theorem value_changed_two_marks : ¬ ∀ (w : Workflow) (v : Value), w.value? = some v → w.Ordinary →
    ∃ w', read? (⟨v⟩ : Datum) = some w' ∧ w'.value? = some v := by
  intro h
  have hv : (withTaggedInput "!!x").value? = some (taggedInputValue "!x") := rfl
  obtain ⟨w', hread, hvalue⟩ := h _ _ hv (ordinary_withTaggedInput "!!x")
  have hback : (read? (⟨taggedInputValue "!x"⟩ : Datum)).bind value? = some (taggedInputValue "x") := rfl
  rw [hread, Option.bind_some, hvalue] at hback
  simp [taggedInputValue] at hback

end Workflow

end CiWorkflow
