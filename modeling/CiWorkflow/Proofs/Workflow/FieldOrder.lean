import CiWorkflow.Proofs.Workflow.ReadBack.Document
import CiWorkflow.Workflow.Validate
import Mathlib.Data.List.Forall2

set_option autoImplicit false

namespace CiWorkflow

open Yaml

namespace Yaml.Value

def at? (name : String) : Value → Option Value
  | .mapping es => (es.find? fun e => e.1.text? = some name).map Prod.snd
  | _ => none

def itemsAt (name : String) (v : Value) : List Value :=
  match v.at? name with
  | some (.sequence vs) => vs
  | _ => []

def entriesAt (name : String) (v : Value) : List (Value × Value) :=
  match v.at? name with
  | some (.mapping es) => es
  | _ => []

def KeysInOrder (names : List String) (v : Value) : Prop :=
  ∃ es, v = .mapping es ∧ (es.map Prod.fst).Sublist (names.map .string)

end Yaml.Value

namespace Yaml.Fields

variable {names : List String} {groups : List Fields} {name : String} {g : Fields}

theorem keysInOrder_value (hlength : names.length = groups.length)
    (hgroups : ∀ s ∈ names.zip groups, IsGroup s.1 s.2) : (value groups).KeysInOrder names := by
  have hkeys := keys_concat hgroups
  have hnames : (names.zip groups).map (fun s => Value.string s.1) = names.map .string := by
    have hfst : (names.zip groups).map Prod.fst = names := List.map_fst_zip (by omega)
    calc
      _ = ((names.zip groups).map Prod.fst).map Value.string := List.map_map.symm
      _ = _ := by rw [hfst]
  rw [List.map_snd_zip (by omega), hnames] at hkeys
  exact ⟨concat groups, rfl, hkeys⟩

theorem find_concat_of_ne {slots : List (String × Fields)} (hslots : ∀ s ∈ slots, IsGroup s.1 s.2)
    (hname : name ∉ slots.map Prod.fst) :
    (concat (slots.map Prod.snd)).find? (fun e => e.1.text? = some name) = none := by
  refine List.find?_eq_none.mpr fun e he => ?_
  have hkey := (keys_concat hslots).subset (List.mem_map_of_mem (f := Prod.fst) he)
  obtain ⟨s, hs, hkey⟩ := List.mem_map.mp hkey
  rw [← hkey]
  simp only [Value.text?, Option.some.injEq, decide_eq_true_eq]
  rintro rfl
  exact hname (List.mem_map_of_mem hs)

theorem find_concat {slots : List (String × Fields)} (hslots : ∀ s ∈ slots, IsGroup s.1 s.2)
    (hnodup : (slots.map Prod.fst).Nodup) (hmem : (name, g) ∈ slots) :
    ((concat (slots.map Prod.snd)).find? fun e => e.1.text? = some name).map Prod.snd = g.head?.map Prod.snd := by
  induction slots with
  | nil => cases hmem
  | cons s rest ih =>
    rw [List.forall_mem_cons] at hslots
    rw [List.map_cons, List.nodup_cons] at hnodup
    change ((s.2 ++ concat (rest.map Prod.snd)).find? _).map Prod.snd = _
    rw [List.find?_append]
    obtain rfl | hmem := List.mem_cons.mp hmem
    · rw [find_concat_of_ne hslots.2 hnodup.1, Option.or_none]
      obtain rfl | ⟨v, rfl⟩ : g = [] ∨ ∃ v, g = always name v := hslots.1
      · rfl
      · simp [always, Value.text?]
    · have hne : s.1 ≠ name := by
        rintro rfl
        exact hnodup.1 (List.mem_map.mpr ⟨_, hmem, rfl⟩)
      have hnone : s.2.find? (fun e => e.1.text? = some name) = none := by
        obtain hs | ⟨v, hs⟩ := hslots.1 <;> rw [hs]
        · rfl
        · simp [always, Value.text?, hne]
      rw [hnone, Option.none_or, ih hslots.2 hnodup.2 hmem]

theorem at?_value (hlength : names.length = groups.length) (hnodup : names.Nodup)
    (hgroups : ∀ s ∈ names.zip groups, IsGroup s.1 s.2) (hmem : (name, g) ∈ names.zip groups) :
    (value groups).at? name = g.head?.map Prod.snd := by
  have hfst : (names.zip groups).map Prod.fst = names := List.map_fst_zip (by omega)
  have hsnd : (names.zip groups).map Prod.snd = groups := List.map_snd_zip (by omega)
  have hfind := find_concat hgroups (hfst.symm ▸ hnodup) hmem
  rwa [hsnd] at hfind

end Yaml.Fields

namespace Step

def groups (s : Step) : List Fields :=
  [.ifText "name" s.name, .ifText "id" s.id, .ifText "if" s.condition, .ifText "uses" s.uses,
    .ifEntries "with" Value.rebuilt s.inputs, .ifText "run" s.run, .ifText "shell" s.shell,
    .ifText "working-directory" s.workingDirectory, .ifEntries "env" .string s.env,
    .ifSome "continue-on-error" Flag.value s.continueOnError, .ifSome "timeout-minutes" Count.value s.timeoutMinutes]

theorem isGroup_groups (s : Step) : ∀ slot ∈ fieldNames.zip s.groups, Fields.IsGroup slot.1 slot.2 := by
  simp [fieldNames, groups]

theorem keysInOrder_value (s : Step) : s.value.KeysInOrder fieldNames :=
  Fields.keysInOrder_value rfl s.isGroup_groups

theorem at?_value {s : Step} {name : String} {g : Fields} (hmem : (name, g) ∈ fieldNames.zip s.groups) :
    s.value.at? name = g.head?.map Prod.snd :=
  Fields.at?_value rfl (by decide) s.isGroup_groups hmem

end Step

namespace Job

/-- What stands under the fields of a job whose runner has been turned into fields. -/
def groups (j : Job) (runsOn : Fields) : List Fields :=
  [.ifText "name" j.name, .ifSome "needs" Needs.value j.needs, .ifText "if" j.condition, runsOn,
    .ifSome "permissions" Permissions.value j.permissions, .ifSome "environment" Environment.value j.environment,
    .ifSome "concurrency" Concurrency.value j.concurrency, .ifEntries "outputs" .string j.outputs,
    .ifEntries "env" .string j.env, .ifSome "defaults" Defaults.value j.defaults,
    .ifSome "timeout-minutes" Count.value j.timeoutMinutes, .ifSome "continue-on-error" Flag.value j.continueOnError,
    .ifSome "strategy" Strategy.value j.strategy, .ifSome "container" Container.value j.container,
    .ifEntries "services" Container.value j.services, .ifText "uses" j.uses,
    .ifEntries "with" Value.rebuilt j.inputs, .ifSome "secrets" Secrets.value j.secrets,
    .ifSome "steps" (fun ss => .sequence (ss.map Step.value)) j.steps]

variable {j : Job} {v : Value}

theorem exists_groups (h : j.value? = some v) :
    ∃ runsOn, v = Fields.value (j.groups runsOn) ∧
      ∀ slot ∈ fieldNames.zip (j.groups runsOn), Fields.IsGroup slot.1 slot.2 := by
  obtain ⟨g, hg, hv⟩ := Option.bind_eq_some_iff.mp h
  exact ⟨g, (Option.some.inj hv).symm, by simp [fieldNames, groups, isGroup_runsOn hg]⟩

theorem keysInOrder_of_value (h : j.value? = some v) : v.KeysInOrder fieldNames := by
  obtain ⟨runsOn, rfl, hgroups⟩ := exists_groups h
  exact Fields.keysInOrder_value rfl hgroups

theorem at?_of_value (h : j.value? = some v) {name : String} {g : Fields}
    (hmem : ∀ runsOn, (name, g) ∈ fieldNames.zip (j.groups runsOn)) : v.at? name = g.head?.map Prod.snd := by
  obtain ⟨runsOn, rfl, hgroups⟩ := exists_groups h
  exact Fields.at?_value rfl (by decide) hgroups (hmem runsOn)

theorem itemsAt_of_value (h : j.value? = some v) : v.itemsAt "steps" = (j.steps.getD []).map Step.value := by
  rw [Value.itemsAt, at?_of_value h (g := .ifSome "steps" (fun ss => .sequence (ss.map Step.value)) j.steps)
    (by simp [fieldNames, groups])]
  cases j.steps <;> rfl

end Job

namespace Workflow

/-- What stands under the fields of a workflow whose jobs have been turned into fields. -/
def groups (w : Workflow) (jobs : Fields) : List Fields :=
  [.always "name" (.string w.name), .ifText "run-name" w.runName, .always "on" w.on.value,
    .ifEntries "env" .string w.env, .ifSome "permissions" Permissions.value w.permissions,
    .ifSome "concurrency" Concurrency.value w.concurrency, .ifSome "defaults" Defaults.value w.defaults,
    .always "jobs" (.mapping jobs)]

variable {w : Workflow} {v : Value}

theorem isGroup_groups (w : Workflow) (jobs : Fields) :
    ∀ slot ∈ fieldNames.zip (w.groups jobs), Fields.IsGroup slot.1 slot.2 := by
  simp [fieldNames, groups]

theorem exists_groups (h : w.value? = some v) :
    ∃ jobs, jobEntries? w.jobs.toList = some jobs ∧ v = Fields.value (w.groups jobs) := by
  obtain ⟨jobs, hjobs, hv⟩ := Option.bind_eq_some_iff.mp h
  exact ⟨jobs, hjobs, (Option.some.inj hv).symm⟩

theorem at?_of_value (h : w.value? = some v) {name : String} {g : Fields}
    (hmem : ∀ jobs, (name, g) ∈ fieldNames.zip (w.groups jobs)) : v.at? name = g.head?.map Prod.snd := by
  obtain ⟨jobs, -, rfl⟩ := exists_groups h
  exact Fields.at?_value rfl (by decide) (w.isGroup_groups jobs) (hmem jobs)

theorem exists_of_forall₂ {α β : Type} {R : α → β → Prop} {as : List α} {bs : List β} (h : List.Forall₂ R as bs) :
    ∀ b ∈ bs, ∃ a ∈ as, R a b := by
  induction h with
  | nil => exact fun _ hb => absurd hb List.not_mem_nil
  | cons hr _ ih =>
    rw [List.forall_mem_cons]
    refine ⟨⟨_, List.mem_cons_self .., hr⟩, fun b hb => ?_⟩
    obtain ⟨a, ha, hab⟩ := ih b hb
    exact ⟨a, List.mem_cons_of_mem _ ha, hab⟩

theorem jobEntries_forall₂ {js : List (String × Job)} {es : Fields} (h : jobEntries? js = some es) :
    List.Forall₂ (fun e f => f.1 = .string e.1 ∧ e.2.value? = some f.2) js es := by
  induction js generalizing es with
  | nil =>
    cases h
    exact .nil
  | cons e rest ih =>
    simp only [jobEntries?, Option.bind_eq_bind, Option.bind_eq_some_iff] at h
    obtain ⟨v, hv, fs, hfs, hes⟩ := h
    cases hes
    exact .cons ⟨rfl, hv⟩ (ih hfs)

theorem entriesAt_jobs (h : w.value? = some v) :
    List.Forall₂ (fun e f => f.1 = .string e.1 ∧ e.2.value? = some f.2) w.jobs.toList (v.entriesAt "jobs") := by
  obtain ⟨jobs, hjobs, rfl⟩ := exists_groups h
  rw [Value.entriesAt, Fields.at?_value rfl (by decide) (w.isGroup_groups jobs) (g := .always "jobs" (.mapping jobs))
    (by simp [fieldNames, groups])]
  exact jobEntries_forall₂ hjobs

/-- The keys of a workflow, of its jobs and of their steps stand in the order of their declaration, jobs last. -/
structure InFieldOrder (v : Value) : Prop where
  keys : v.KeysInOrder fieldNames
  last : ∃ es jobs, v = .mapping (es ++ [(.string "jobs", jobs)])
  jobs : ∀ e ∈ v.entriesAt "jobs", e.2.KeysInOrder Job.fieldNames
  steps : ∀ e ∈ v.entriesAt "jobs", ∀ s ∈ e.2.itemsAt "steps", s.KeysInOrder Step.fieldNames

theorem inFieldOrder_of_value (h : w.value? = some v) : InFieldOrder v := by
  have hentries := entriesAt_jobs h
  have hvalue : ∀ e ∈ v.entriesAt "jobs", ∃ j : Job, j.value? = some e.2 := by
    intro e he
    obtain ⟨f, -, -, hf⟩ := exists_of_forall₂ hentries e he
    exact ⟨f.2, hf⟩
  obtain ⟨jobs, hjobs, rfl⟩ := exists_groups h
  refine ⟨Fields.keysInOrder_value rfl (w.isGroup_groups jobs), ?_, fun e he => ?_, fun e he s hs => ?_⟩
  · exact ⟨Fields.concat (w.groups jobs).dropLast, .mapping jobs, by simp [Fields.value, Fields.concat, groups,
      Fields.always]⟩
  · obtain ⟨j, hj⟩ := hvalue e he
    exact Job.keysInOrder_of_value hj
  · obtain ⟨j, hj⟩ := hvalue e he
    rw [Job.itemsAt_of_value hj] at hs
    obtain ⟨step, -, rfl⟩ := List.mem_map.mp hs
    exact step.keysInOrder_value

end Workflow

end CiWorkflow
