import CiWorkflow.Proofs.Workflow.ReadBack.Setting
import CiWorkflow.Workflow.Trigger

/-!
# Events read back

Events are read where several shapes are tried, so nothing under them may have a tag. Null as the default of an
input is taken for none, and another event named like one with settings of its own is taken for that one.

A list of times, a list of records with a time each and a record with the list are read as the same schedule,
wherever they stand. Its value is the list of records, which is read as that schedule again.
-/
set_option autoImplicit false

namespace CiWorkflow

open Yaml

variable {σ : Type} [Source σ] [OfValue σ]

theorem PushTrigger.reads_back (t : PushTrigger) : ReadsBack (σ := σ) read? value t := by
  refine .record rfl (fun _ => rfl) (by decide) rfl (by simp [fieldNames]) fun r hpos hheld => ?_
  simp only [fieldNames, List.zip_cons_cons, List.forall_mem_cons] at hheld
  obtain ⟨hbranches, hbranchesIgnore, htags, htagsIgnore, hpaths, hpathsIgnore, -⟩ := hheld
  refine ⟨t, ?_, rfl⟩
  simp [hbranches.texts, hbranchesIgnore.texts, htags.texts, htagsIgnore.texts, hpaths.texts, hpathsIgnore.texts]

theorem PullRequestTrigger.reads_back (t : PullRequestTrigger) : ReadsBack (σ := σ) read? value t := by
  refine .record rfl (fun _ => rfl) (by decide) rfl (by simp [fieldNames]) fun r hpos hheld => ?_
  simp only [fieldNames, List.zip_cons_cons, List.forall_mem_cons] at hheld
  obtain ⟨htypes, hbranches, hbranchesIgnore, hpaths, hpathsIgnore, -⟩ := hheld
  refine ⟨t, ?_, rfl⟩
  simp [htypes.texts, hbranches.texts, hbranchesIgnore.texts, hpaths.texts, hpathsIgnore.texts]

theorem TypesTrigger.reads_back (t : TypesTrigger) : ReadsBack (σ := σ) read? value t := by
  refine .record rfl (fun _ => rfl) (by decide) rfl (by simp [fieldNames]) fun r hpos hheld => ?_
  simp only [fieldNames, List.zip_cons_cons, List.forall_mem_cons] at hheld
  exact ⟨t, by simp [hheld.1.texts], rfl⟩

theorem WorkflowRun.reads_back (t : WorkflowRun) : ReadsBack (σ := σ) read? value t := by
  refine .record rfl (fun _ => rfl) (by decide) rfl (by simp [fieldNames]) fun r hpos hheld => ?_
  simp only [fieldNames, List.zip_cons_cons, List.forall_mem_cons] at hheld
  obtain ⟨hworkflows, htypes, hbranches, hbranchesIgnore, -⟩ := hheld
  refine ⟨t, ?_, rfl⟩
  simp [hworkflows.required, readTexts_back, htypes.texts, hbranches.texts, hbranchesIgnore.texts]

/-! ## Schedules -/

theorem Schedule.reads_back_cron (cron : String) :
    ReadsBack (σ := σ) readCron? (fun c => Fields.value [.always "cron" (.string c)]) cron := by
  refine .record rfl (fun _ => rfl) (by decide) rfl (by simp [entryFieldNames]) fun r hpos hheld => ?_
  simp only [entryFieldNames, List.zip_cons_cons, List.forall_mem_cons] at hheld
  exact ⟨cron, hheld.1.required_text, rfl⟩

theorem Schedule.reads_back (t : Schedule) : ReadsBack (σ := σ) read? value t := by
  have htags : t.value.tagFree :=
    Fields.tagFree_sequence.mpr (by simp [Fields.tagFree_value, Value.tagFree])
  refine ⟨t, ?_, rfl⟩
  rw [read?, readOneOf_of htags]
  obtain ⟨crons⟩ := t
  cases crons with
  | nil => rfl
  | cons cron rest =>
    obtain ⟨cs, hread, hvalues⟩ := readList_back (σ := Value) fun c (_ : c ∈ cron :: rest) => reads_back_cron c
    have hinj : ∀ a b : String, Fields.value [.always "cron" (.string a)] =
        Fields.value [.always "cron" (.string b)] → a = b := by
      intro a b h
      simpa [Fields.value, Fields.concat, Fields.always] using h
    have hcrons : cs = cron :: rest := (List.map_inj_right hinj).mp hvalues
    have htexts : readTexts? (value ⟨cron :: rest⟩) = none := rfl
    have hlist : readList? readCron? (value ⟨cron :: rest⟩) = some (cron :: rest) := hcrons ▸ hread
    simp [htexts, hlist]

/-! ## Inputs, secrets and outputs -/

theorem InputType.reads_back (t : InputType) : ReadsBack (σ := σ) read? value t := by
  refine ⟨t, ?_, rfl⟩
  rw [read?, value, OfValue.word]
  cases t <;> rfl

theorem Yaml.Value.isNull_rebuilt {v : Value} (h : v ≠ .null) : v.rebuilt.isNull = false := by
  cases v with
  | null => exact absurd rfl h
  | _ => rfl

theorem WorkflowInput.reads_back (i : WorkflowInput) (hnull : i.default ≠ some .null)
    (hplain : ∀ v ∈ i.default, v.rebuilt.plainTags) : ReadsBack (σ := σ) read? value i := by
  refine .record rfl (fun _ => rfl) (by decide) rfl (by simp [fieldNames]) fun r hpos hheld => ?_
  simp only [fieldNames, List.zip_cons_cons, List.forall_mem_cons] at hheld
  obtain ⟨hdescription, hrequired, htype, hdefault, hoptions, -⟩ := hheld
  obtain ⟨required, hrequired, hvalue⟩ :=
    hrequired.optional hpos (fun _ _ => rfl) fun b _ => ⟨b, OfValue.bool b, rfl⟩
  obtain ⟨type, htype, hvalue'⟩ := htype.optional hpos (fun _ _ => rfl) fun t _ => t.reads_back
  have hpresent : ∀ v ∈ i.default, v.rebuilt.isNull = false := fun v hv =>
    Value.isNull_rebuilt (by rintro rfl; exact hnull hv)
  obtain ⟨default, hdefault, hvalue''⟩ :=
    hdefault.optional hpos hpresent fun v hv => Value.reads_back (hplain v hv)
  refine ⟨⟨i.description, required, type, default, i.options⟩, ?_, by rw [value, hvalue, hvalue', hvalue'']; rfl⟩
  simp [hdescription.text hpos, hrequired, htype, hdefault, hoptions.texts]

theorem CallSecret.reads_back (c : CallSecret) : ReadsBack (σ := σ) read? value c := by
  refine .record rfl (fun _ => rfl) (by decide) rfl (by simp [fieldNames]) fun r hpos hheld => ?_
  simp only [fieldNames, List.zip_cons_cons, List.forall_mem_cons] at hheld
  obtain ⟨hdescription, hrequired, -⟩ := hheld
  obtain ⟨required, hrequired, hvalue⟩ :=
    hrequired.optional hpos (fun _ _ => rfl) fun b _ => ⟨b, OfValue.bool b, rfl⟩
  exact ⟨⟨c.description, required⟩, by simp [hdescription.text hpos, hrequired], by rw [value, hvalue]; rfl⟩

theorem CallOutput.reads_back (c : CallOutput) : ReadsBack (σ := σ) read? toValue c := by
  refine .record rfl (fun _ => rfl) (by decide) rfl (by simp [fieldNames]) fun r hpos hheld => ?_
  simp only [fieldNames, List.zip_cons_cons, List.forall_mem_cons] at hheld
  obtain ⟨hdescription, hvalue, -⟩ := hheld
  exact ⟨c, by simp [hdescription.text hpos, hvalue.required_text], rfl⟩

theorem WorkflowInput.plainTags_default {i : WorkflowInput} (h : i.value.tagFree) :
    ∀ v ∈ i.default, v.rebuilt.plainTags := by
  intro v hv
  rw [value, Fields.tagFree_value] at h
  exact Value.plainTags_of_tagFree _ (Fields.tagFreeEntries_ifSome.mp (h _ (.tail _ (.tail _ (.tail _ (.head _))))) v hv)

def NoNullDefault (inputs : Entries WorkflowInput) : Prop := ∀ i ∈ inputs.toList, i.2.default ≠ some .null

theorem WorkflowDispatch.reads_back (d : WorkflowDispatch) (hnull : NoNullDefault d.inputs)
    (htags : d.value.tagFree) : ReadsBack (σ := σ) read? value d := by
  have hinputs : ∀ i ∈ d.inputs.toList, i.2.value.tagFree :=
    Fields.tagFreeEntries_ifEntries.mp (Fields.tagFree_value.mp htags _ (.head _))
  refine .record rfl (fun _ => rfl) (by decide) rfl (by simp [fieldNames]) fun r hpos hheld => ?_
  simp only [fieldNames, List.zip_cons_cons, List.forall_mem_cons] at hheld
  obtain ⟨inputs, hread, hvalue⟩ := hheld.1.entries fun i hi =>
    i.2.reads_back (hnull i hi) (WorkflowInput.plainTags_default (hinputs i hi))
  exact ⟨⟨inputs⟩, by simp [hread], by rw [value, hvalue]; rfl⟩

theorem WorkflowCall.reads_back (c : WorkflowCall) (hnull : NoNullDefault c.inputs) (htags : c.value.tagFree) :
    ReadsBack (σ := σ) read? value c := by
  have hinputs : ∀ i ∈ c.inputs.toList, i.2.value.tagFree :=
    Fields.tagFreeEntries_ifEntries.mp (Fields.tagFree_value.mp htags _ (.head _))
  refine .record rfl (fun _ => rfl) (by decide) rfl (by simp [fieldNames]) fun r hpos hheld => ?_
  simp only [fieldNames, List.zip_cons_cons, List.forall_mem_cons] at hheld
  obtain ⟨hinputs', hsecrets, houtputs, -⟩ := hheld
  obtain ⟨inputs, hread, hvalue⟩ := hinputs'.entries fun i hi =>
    i.2.reads_back (hnull i hi) (WorkflowInput.plainTags_default (hinputs i hi))
  obtain ⟨secrets, hread', hvalue'⟩ := hsecrets.entries fun s _ => s.2.reads_back
  obtain ⟨outputs, hread'', hvalue''⟩ := houtputs.entries fun o _ => o.2.reads_back
  exact ⟨⟨inputs, secrets, outputs⟩, by simp [hread, hread', hread''], by rw [value, hvalue, hvalue', hvalue'']; rfl⟩

/-! ## All events -/

namespace Yaml.Holds

variable {α : Type} {found : List (String × σ)} {name : String} {read : σ → Option α} {value : α → Value}

theorem event [Inhabited α] {x : Option α} (h : Holds found name (.ifSome name value x))
    (hnull : ∀ a ∈ x, (value a).isNull = false) (hread : ∀ a ∈ x, ReadsBack read value a) :
    ∃ y, TriggerSpec.readEvent? name read found = some y ∧
      Fields.ifSome name value y = Fields.ifSome name value x := by
  cases x with
  | none => exact ⟨none, by rw [TriggerSpec.readEvent?, h.lookup_nil], rfl⟩
  | some a =>
    obtain ⟨b, hb, hvalue⟩ := hread a rfl
    refine ⟨some b, ?_, by rw [Fields.ifSome, Fields.ifSome, hvalue]⟩
    rw [TriggerSpec.readEvent?, lookup_always h]
    simp [readOptional?, OfValue.present (hnull a rfl), hb]

theorem schedule {x : Option Schedule} (h : Holds found "schedule" (.ifSome "schedule" Schedule.value x)) :
    ∃ y, TriggerSpec.readSchedule? found = some y ∧
      Fields.ifSome "schedule" Schedule.value y = Fields.ifSome "schedule" Schedule.value x := by
  cases x with
  | none => exact ⟨none, by rw [TriggerSpec.readSchedule?, h.lookup_nil], rfl⟩
  | some t =>
    obtain ⟨b, hb, hvalue⟩ := t.reads_back (σ := σ)
    refine ⟨some b, ?_, by rw [Fields.ifSome, Fields.ifSome, hvalue]⟩
    have hnull : t.value.isNull = false := rfl
    rw [TriggerSpec.readSchedule?, lookup_always h]
    simp [readOptional?, OfValue.present hnull, hb]

end Yaml.Holds

namespace TriggerSpec

def groups (t : TriggerSpec) : List Fields :=
  [.ifSome "push" PushTrigger.value t.push, .ifSome "pull_request" PullRequestTrigger.value t.pullRequest,
    .ifSome "pull_request_target" PullRequestTrigger.value t.pullRequestTarget,
    .ifSome "merge_group" TypesTrigger.value t.mergeGroup, .ifSome "schedule" Schedule.value t.schedule,
    .ifSome "workflow_dispatch" WorkflowDispatch.value t.workflowDispatch,
    .ifSome "workflow_call" WorkflowCall.value t.workflowCall,
    .ifSome "workflow_run" WorkflowRun.value t.workflowRun, .ifSome "release" TypesTrigger.value t.release,
    .ifSome "issues" TypesTrigger.value t.issues, .ifSome "issue_comment" TypesTrigger.value t.issueComment]

def others (es : List (String × Value)) : Fields := es.map fun e => (.string e.1, e.2.rebuilt)

theorem isGroup_groups (t : TriggerSpec) : ∀ s ∈ fieldNames.zip t.groups, Fields.IsGroup s.1 s.2 := by
  simp [fieldNames, groups]

def FreeNames (t : TriggerSpec) : Prop := ∀ e ∈ t.other.toList, e.1 ∉ fieldNames

theorem value_eq {t : TriggerSpec} (h : t.FreeNames) :
    t.value = .mapping (Fields.concat t.groups ++ others t.other.toList) := by
  have hdistinct : ((Fields.concat t.groups ++ others t.other.toList).map Prod.fst).Pairwise
      fun a b => Value.same a b = false := by
    have hnames : (fieldNames ++ t.other.toList.map Prod.fst).Nodup := by
      refine List.nodup_append.mpr ⟨by decide, t.other.nodup, fun a ha b hb hab => ?_⟩
      obtain ⟨e, he, rfl⟩ := List.mem_map.mp hb
      exact h e he (hab ▸ ha)
    have hstrings : ((fieldNames ++ t.other.toList.map Prod.fst).map Value.string).Pairwise
        fun a b => Value.same a b = false :=
      List.pairwise_map.mpr (hnames.imp fun hne => by simp [Value.same, hne])
    refine hstrings.sublist ?_
    rw [List.map_append, List.map_append]
    refine List.Sublist.append (Fields.keys_concat t.isGroup_groups) ?_
    simp [others, Function.comp_def]
  rw [value, ← Value.foldl_putEntry hdistinct, others, List.foldl_map]
  rfl

theorem sort_others {found : List (String × σ)} {other : Entries Value} {es : List (String × Value)}
    (hfree : ∀ e ∈ es, e.1 ∉ fieldNames) (htags : ∀ e ∈ es, e.2.rebuilt.tagFree) :
    sortEvents? found other (given (others es)) =
      some (found, (es.map fun e => (e.1, e.2.rebuilt)).foldl (fun m e => m.insert e.1 e.2) other) := by
  induction es generalizing other with
  | nil => rfl
  | cons e rest ih =>
    rw [List.forall_mem_cons] at hfree htags
    have hname : fieldNames.contains e.1 = false :=
      Bool.eq_false_iff.mpr fun h => hfree.1 (List.contains_iff_mem.mp h)
    have hsettings : (Source.buffer? (OfValue.of e.2.rebuilt : σ)).filter Value.wellFormed = some e.2.rebuilt := by
      rw [OfValue.buffer htags.1, Option.filter_some, if_pos (Value.wellFormed_rebuilt e.2)]
    change sortEvents? found other ((OfValue.of (.string e.1), OfValue.of e.2.rebuilt) :: given (others rest)) = _
    rw [sortEvents?, OfValue.text, List.map_cons, List.foldl_cons]
    simp only [Option.bind_eq_bind, Option.bind_some, hname, Bool.false_eq_true, ↓reduceIte, hsettings]
    exact ih hfree.2 htags.2

theorem reads_back (t : TriggerSpec) (hfree : t.FreeNames)
    (hdispatch : ∀ d ∈ t.workflowDispatch, NoNullDefault d.inputs)
    (hcall : ∀ c ∈ t.workflowCall, NoNullDefault c.inputs) (htags : t.value.tagFree) :
    ReadsBack (σ := σ) read? value t := by
  rw [value_eq hfree] at htags
  have hgroups : ∀ g ∈ t.groups, Value.tagFreeEntries g :=
    Fields.tagFree_value.mp (Fields.tagFreeEntries_append.mp htags).1
  have hothers : ∀ e ∈ t.other.toList, e.2.rebuilt.tagFree :=
    Fields.tagFree_ofEntries.mp (Fields.tagFreeEntries_append.mp htags).2
  have hsort (found : List (String × σ)) (name : String) (v : Value) (rest : List (σ × σ))
      (hname : name ∈ fieldNames) (hnew : found.lookup name = none) :
      sortEvents? found .empty ((OfValue.of (.string name), OfValue.of v) :: rest) =
        sortEvents? (found ++ [(name, OfValue.of v)]) .empty rest := by
    have hcontains : fieldNames.contains name = true := List.contains_iff_mem.mpr hname
    rw [sortEvents?, OfValue.text]
    simp only [Option.bind_eq_bind, Option.bind_some, hcontains, ↓reduceIte, hnew, Option.isSome_none,
      Bool.false_eq_true]
  have hnodup : ((fieldNames.zip t.groups).map Prod.fst).Nodup := by
    change fieldNames.Nodup
    decide
  have hsnd : (fieldNames.zip t.groups).map Prod.snd = t.groups := rfl
  obtain ⟨found, hfind, -, hholds⟩ := find_groups hsort [] t.isGroup_groups
    (fun s hs => (List.of_mem_zip hs).1) hnodup (fun _ _ => rfl)
  simp only [fieldNames, groups, List.zip_cons_cons, List.forall_mem_cons] at hholds
  obtain ⟨hpush, hpull, htarget, hmerge, hschedule, hdispatch', hcall', hrun, hrelease, hissues, hcomment, -⟩ := hholds
  obtain ⟨push, hpush, e₁⟩ := hpush.event (fun _ _ => rfl) fun x _ => x.reads_back
  obtain ⟨pull, hpull, e₂⟩ := hpull.event (fun _ _ => rfl) fun x _ => x.reads_back
  obtain ⟨target, htarget, e₃⟩ := htarget.event (fun _ _ => rfl) fun x _ => x.reads_back
  obtain ⟨merge, hmerge, e₄⟩ := hmerge.event (fun _ _ => rfl) fun x _ => x.reads_back
  obtain ⟨schedule, hschedule, e₅⟩ := hschedule.schedule
  have hdispatchTags : ∀ d ∈ t.workflowDispatch, d.value.tagFree :=
    Fields.tagFreeEntries_ifSome.mp (hgroups (.ifSome "workflow_dispatch" _ _) (by simp [groups]))
  have hcallTags : ∀ c ∈ t.workflowCall, c.value.tagFree :=
    Fields.tagFreeEntries_ifSome.mp (hgroups (.ifSome "workflow_call" _ _) (by simp [groups]))
  obtain ⟨dispatch, hdispatch', e₆⟩ :=
    hdispatch'.event (fun _ _ => rfl) fun x hx => x.reads_back (hdispatch x hx) (hdispatchTags x hx)
  obtain ⟨call, hcall', e₇⟩ :=
    hcall'.event (fun _ _ => rfl) fun x hx => x.reads_back (hcall x hx) (hcallTags x hx)
  obtain ⟨run, hrun, e₈⟩ := hrun.event (fun _ _ => rfl) fun x _ => x.reads_back
  obtain ⟨release, hrelease, e₉⟩ := hrelease.event (fun _ _ => rfl) fun x _ => x.reads_back
  obtain ⟨issues, hissues, e₁₀⟩ := hissues.event (fun _ _ => rfl) fun x _ => x.reads_back
  obtain ⟨comment, hcomment, e₁₁⟩ := hcomment.event (fun _ _ => rfl) fun x _ => x.reads_back
  have hother : (Entries.ofList (t.other.toList.map fun e => (e.1, e.2.rebuilt))).toList =
      t.other.toList.map fun e => (e.1, e.2.rebuilt) :=
    Entries.toList_ofList (by simpa [Function.comp_def] using t.other.nodup)
  let b : TriggerSpec := ⟨push, pull, target, merge, schedule, dispatch, call, run, release, issues, comment,
    .ofList (t.other.toList.map fun e => (e.1, e.2.rebuilt))⟩
  have hfree' : b.FreeNames := by
    intro e he
    rw [show b.other.toList = _ from hother] at he
    obtain ⟨e', he', rfl⟩ := List.mem_map.mp he
    exact hfree e' he'
  have hsame : others b.other.toList = others t.other.toList := by
    rw [show b.other.toList = _ from hother, others, others, List.map_map]
    refine List.map_congr_left fun e he => ?_
    have hrebuilt : e.2.rebuilt.rebuilt = e.2.rebuilt :=
      Value.rebuilt_eq_self _ (Value.wellFormed_rebuilt e.2) (Value.plainTags_of_tagFree _ (hothers e he))
    simp only [Function.comp_apply, hrebuilt]
  refine ⟨b, ?_, ?_⟩
  · rw [value_eq hfree, read?, OfValue.mapping, List.map_append]
    change (sortEvents? [] .empty (given (.concat t.groups) ++ given (others t.other.toList)) >>= _) = _
    rw [← hsnd, hfind, sort_others hfree hothers]
    simp [ofFound?, hpush, hpull, htarget, hmerge, hschedule, hdispatch', hcall', hrun, hrelease, hissues, hcomment,
      b, Entries.ofList]
  · rw [value_eq hfree, value_eq hfree', hsame]
    simp only [groups, b, e₁, e₂, e₃, e₄, e₅, e₆, e₇, e₈, e₉, e₁₀, e₁₁]

end TriggerSpec

theorem Triggers.reads_back (t : Triggers) (hfree : ∀ s, t = .spec s → s.FreeNames)
    (hdispatch : ∀ s, t = .spec s → ∀ d ∈ s.workflowDispatch, NoNullDefault d.inputs)
    (hcall : ∀ s, t = .spec s → ∀ c ∈ s.workflowCall, NoNullDefault c.inputs) (htags : t.value.tagFree) :
    ReadsBack (σ := σ) read? value t := by
  cases t with
  | event name => exact ⟨.event name, by rw [read?, readOneOf_of htags]; rfl, rfl⟩
  | events names =>
    have hread : readTexts? (ofTexts names) = some names := readTexts_back (σ := Value) names
    refine ⟨.events names, ?_, rfl⟩
    rw [read?, readOneOf_of htags]
    simp [value, hread, show (ofTexts names).text? = none from rfl]
  | spec s =>
    obtain ⟨b, hb, hvalue⟩ := s.reads_back (σ := Value) (hfree s rfl) (hdispatch s rfl) (hcall s rfl) htags
    refine ⟨.spec b, ?_, hvalue⟩
    have hread : TriggerSpec.read? s.value = some b := hb
    have htext : s.value.text? = none := rfl
    have htexts : readTexts? s.value = none := rfl
    rw [read?, readOneOf_of htags]
    simp [value, hread, htext, htexts]

end CiWorkflow

/-! ## Schedules in every form -/

namespace CiWorkflow.Schedule

open Yaml

inductive Form where
  | texts
  | records
  | wrapped

def Form.value (crons : List String) : Form → Value
  | .texts => ofTexts crons
  | .records => .sequence (crons.map fun cron => .mapping [(.string "cron", .string cron)])
  | .wrapped => .mapping [(.string "cron", ofTexts crons)]

theorem tagFree_value (crons : List String) (form : Form) : (form.value crons).tagFree := by
  cases form with
  | texts => exact Fields.tagFree_sequence.mpr (by simp [Value.tagFree])
  | records => exact Fields.tagFree_sequence.mpr (by simp [Value.tagFree, Value.tagFreeEntries])
  | wrapped =>
    have htexts : (ofTexts crons).tagFree := Fields.tagFree_sequence.mpr (by simp [Value.tagFree])
    simp [Form.value, Value.tagFree, Value.tagFreeEntries, htexts]

theorem read?_of_buffer {σ : Type} [Source σ] {s : σ} {v : Value} (h : Source.buffer? s = some v) :
    read? s = read? v := by
  rw [read?, read?, readOneOf?, readOneOf?, h]
  rfl

theorem read?_form (crons : List String) (form : Form) :
    ∃ t, read? (form.value crons) = some t ∧ t.value = Form.records.value crons := by
  have htexts : readTexts? (ofTexts crons : Value) = some crons := readTexts_back (σ := Value) crons
  cases form with
  | texts => exact ⟨⟨crons⟩, by simp [read?, readOneOf?, Form.value, Source.buffer?, htexts], rfl⟩
  | records => exact reads_back (σ := Value) ⟨crons⟩
  | wrapped =>
    have hwrapped : readWrapped? (.mapping [(.string "cron", ofTexts crons)]) = some crons := htexts
    have hlist : ∀ (read : Value → Option String) (es : List (Value × Value)),
        readList? read (.mapping es : Value) = none := fun _ _ => rfl
    exact ⟨⟨crons⟩, by simp [read?, readOneOf?, Form.value, Source.buffer?, readTexts?, hlist, hwrapped], rfl⟩

/-- The forms are read alike, as data and in a text, and the value of what is read is the list of records with
the times in their order. That value is read again as something with the same value. -/
theorem forms_agree (crons : List String) (form : Form) :
    Source.buffer? (form.value crons) = some (form.value crons) ∧
    (∀ n : Node, n.content? = some (form.value crons) → Source.buffer? n = some (form.value crons)) ∧
    ∀ {σ : Type} [Source σ] (s : σ), Source.buffer? s = some (form.value crons) →
      ∃ t, read? s = some t ∧ t.value = Form.records.value crons ∧
        ∀ {τ : Type} [Source τ] (s' : τ), Source.buffer? s' = some t.value →
          ∃ t', read? s' = some t' ∧ t'.value = t.value := by
  refine ⟨rfl, fun n hn => ?_, fun s hs => ?_⟩
  · simp [Source.buffer?, hn, tagFree_value]
  · obtain ⟨t, ht, hvalue⟩ := read?_form crons form
    refine ⟨t, (read?_of_buffer hs).trans ht, hvalue, fun s' hs' => ?_⟩
    obtain ⟨t', ht', hvalue'⟩ := read?_form crons .records
    exact ⟨t', (read?_of_buffer (hvalue ▸ hs')).trans ht', hvalue'.trans hvalue.symm⟩

def repeatedNode : Node :=
  .mapping none [(.scalar none .plain "cron",
    .sequence none [.scalar none .quoted "0 0 * * *", .scalar none .quoted "0 0 * * *"])]

theorem forms_agree_repeated :
    ∃ t, read? repeatedNode = some t ∧ t.value = Form.records.value ["0 0 * * *", "0 0 * * *"] := by
  obtain ⟨-, hnode, hread⟩ := forms_agree ["0 0 * * *", "0 0 * * *"] .wrapped
  have hcontent : repeatedNode.content? = some (Form.wrapped.value ["0 0 * * *", "0 0 * * *"]) := rfl
  obtain ⟨t, ht, hvalue, -⟩ := hread repeatedNode (hnode _ hcontent)
  exact ⟨t, ht, hvalue⟩

end CiWorkflow.Schedule
