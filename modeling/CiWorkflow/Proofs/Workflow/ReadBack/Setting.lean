import CiWorkflow.Proofs.Yaml.ReadBack
import CiWorkflow.Workflow.Document

set_option autoImplicit false

namespace CiWorkflow

open Yaml

variable {σ : Type} [Source σ] [OfValue σ]

theorem Yaml.Value.reads_back {v : Value} (h : v.rebuilt.plainTags) :
    ReadsBack (σ := σ) Source.value? rebuilt v :=
  ⟨v.rebuilt, OfValue.value (wellFormed_rebuilt v) h, rebuilt_eq_self _ (wellFormed_rebuilt v) h⟩

theorem Yaml.Value.word_ofEntries {α : Type} {value : α → Value} {es : Entries α} {words : List String}
    (h : ∀ a, (value a).isNull = false) : word? words (ofEntries value es) = none := by
  rw [ofEntries]
  rcases es.toList with _ | ⟨e, _ | ⟨f, rest⟩⟩
  · rfl
  · have hnull := h e.2
    simp only [List.map_cons, List.map_nil, word?]
    cases hv : value e.2 <;> simp_all [isNull]
  · simp [word?]

/-! ## Settings -/

theorem Flag.isNull_value (f : Flag) : f.value.isNull = false := by cases f <;> rfl

theorem Flag.reads_back (f : Flag) : ReadsBack (σ := σ) read? value f := by
  cases f with
  | bool b => exact ⟨.bool b, by rw [read?, readOneOf_of rfl]; rfl, rfl⟩
  | text s => exact ⟨.text s, by rw [read?, readOneOf_of rfl]; rfl, rfl⟩

theorem readNatural_of_lt {bound n : Nat} (h : n < bound) : readNatural? bound (.int n) = some n := if_pos h

theorem Count.isNull_value (c : Count) : c.value.isNull = false := by cases c <;> rfl

theorem Count.reads_back (c : Count) : ReadsBack (σ := σ) read? value c := by
  cases c with
  | word n =>
    refine ⟨.word n, ?_, rfl⟩
    rw [read?, value, readOneOf_of rfl]
    simp [readNatural_of_lt n.toNat_lt_size, number]
  | text s => exact ⟨.text s, by rw [read?, readOneOf_of rfl]; rfl, rfl⟩

theorem PermissionLevel.reads_back (l : PermissionLevel) : ReadsBack (σ := σ) read? value l := by
  refine ⟨l, ?_, rfl⟩
  rw [read?, value, OfValue.word]
  cases l <;> rfl

theorem Permissions.isNull_value (p : Permissions) : p.value.isNull = false := by cases p <;> rfl

theorem Permissions.reads_back (p : Permissions) : ReadsBack (σ := σ) read? value p := by
  rcases p with _ | _ | levels
  · exact ⟨.readAll, by rw [read?, readOneOf_of rfl]; rfl, rfl⟩
  · exact ⟨.writeAll, by rw [read?, readOneOf_of rfl]; rfl, rfl⟩
  · obtain ⟨fs, hfs, hvalues⟩ := readEntries_back (σ := Value) levels fun e _ => e.2.reads_back
    have hread : readEntries? PermissionLevel.read? (ofEntries PermissionLevel.value levels) = some fs := hfs
    have hword : readWord? (ofEntries PermissionLevel.value levels) = none := by
      rw [readWord?, Value.word_ofEntries fun l => rfl]
    refine ⟨.scoped fs, ?_, ofEntries_congr hvalues⟩
    rw [read?, value, readOneOf_of (Fields.tagFree_ofEntries.mpr fun _ _ => rfl)]
    simp [hword, hread]

theorem ConcurrencySpec.reads_back (c : ConcurrencySpec) : ReadsBack (σ := σ) read? value c := by
  refine .record rfl (fun _ => rfl) (by decide) rfl (by simp [fieldNames]) fun r hpos hheld => ?_
  simp only [fieldNames, List.zip_cons_cons, List.forall_mem_cons] at hheld
  obtain ⟨hgroup, hcancel, -⟩ := hheld
  obtain ⟨cancel, hcancel, hvalue⟩ := hcancel.optional hpos (fun f _ => f.isNull_value) fun f _ => f.reads_back
  exact ⟨⟨c.group, cancel⟩, by simp [hgroup.required_text, hcancel], by rw [value, hvalue]; rfl⟩

theorem Concurrency.isNull_value (c : Concurrency) : c.value.isNull = false := by cases c <;> rfl

theorem Concurrency.tagFree_value (c : Concurrency) : c.value.tagFree := by
  cases c with
  | group name => rfl
  | spec s =>
    have hcancel : ∀ f ∈ s.cancelInProgress, f.value.tagFree := fun f _ => by cases f <;> rfl
    simpa [value, ConcurrencySpec.value, Fields.tagFree_value, Value.tagFree] using
      Fields.tagFreeEntries_ifSome.mpr hcancel

theorem Concurrency.reads_back (c : Concurrency) : ReadsBack (σ := σ) read? value c := by
  cases c with
  | group name => exact ⟨.group name, readOneOf_text name, rfl⟩
  | spec s =>
    obtain ⟨b, hb, hvalue⟩ := s.reads_back (σ := Value)
    exact ⟨.spec b, readOneOf_other (tagFree_value (.spec s)) rfl hb, hvalue⟩

theorem RunDefaults.reads_back (d : RunDefaults) : ReadsBack (σ := σ) read? value d := by
  refine .record rfl (fun _ => rfl) (by decide) rfl (by simp [fieldNames]) fun r hpos hheld => ?_
  simp only [fieldNames, List.zip_cons_cons, List.forall_mem_cons] at hheld
  obtain ⟨hshell, hdirectory, -⟩ := hheld
  exact ⟨d, by simp [hshell.text hpos, hdirectory.text hpos], rfl⟩

theorem Defaults.reads_back (d : Defaults) : ReadsBack (σ := σ) read? value d := by
  refine .record rfl (fun _ => rfl) (by decide) rfl (by simp [fieldNames]) fun r hpos hheld => ?_
  simp only [fieldNames, List.zip_cons_cons, List.forall_mem_cons] at hheld
  obtain ⟨hrun, -⟩ := hheld
  obtain ⟨run, hrun, hvalue⟩ := hrun.optional hpos (fun _ _ => rfl) fun d _ => d.reads_back
  exact ⟨⟨run⟩, by simp [hrun], by rw [value, hvalue]; rfl⟩

theorem EnvironmentSpec.reads_back (e : EnvironmentSpec) : ReadsBack (σ := σ) read? value e := by
  refine .record rfl (fun _ => rfl) (by decide) rfl (by simp [fieldNames]) fun r hpos hheld => ?_
  simp only [fieldNames, List.zip_cons_cons, List.forall_mem_cons] at hheld
  obtain ⟨hname, hurl, -⟩ := hheld
  exact ⟨e, by simp [hname.required_text, hurl.text hpos], rfl⟩

theorem Environment.isNull_value (e : Environment) : e.value.isNull = false := by cases e <;> rfl

theorem Environment.reads_back (e : Environment) : ReadsBack (σ := σ) read? value e := by
  cases e with
  | name s => exact ⟨.name s, readOneOf_text s, rfl⟩
  | spec e =>
    have htags : e.value.tagFree := by simp [EnvironmentSpec.value, Fields.tagFree_value, Value.tagFree]
    obtain ⟨b, hb, hvalue⟩ := e.reads_back (σ := Value)
    exact ⟨.spec b, readOneOf_other htags rfl hb, hvalue⟩

theorem Needs.isNull_value (n : Needs) : n.value.isNull = false := by cases n <;> rfl

theorem Needs.reads_back (n : Needs) : ReadsBack (σ := σ) read? value n := by
  cases n with
  | one name => exact ⟨.one name, readOneOf_text name, rfl⟩
  | many names =>
    exact ⟨.many names, readOneOf_other (Fields.tagFree_ofTexts names) rfl (readTexts_back names), rfl⟩

theorem Secrets.isNull_value (s : Secrets) : s.value.isNull = false := by cases s <;> rfl

theorem Secrets.reads_back (s : Secrets) : ReadsBack (σ := σ) read? value s := by
  cases s with
  | inherit => exact ⟨.inherit, by rw [read?, readOneOf_of rfl]; rfl, rfl⟩
  | given es =>
    have hread : readTextEntries? (ofEntries .string es) = some es := readTextEntries_back (σ := Value) es
    refine ⟨.given es, ?_, rfl⟩
    have hword : Value.word? ["inherit"] (ofEntries .string es) = none := Value.word_ofEntries fun _ => rfl
    rw [read?, value, readOneOf_of (Fields.tagFree_ofEntries.mpr fun _ _ => rfl)]
    simp [hword, hread]

theorem Matrix.isNull_value (m : Matrix) : m.value.isNull = false := by cases m <;> rfl

theorem Matrix.reads_back (m : Matrix) (htags : m.value.tagFree) : ReadsBack (σ := σ) read? value m := by
  cases m with
  | text s => exact ⟨.text s, readOneOf_text s, rfl⟩
  | axes es =>
    have hplain : ∀ e ∈ es.toList, e.2.rebuilt.plainTags := fun e he =>
      Value.plainTags_of_tagFree _ (Fields.tagFree_ofEntries.mp htags e he)
    obtain ⟨fs, hfs, hvalues⟩ :=
      readEntries_back (σ := Value) es fun e he => Value.reads_back (hplain e he)
    exact ⟨.axes fs, readOneOf_other htags rfl hfs, ofEntries_congr hvalues⟩

theorem Strategy.reads_back (s : Strategy) (htags : ∀ m ∈ s.matrix, m.value.tagFree) :
    ReadsBack (σ := σ) read? value s := by
  refine .record rfl (fun _ => rfl) (by decide) rfl (by simp [fieldNames]) fun r hpos hheld => ?_
  simp only [fieldNames, List.zip_cons_cons, List.forall_mem_cons] at hheld
  obtain ⟨hmatrix, hfail, hmax, -⟩ := hheld
  obtain ⟨matrix, hmatrix, hvalue⟩ :=
    hmatrix.optional hpos (fun m _ => m.isNull_value) fun m hm => m.reads_back (htags m hm)
  obtain ⟨failFast, hfail, hvalue'⟩ := hfail.optional hpos (fun f _ => f.isNull_value) fun f _ => f.reads_back
  obtain ⟨maxParallel, hmax, hvalue''⟩ := hmax.optional hpos (fun c _ => c.isNull_value) fun c _ => c.reads_back
  exact ⟨⟨matrix, failFast, maxParallel⟩, by simp [hmatrix, hfail, hmax],
    by rw [value, hvalue, hvalue', hvalue'']; rfl⟩

/-! ## Containers -/

theorem Credentials.reads_back (c : Credentials) : ReadsBack (σ := σ) read? value c := by
  refine .record rfl (fun _ => rfl) (by decide) rfl (by simp [fieldNames]) fun r hpos hheld => ?_
  simp only [fieldNames, List.zip_cons_cons, List.forall_mem_cons] at hheld
  obtain ⟨husername, hpassword, -⟩ := hheld
  exact ⟨c, by simp [husername.required_text, hpassword.required_text], rfl⟩

theorem Port.reads_back (p : Port) : ReadsBack (σ := σ) read? value p := by
  cases p with
  | word n =>
    refine ⟨.word n, ?_, rfl⟩
    rw [read?, value, readOneOf_of rfl]
    simp [readNatural_of_lt n.toNat_lt_size, number]
  | mapping s => exact ⟨.mapping s, by rw [read?, readOneOf_of rfl]; rfl, rfl⟩

theorem ContainerSpec.reads_back (c : ContainerSpec) : ReadsBack (σ := σ) read? value c := by
  refine .record rfl (fun _ => rfl) (by decide) rfl (by simp [fieldNames]) fun r hpos hheld => ?_
  simp only [fieldNames, List.zip_cons_cons, List.forall_mem_cons] at hheld
  obtain ⟨himage, hcredentials, henv, hports, hvolumes, hoptions, -⟩ := hheld
  obtain ⟨credentials, hcredentials, hvalue⟩ :=
    hcredentials.optional hpos (fun _ _ => rfl) fun c _ => c.reads_back
  obtain ⟨ports, hports, hvalue'⟩ := hports.items fun p _ => p.reads_back
  refine ⟨⟨c.image, credentials, c.env, ports, c.volumes, c.options⟩, ?_, by rw [value, hvalue, hvalue']; rfl⟩
  simp [himage.required_text, hcredentials, henv.textEntries, hports, hvolumes.texts, hoptions.text hpos]

theorem Container.isNull_value (c : Container) : c.value.isNull = false := by cases c <;> rfl

theorem Container.reads_back (c : Container) : ReadsBack (σ := σ) read? value c := by
  cases c with
  | image s => exact ⟨.image s, readOneOf_text s, rfl⟩
  | spec c =>
    have hcredentials : ∀ k ∈ c.credentials, k.value.tagFree := fun k _ => by
      simp [Credentials.value, Fields.tagFree_value, Value.tagFree]
    have hports : (Value.sequence (c.ports.map Port.value)).tagFree := by
      rw [Fields.tagFree_sequence, List.forall_mem_map]
      intro p _
      cases p <;> rfl
    have htags : c.value.tagFree := by
      simpa [ContainerSpec.value, Fields.tagFree_value, Value.tagFree, Fields.tagFreeEntries_ifSome,
        Fields.tagFreeEntries_ifEntries, Fields.tagFreeEntries_ite hports] using hcredentials
    obtain ⟨b, hb, hvalue⟩ := c.reads_back (σ := Value)
    exact ⟨.spec b, readOneOf_other htags rfl hb, hvalue⟩

end CiWorkflow
