import CiWorkflow.Proofs.CommandLine.Generate
import CiWorkflow.Proofs.Generate.Calls

set_option autoImplicit false

namespace CiWorkflow

open Log CiWorkflow.Task CiWorkflow.Tree

variable {α β ε : Type} {t : Tree} {sourceDir outputDir suffix : String}

theorem exists_mapM_error_iff {f : α → Except ε β} {as : List α} :
    (∃ e, as.mapM f = .error e) ↔ ∃ a ∈ as, ∃ e, f a = .error e := by
  induction as with
  | nil => exact ⟨nofun, nofun⟩
  | cons a as ih =>
    simp only [List.mapM_cons, List.mem_cons, exists_eq_or_imp, ← ih]
    cases f a with
    | error e => exact ⟨fun _ => .inl ⟨e, rfl⟩, fun _ => ⟨e, rfl⟩⟩
    | ok b =>
      cases as.mapM f with
      | error e => exact ⟨fun _ => .inr ⟨e, rfl⟩, fun _ => ⟨e, rfl⟩⟩
      | ok bs => exact ⟨nofun, by rintro (⟨_, ⟨⟩⟩ | ⟨_, ⟨⟩⟩)⟩

/-- Definitions are not found if their directory cannot be listed, or if one of them does not give a workflow. -/
theorem exists_definitions_error_iff :
    (∃ e, t.definitions sourceDir outputDir suffix = .error e) ↔
      (∃ fault, t.names sourceDir = .error fault) ∨
        ∃ names, t.names sourceDir = .ok names ∧
          ∃ name ∈ t.select sourceDir suffix names, ∃ e, t.workflow (Path.join sourceDir name) = .error e := by
  rw [Tree.definitions]
  cases t.names sourceDir with
  | error fault => exact ⟨fun _ => .inl ⟨fault, rfl⟩, fun _ => ⟨_, rfl⟩⟩
  | ok names =>
    change (∃ e, (t.select sourceDir suffix names).mapM
      (fun name => t.definition (Path.join sourceDir name) outputDir suffix) = .error e) ↔ _
    simp only [exists_mapM_error_iff, definition_eq_error_iff]
    constructor
    · exact fun h => .inr ⟨names, rfl, h⟩
    · rintro (⟨_, ⟨⟩⟩ | ⟨_, ⟨⟩, h⟩)
      exact h

namespace CommandLine

variable {o : GenerateOptions} {root directory : String} {vars : Variables} {s : GeneratorSettings}
  {ds : List Definition}

/-- A run does not get as far as handling definitions. -/
inductive CannotLoad (o : GenerateOptions) (root : String) (vars : Variables) (t : Tree) : Prop where
  | log (h : ¬ HasLog root vars t)
  | settings {e : Error} {t' : Tree} (h : Runs (o.settings root vars) t (.error e) t')
  | directory {s : GeneratorSettings} {t' : Tree} {fault : FileFault} (hs : Runs (o.settings root vars) t (.ok s) t')
      (h : t.names (s.sourcePath root) = .error fault)
  | definition {s : GeneratorSettings} {t' : Tree} {names : List String} {name : String} {e : Error}
      (hs : Runs (o.settings root vars) t (.ok s) t') (hnames : t.names (s.sourcePath root) = .ok names)
      (hname : name ∈ t.select (s.sourcePath root) s.suffix names)
      (h : t.workflow (Path.join (s.sourcePath root) name) = .error e)

theorem runs_settings_unchanged {r : Except Error GeneratorSettings} {t' : Tree}
    (h : Runs (o.settings root vars) t r t') : Runs (o.settings root vars) t r t := by
  obtain ⟨r', -, hsettings⟩ := exists_runs_settings o root vars t
  obtain ⟨rfl, rfl⟩ := h.unique (hsettings t rfl)
  exact h

theorem exists_runs_without_definitions {t' : Tree} (hs : Runs (o.settings root vars) t (.ok s) t')
    (h : ∃ e, t.definitions (s.sourcePath root) (s.outputPath root) s.suffix = .error e) :
    ∃ failure, Runs (o.perform root vars) t (.error failure) t := by
  obtain ⟨e, he⟩ := h
  have hscan := Definition.runs_scan t (s.sourcePath root) (s.outputPath root) s.suffix
  rw [he] at hscan
  exact ⟨_, (runs_because .error (runs_settings_unchanged hs)).bind
    ((Runs.report _ t).bind (runs_because (Failure.definitions (s.sourcePath root)) hscan).fail)⟩

theorem CannotLoad.exists_run (h : CannotLoad o (o.root.getD directory) vars t) :
    ∃ outcome : Outcome, runOn (.generate o) directory vars t = (outcome, t) ∧ outcome.status ≠ 0 := by
  by_cases hlog : HasLog (o.root.getD directory) vars t
  · have hfails : ∃ failure, Runs (o.perform (o.root.getD directory) vars) t (.error failure) t := by
      cases h with
      | log h => exact absurd hlog h
      | settings h => exact ⟨_, (runs_because Failure.error (runs_settings_unchanged h)).fail⟩
      | directory hs h => exact exists_runs_without_definitions hs (exists_definitions_error_iff.mpr (.inl ⟨_, h⟩))
      | definition hs hnames hname h =>
        exact exists_runs_without_definitions hs
          (exists_definitions_error_iff.mpr (.inr ⟨_, hnames, _, hname, _, h⟩))
    obtain ⟨failure, hruns⟩ := hfails
    obtain ⟨outcome, hrun, hstatus⟩ := runCommand_of_hasLog hlog hruns
    exact ⟨outcome, hrun, fun hok => nomatch hstatus.mp hok⟩
  · exact runCommand_of_not_hasLog hlog

theorem cannotLoad_or_finds (o : GenerateOptions) (root : String) (vars : Variables) (t : Tree) :
    CannotLoad o root vars t ∨ HasLog root vars t ∧ ∃ s ds, Finds o root vars t s ds := by
  by_cases hlog : HasLog root vars t
  · obtain ⟨r, -, hsettings⟩ := exists_runs_settings o root vars t
    have hsettings := hsettings t rfl
    cases r with
    | error e => exact .inl (.settings hsettings)
    | ok s =>
      cases hds : t.definitions (s.sourcePath root) (s.outputPath root) s.suffix with
      | ok ds => exact .inr ⟨hlog, s, ds, .of_definitions hsettings hds⟩
      | error e =>
        rcases exists_definitions_error_iff.mp ⟨e, hds⟩ with ⟨fault, h⟩ | ⟨names, hnames, name, hname, e, h⟩
        · exact .inl (.directory hsettings h)
        · exact .inl (.definition hsettings hnames hname h)
  · exact .inl (.log hlog)

theorem exists_run_check (ho : o.check = true) (directory : String) (vars : Variables) (t : Tree) :
    ∃ outcome : Outcome, runOn (.generate o) directory vars t = (outcome, t) := by
  rcases cannotLoad_or_finds o (o.root.getD directory) vars t with h | ⟨hlog, s, ds, h⟩
  · obtain ⟨outcome, hrun, -⟩ := h.exists_run
    exact ⟨outcome, hrun⟩
  · obtain ⟨lines, hrun⟩ := exists_lines_of_hasLog hlog (h.runs_check ho)
    exact ⟨_, hrun⟩

/-- Every definition gives a text, and its file can be read as text if it is there. -/
structure Comparable (s : GeneratorSettings) (ds : List Definition) (t : Tree) : Prop where
  renders : ∀ d ∈ ds, ∃ text, s.renderer.render d.workflow = .ok text
  reads : ∀ d ∈ ds, t.isPresent d.output = true → ∃ current, t.read d.output = .ok current

theorem Comparable.outdated (h : Comparable s ds t) :
    t.outdated s ds = .ok ((ds.filter (Definition.differs s t)).map Definition.output) :=
  outdated_of_isOutdated fun d hd => by
    obtain ⟨text, htext⟩ := h.renders d hd
    exact Definition.isOutdated_eq htext (h.reads d hd)

/-- A check that can compare everything tells exactly which files are out of date, in the order of their
definitions. -/
theorem Finds.exists_lines_check (h : Finds o (o.root.getD directory) vars t s ds) (ho : o.check = true)
    (hlog : HasLog (o.root.getD directory) vars t) (hc : Comparable s ds t) :
    ∃ lines, runOn (.generate o) directory vars t =
      (.ofResult lines (checked ((ds.filter (Definition.differs s t)).map Definition.output)), t) := by
  have hcheck := h.runs_check ho
  rw [hc.outdated] at hcheck
  exact exists_lines_of_hasLog hlog hcheck

/-- A project whose only definition says nothing about when it runs. -/
def brokenTree : Tree := projectTree [("ci.yml", "name: A\n")]

theorem standard_of_absent (h : t.isPresent (Path.join "/r" settingsFileName) = false) :
    Runs (plainOptions.settings "/r" noVariables) t (.ok .standard) t ∧ HasLog "/r" noVariables t := by
  obtain ⟨habsent, hstandard, hlog⟩ := sharedTree_settings
  obtain ⟨r, -, hsettings⟩ := exists_runs_settings plainOptions "/r" noVariables sharedTree
  obtain ⟨rfl, -⟩ := hstandard.unique (hsettings sharedTree rfl)
  have hcontent : t.content? (Path.join "/r" settingsFileName) =
      sharedTree.content? (Path.join "/r" settingsFileName) := by
    rw [Tree.content?, Tree.content?, h, habsent]
    rfl
  exact ⟨hsettings t hcontent, hlog.of_content hcontent⟩

theorem cannotLoad_brokenTree : CannotLoad plainOptions "/r" noVariables brokenTree := by
  have hsettings := (standard_of_absent (t := brokenTree) (by decide +kernel)).1
  have hnames : brokenTree.names (GeneratorSettings.standard.sourcePath "/r") = .ok ["ci.yml"] :=
    eq_ok_of_toOption (by decide +kernel)
  have hname : "ci.yml" ∈ brokenTree.select (GeneratorSettings.standard.sourcePath "/r")
      GeneratorSettings.standard.suffix ["ci.yml"] := by
    rw [Tree.select, List.mem_mergeSort]
    decide +kernel
  have hworkflow : (brokenTree.workflow
      (Path.join (GeneratorSettings.standard.sourcePath "/r") "ci.yml")).isOk = false := by decide +kernel
  cases h : brokenTree.workflow (Path.join (GeneratorSettings.standard.sourcePath "/r") "ci.yml") with
  | error e => exact .definition hsettings hnames hname h
  | ok w =>
    rw [h] at hworkflow
    cases hworkflow

/-- A definition of the project with two definitions gives a text, and its file is missing. -/
theorem missing_of_sharedDefinition {name : String} {d : Definition} (hd : sharedDefinition name = .ok d)
    (hname : name = "CI.yaml" ∨ name = "ci.yml") :
    (∃ text, GeneratorSettings.standard.renderer.render d.workflow = .ok text) ∧
      sharedTree.isPresent d.output = false := by
  rw [output_of_definition hd]
  have hrenders : (sharedDefinition name >>= fun d =>
      GeneratorSettings.standard.renderer.render d.workflow).isOk = true := by
    rcases hname with rfl | rfl <;> decide +kernel
  rw [hd] at hrenders
  refine ⟨exists_ok_of_isOk hrenders, ?_⟩
  rcases hname with rfl | rfl <;> decide +kernel

end CommandLine

end CiWorkflow
