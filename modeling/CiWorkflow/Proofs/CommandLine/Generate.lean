import CiWorkflow.Proofs.Generate.Output
import CiWorkflow.Proofs.Generate.Settings

set_option autoImplicit false

namespace CiWorkflow.CommandLine

open Log CiWorkflow.Task CiWorkflow.Tree

variable {o : GenerateOptions} {root directory : String} {vars : Variables} {t t' : Tree} {s : GeneratorSettings}
  {ds : List Definition}

theorem runs_because {α : Type} {x : Task Error (StateM Tree) α} {r : Except Error α} (f : Error → Failure)
    (h : Runs x t r t') : Runs (because f x) t (r.mapError f) t' := h.adapt f

/-- What a run finds in a tree: its settings, and the definitions in its directory. -/
structure Finds (o : GenerateOptions) (root : String) (vars : Variables) (t : Tree) (s : GeneratorSettings)
    (ds : List Definition) : Prop where
  settings : Runs (o.settings root vars) t (.ok s) t
  scan : Runs (Definition.scan (s.sourcePath root) (s.outputPath root) s.suffix) t (.ok ds) t

namespace Finds

theorem of_definitions (hsettings : Runs (o.settings root vars) t (.ok s) t)
    (hds : t.definitions (s.sourcePath root) (s.outputPath root) s.suffix = .ok ds) : Finds o root vars t s ds :=
  ⟨hsettings, hds ▸ Definition.runs_scan t _ _ _⟩

theorem fault (h : Finds o root vars t s ds) : s.fault? = none := by
  obtain ⟨r, hfault, hsettings⟩ := exists_runs_settings o root vars t
  exact hfault s ((hsettings t rfl).unique h.settings).1

theorem definitions (h : Finds o root vars t s ds) :
    t.definitions (s.sourcePath root) (s.outputPath root) s.suffix = .ok ds :=
  ((Definition.runs_scan t _ _ _).unique h.scan).1

end Finds

structure Generates (o : GenerateOptions) (root : String) (vars : Variables) (t : Tree) (s : GeneratorSettings)
    (ds : List Definition) (t' : Tree) : Prop where
  settings : ∀ u : Tree,
    u.content? (Path.join root settingsFileName) = t.content? (Path.join root settingsFileName) →
      Runs (o.settings root vars) u (.ok s) u
  suffix : IsSuffix s.suffix
  definitions : t.definitions (s.sourcePath root) (s.outputPath root) s.suffix = .ok ds
  grows : Grows (IsOutputPlace s.suffix) t t'
  written : Written s ds t'

theorem exists_writesTo (hsuffix : IsSuffix s.suffix)
    (hds : t.definitions (s.sourcePath root) (s.outputPath root) s.suffix = .ok ds) :
    ∀ d ∈ ds, ∃ name, d.WritesTo (s.outputPath root) name := by
  intro d hd
  obtain ⟨source, hout⟩ := output_of_mem_definitions hds hd
  exact ⟨_, hout, hsuffix.isName_outputFileName source⟩

theorem isOutputPlace_of_endsAtOutput (hsuffix : IsSuffix s.suffix)
    (hds : t.definitions (s.sourcePath root) (s.outputPath root) s.suffix = .ok ds) {p : Place}
    (hp : EndsAtOutput (s.outputPath root) ds p) : IsOutputPlace s.suffix p := by
  obtain ⟨d, hd, name, hname, hends⟩ := hp
  obtain ⟨source, hout⟩ := output_of_mem_definitions hds hd
  rw [hname.output] at hout
  rw [join_inj hname.isName (hsuffix.isName_outputFileName source) hout] at hends
  exact ⟨_, hends, suffix_outputFileName _ _⟩

theorem Finds.runs_perform {r : Except Error (List Unit)} (h : Finds o root vars t s ds) (ho : o.check = false)
    (hwrite : Runs (ds.mapM (writeDefinition s)) t r t') :
    Runs (o.perform root vars) t (r.mapError .error >>= fun _ => .ok ()) t' := by
  have hall : Runs (handleAll (writeDefinition s) ds) t r t' :=
    hwrite.pass fun us => (Runs.report _ t').bind (.pure us t')
  have hall := runs_because .error hall
  rw [GenerateOptions.perform, ho]
  refine (runs_because .error h.settings).bind ((Runs.report _ t).bind ((runs_because _ h.scan).bind ?_))
  cases r with
  | error e => exact hall.fail
  | ok us => exact hall.bind (.pure () t')

theorem exists_runs_perform (ho : o.check = false) (root : String) (vars : Variables) (t : Tree) :
    ∃ r t', Runs (o.perform root vars) t r t' ∧ (r = .ok () → ∃ s ds, Generates o root vars t s ds t') := by
  obtain ⟨r, hfault, hsettings⟩ := exists_runs_settings o root vars t
  cases r with
  | error e => exact ⟨.error (.error e), t, (runs_because .error (hsettings t rfl)).fail, nofun⟩
  | ok s =>
    have hsuffix := IsSuffix.of_fault (hfault s rfl)
    cases hds : t.definitions (s.sourcePath root) (s.outputPath root) s.suffix with
    | error e =>
      have hscan := Definition.runs_scan t (s.sourcePath root) (s.outputPath root) s.suffix
      rw [hds] at hscan
      exact ⟨.error (.definitions (s.sourcePath root) e), t, (runs_because .error (hsettings t rfl)).bind
        ((Runs.report _ t).bind (runs_because _ hscan).fail), nofun⟩
    | ok ds =>
      obtain ⟨r, t', hwrite, hgrows, hwritten⟩ := exists_runs_writeAll s (exists_writesTo hsuffix hds) t
      have hgrows := hgrows.mono fun p hp => isOutputPlace_of_endsAtOutput hsuffix hds hp
      refine ⟨_, t', (Finds.of_definitions (hsettings t rfl) hds).runs_perform ho hwrite, fun hr => ?_⟩
      cases r with
      | error e => cases hr
      | ok us => exact ⟨s, ds, hsettings, hsuffix, hds, hgrows, hwritten ⟨us, rfl⟩⟩

def GenerateOptions.forCheck (o : GenerateOptions) : GenerateOptions := { o with check := true }

theorem Finds.forCheck (h : Finds o root vars t s ds) : Finds o.forCheck root vars t s ds := ⟨h.settings, h.scan⟩

theorem runs_outdated (s : GeneratorSettings) (ds : List Definition) (t : Tree) :
    Runs (GenerateOptions.outdated s ds) t (t.outdated s ds) t :=
  ((runs_checkAll t s ds).pass fun found => (Runs.report _ t).bind (.pure found t)).read fun _ _ => .pure _ t

/-- What a check comes to: it fails with the files that are out of date, if there are any. -/
def checked (paths : List String) : Except Failure Unit :=
  if paths.isEmpty then .ok () else .error (.outOfDate paths)

theorem checked_eq_ok_iff {paths : List String} : checked paths = .ok () ↔ paths = [] := by
  cases paths <;> simp [checked]

/-- A check compares all definitions with their files, and leaves the tree alone. -/
theorem Finds.runs_check (h : Finds o root vars t s ds) (ho : o.check = true) :
    Runs (o.perform root vars) t ((t.outdated s ds).mapError .error >>= checked) t := by
  rw [GenerateOptions.perform, ho]
  refine (runs_because .error h.settings).bind ((Runs.report _ t).bind ((runs_because _ h.scan).bind ?_))
  refine (runs_because .error (runs_outdated s ds t)).read fun paths _ => ?_
  cases paths with
  | nil => exact .pure () t
  | cons path paths => exact .throw _ t

namespace Generates

variable (h : Generates o root vars t s ds t')

include h

theorem finds : Finds o root vars t s ds := .of_definitions (h.settings t rfl) h.definitions

variable (ht : t.IsNamed)
  (hpresent : t'.isPresent (Path.join root settingsFileName) = t.isPresent (Path.join root settingsFileName))

include ht hpresent

theorem finds_again : Finds o root vars t' s ds :=
  .of_definitions (h.settings t' (content_of_grows h.grows h.suffix hpresent))
    (definitions_of_grows h.grows ht h.definitions)

/-- A check behind a run finds the settings and the definitions of the run, and succeeds if the definitions
agree. -/
theorem exists_runs_check : ∃ r, Runs (o.forCheck.perform root vars) t' r t' ∧ (r = .ok () ↔ Agree s ds) := by
  have hcheck := (h.finds_again ht hpresent).forCheck.runs_check rfl
  rw [h.written.outdated] at hcheck
  exact ⟨_, hcheck, checked_eq_ok_iff.trans h.written.none_differs_iff⟩

end Generates

/-- What a command shows on a tree, and the tree it leaves. -/
def runOn (c : Command) (directory : String) (vars : Variables) (t : Tree) : Outcome × Tree :=
  (runCommand c directory vars : StateM Tree Outcome).run t

theorem run_bind_eq {α β : Type} {x : StateM Tree α} {f : α → StateM Tree β} {a : α} (h : x.run t = (a, t')) :
    (x >>= f).run t = (f a).run t' := by
  rw [StateT.run_bind, h]
  rfl

def HasLog (root : String) (vars : Variables) (t : Tree) : Prop :=
  ∃ log filter, (LogSettings.load (some root) vars : StateM Tree (Except LogFault LogSettings)).run t = (.ok log, t) ∧
    log.filter vars = .ok filter

def Outcome.ofResult (lines : List String) : Except Failure Unit → Outcome
  | .ok _ => .ofOutput lines ""
  | .error failure => .ofFailure lines failure

theorem exists_lines_of_hasLog {r : Except Failure Unit} (hlog : HasLog (o.root.getD directory) vars t)
    (h : Runs (o.perform (o.root.getD directory) vars) t r t') :
    ∃ lines, runOn (.generate o) directory vars t = (.ofResult lines r, t') := by
  obtain ⟨log, filter, hload, hfilter⟩ := hlog
  have hperform : Runs ((Command.generate o).perform (o.root.getD directory) vars) t (r.map fun _ => "") t' := by
    cases r with
    | error e => exact h.fail
    | ok _ => exact h.bind (.pure "" t')
  obtain ⟨events, hrun⟩ := hperform.run_eq
  rw [runOn, runCommand, Command.root, run_bind_eq hload]
  simp only [hfilter]
  rw [run_bind_eq hrun]
  cases r <;> exact ⟨_, rfl⟩

theorem runCommand_of_hasLog {r : Except Failure Unit} (hlog : HasLog (o.root.getD directory) vars t)
    (h : Runs (o.perform (o.root.getD directory) vars) t r t') :
    ∃ outcome : Outcome, runOn (.generate o) directory vars t = (outcome, t') ∧
      (outcome.status = 0 ↔ r = .ok ()) := by
  obtain ⟨lines, hrun⟩ := exists_lines_of_hasLog hlog h
  refine ⟨_, hrun, ?_⟩
  cases r <;> simp [Outcome.ofResult, Outcome.ofOutput, Outcome.ofFailure]

theorem runCommand_of_not_hasLog (hlog : ¬ HasLog (o.root.getD directory) vars t) :
    ∃ outcome : Outcome, runOn (.generate o) directory vars t = (outcome, t) ∧
      outcome.status ≠ 0 := by
  obtain ⟨r, hload⟩ : ∃ r, (LogSettings.load (some (o.root.getD directory)) vars :
      StateM Tree (Except LogFault LogSettings)).run t = (r, t) :=
    ⟨_, DependsOn.logSettings _ vars t t rfl⟩
  rw [runOn, runCommand, Command.root, run_bind_eq hload]
  cases r with
  | error fault => exact ⟨_, rfl, by simp [Outcome.ofFailure]⟩
  | ok log =>
    cases hfilter : log.filter vars with
    | error fault => exact ⟨.ofFailure [] (.log fault), by simp only [hfilter]; rfl, by simp [Outcome.ofFailure]⟩
    | ok filter => exact absurd ⟨log, filter, hload, hfilter⟩ hlog

theorem HasLog.of_content (h : HasLog root vars t)
    (hcontent : t'.content? (Path.join root settingsFileName) = t.content? (Path.join root settingsFileName)) :
    HasLog root vars t' := by
  obtain ⟨log, filter, hload, hfilter⟩ := h
  refine ⟨log, filter, ?_, hfilter⟩
  rw [DependsOn.logSettings root vars t t' hcontent, hload]

/-- After a run that succeeds each file holds the text of its definition exactly if definitions that share a
file give the same text; and as long as the settings file has not come into being, a check that follows
changes nothing and succeeds exactly then. -/
theorem generate_then_check {outcome : Outcome} (ht : t.IsNamed) (ho : o.check = false)
    (hrun : runOn (.generate o) directory vars t = (outcome, t'))
    (hok : outcome.status = 0) :
    ∃ s ds, Runs (o.settings (o.root.getD directory) vars) t (.ok s) t ∧
      Runs (Definition.scan (s.sourcePath (o.root.getD directory)) (s.outputPath (o.root.getD directory)) s.suffix) t
        (.ok ds) t ∧
      ((∀ d ∈ ds, d.IsCurrent s t') ↔ Agree s ds) ∧
      (t'.isPresent (Path.join (o.root.getD directory) settingsFileName) =
          t.isPresent (Path.join (o.root.getD directory) settingsFileName) →
        ∃ report : Outcome,
          runOn (.generate o.forCheck) directory vars t' = (report, t') ∧ (report.status = 0 ↔ Agree s ds)) := by
  by_cases hlog : HasLog (o.root.getD directory) vars t
  · obtain ⟨r, u, hruns, hgenerates⟩ := exists_runs_perform ho (o.root.getD directory) vars t
    obtain ⟨outcome', hrun', hstatus⟩ := runCommand_of_hasLog hlog hruns
    obtain ⟨rfl, rfl⟩ := Prod.mk.inj (hrun.symm.trans hrun')
    obtain ⟨s, ds, h⟩ := hgenerates (hstatus.mp hok)
    have hscan := Definition.runs_scan t (s.sourcePath (o.root.getD directory)) (s.outputPath (o.root.getD directory))
      s.suffix
    rw [h.definitions] at hscan
    refine ⟨s, ds, h.settings t rfl, hscan, h.written.all_isCurrent_iff, fun hpresent => ?_⟩
    obtain ⟨r, hcheck, hagree⟩ := h.exists_runs_check ht hpresent
    have hlog' : HasLog (o.forCheck.root.getD directory) vars t' :=
      hlog.of_content (content_of_grows h.grows h.suffix hpresent)
    obtain ⟨report, hreport, hstatus⟩ := runCommand_of_hasLog hlog' hcheck
    exact ⟨report, hreport, hstatus.trans hagree⟩
  · obtain ⟨outcome', hrun', hstatus⟩ := runCommand_of_not_hasLog hlog
    obtain ⟨rfl, rfl⟩ := Prod.mk.inj (hrun.symm.trans hrun')
    exact absurd hok hstatus

def projectTree (definitions : List (String × String)) : Tree where
  entries := (["r"], .directory) :: (["r", ".github"], .directory) :: (["r", ".github", "workflows-src"], .directory) ::
    definitions.map fun d => (["r", ".github", "workflows-src", d.1], .file d.2.toUTF8)
  base := ["r"]

def emptyDefinition (name : String) : String := "name: " ++ name ++ "\non: b\n"

def plainOptions : GenerateOptions := ⟨none, none, none, none, false⟩

def noVariables : Variables := fun _ => none

theorem isNamed_projectTree {definitions : List (String × String)} (h : ∀ d ∈ definitions, '/' ∉ d.1.toList) :
    (projectTree definitions).IsNamed := by
  refine ⟨by simp [projectTree, HasNames], ?_⟩
  have hdirs : ∀ p ∈ [["r"], ["r", ".github"], ["r", ".github", "workflows-src"]], HasNames p := by
    simp [HasNames]
  intro p hp
  obtain hp | hp := List.mem_append.mp (show p ∈ [["r"], ["r", ".github"], ["r", ".github", "workflows-src"]] ++
    (definitions.map fun d => (["r", ".github", "workflows-src", d.1], TreeEntry.file d.2.toUTF8)).map Prod.fst from hp)
  · exact hdirs p hp
  · obtain ⟨e, he, rfl⟩ := List.mem_map.mp hp
    obtain ⟨d, hd, rfl⟩ := List.mem_map.mp he
    simpa [HasNames] using h d hd

def singleTree : Tree := projectTree [("ci.yml", emptyDefinition "A")]

theorem generate_then_check_one_definition :
    singleTree.IsNamed ∧ plainOptions.check = false ∧ ∃ (outcome : Outcome) (t' : Tree), outcome.status = 0 ∧
      runOn (.generate plainOptions) "/r" noVariables singleTree = (outcome, t') ∧
      ∃ s ds, Runs (Definition.scan (s.sourcePath "/r") (s.outputPath "/r") s.suffix) singleTree (.ok ds) singleTree ∧
        ((∀ d ∈ ds, d.IsCurrent s t') ↔ Agree s ds) ∧
        ∃ report : Outcome, runOn (.generate plainOptions.forCheck) "/r" noVariables t' = (report, t') ∧
          (report.status = 0 ↔ Agree s ds) := by
  have hnamed : singleTree.IsNamed := isNamed_projectTree (by simp)
  obtain ⟨outcome, t', hrun⟩ : ∃ (outcome : Outcome) (t' : Tree),
      runOn (.generate plainOptions) "/r" noVariables singleTree = (outcome, t') := ⟨_, _, rfl⟩
  have hresult : (fun p : Outcome × Tree => p.1.status = 0 ∧
      p.2.isPresent (Path.join "/r" settingsFileName) = singleTree.isPresent (Path.join "/r" settingsFileName))
        (runOn (.generate plainOptions) "/r" noVariables singleTree) := by decide +kernel
  rw [hrun] at hresult
  obtain ⟨s, ds, -, hscan, hcurrent, hcheck⟩ := generate_then_check hnamed rfl hrun hresult.1
  exact ⟨hnamed, rfl, outcome, t', hresult.1, hrun, s, ds, hscan, hcurrent, hcheck hresult.2⟩

theorem eq_ok_of_toOption {ε α : Type} {x : Except ε α} {a : α} (h : x.toOption = some a) : x = .ok a := by
  cases x with
  | error e => cases h
  | ok b => exact congrArg _ (Option.some.inj h)

theorem exists_ok_of_isOk {ε α : Type} {x : Except ε α} (h : x.isOk = true) : ∃ a, x = .ok a := by
  cases x with
  | error e => cases h
  | ok a => exact ⟨a, rfl⟩

/-- Two definitions whose names differ in the case of letters and in the extension alone. -/
def sharedTree : Tree := projectTree [("CI.yaml", emptyDefinition "A"), ("ci.yml", emptyDefinition "B")]

def sharedDefinition (name : String) : Except Error Definition :=
  sharedTree.definition (Path.join (GeneratorSettings.standard.sourcePath "/r") name)
    (GeneratorSettings.standard.outputPath "/r") GeneratorSettings.standard.suffix

def writeShared : Task Error (StateM Tree) (List Unit) := do
  let a ← Definition.load (Path.join (GeneratorSettings.standard.sourcePath "/r") "CI.yaml")
    (GeneratorSettings.standard.outputPath "/r") GeneratorSettings.standard.suffix
  let b ← Definition.load (Path.join (GeneratorSettings.standard.sourcePath "/r") "ci.yml")
    (GeneratorSettings.standard.outputPath "/r") GeneratorSettings.standard.suffix
  [a, b].mapM (writeDefinition GeneratorSettings.standard)

theorem sharedTree_definitions :
    ∃ a b, sharedDefinition "CI.yaml" = .ok a ∧ sharedDefinition "ci.yml" = .ok b ∧
      sharedTree.definitions (GeneratorSettings.standard.sourcePath "/r") (GeneratorSettings.standard.outputPath "/r")
        GeneratorSettings.standard.suffix = .ok [a, b] ∧ ¬ Agree .standard [a, b] := by
  obtain ⟨a, ha⟩ := exists_ok_of_isOk (show (sharedDefinition "CI.yaml").isOk = true by decide +kernel)
  obtain ⟨b, hb⟩ := exists_ok_of_isOk (show (sharedDefinition "ci.yml").isOk = true by decide +kernel)
  have hnames : sharedTree.names (GeneratorSettings.standard.sourcePath "/r") = .ok ["CI.yaml", "ci.yml"] :=
    eq_ok_of_toOption (by decide +kernel)
  have hselect : sharedTree.select (GeneratorSettings.standard.sourcePath "/r") GeneratorSettings.standard.suffix
      ["CI.yaml", "ci.yml"] = ["CI.yaml", "ci.yml"] := by
    have hfiles : ((["CI.yaml", "ci.yml"].filter fun name =>
        sharedTree.isFile (Path.join (GeneratorSettings.standard.sourcePath "/r") name)).filter
          (Definition.isName GeneratorSettings.standard.suffix)) = ["CI.yaml", "ci.yml"] := by decide +kernel
    rw [Tree.select, hfiles, List.mergeSort_of_pairwise (by decide +kernel)]
  have hload : ["CI.yaml", "ci.yml"].mapM sharedDefinition = .ok [a, b] := by
    rw [List.mapM_cons, List.mapM_cons, List.mapM_nil, ha, hb]
    rfl
  have hname : outputFileName (Path.stem (Path.join (GeneratorSettings.standard.sourcePath "/r") "CI.yaml"))
      GeneratorSettings.standard.suffix = outputFileName (Path.stem (Path.join
        (GeneratorSettings.standard.sourcePath "/r") "ci.yml")) GeneratorSettings.standard.suffix := by decide +kernel
  have hout : a.output = b.output := by rw [output_of_definition ha, output_of_definition hb, hname]
  have hdiffer : (sharedDefinition "CI.yaml" >>= fun d => GeneratorSettings.standard.renderer.render d.workflow).toOption ≠
      (sharedDefinition "ci.yml" >>= fun d => GeneratorSettings.standard.renderer.render d.workflow).toOption := by
    decide +kernel
  refine ⟨a, b, ha, hb, ?_, fun hagree => ?_⟩
  · rw [Tree.definitions, bind_eq_ok]
    refine ⟨["CI.yaml", "ci.yml"], by rw [hnames]; rfl, ?_⟩
    rw [hselect]
    exact hload
  · rw [ha, hb] at hdiffer
    exact hdiffer (congrArg Except.toOption (hagree a (by simp) b (by simp) hout))

/-- There is no settings file, so the standard settings hold, and the log can be set up. -/
theorem sharedTree_settings :
    sharedTree.isPresent (Path.join "/r" settingsFileName) = false ∧
      Runs (plainOptions.settings "/r" noVariables) sharedTree (.ok .standard) sharedTree ∧
      HasLog "/r" noVariables sharedTree := by
  obtain ⟨habsent, hloaded, hlog, hfilter⟩ :
      sharedTree.isPresent (Path.join "/r" settingsFileName) = false ∧
      (sharedTree.settings "/r" noVariables).toOption = some .standard ∧
      ((LogSettings.load (some "/r") noVariables : StateM Tree (Except LogFault LogSettings)).run
        sharedTree).1.toOption = some .standard ∧
      (LogSettings.standard.filter noVariables).isOk = true := by decide +kernel
  have hload : (LogSettings.load (some "/r") noVariables : StateM Tree (Except LogFault LogSettings)).run sharedTree =
      (((LogSettings.load (some "/r") noVariables : StateM Tree (Except LogFault LogSettings)).run sharedTree).1,
        sharedTree) := DependsOn.logSettings "/r" noVariables sharedTree sharedTree rfl
  obtain ⟨filter, hfilter⟩ := exists_ok_of_isOk hfilter
  exact ⟨habsent, (runs_silently (Prod.ext (eq_ok_of_toOption hloaded) rfl)).read fun s _ => .pure _ sharedTree,
    .standard, filter, hload.trans (by rw [eq_ok_of_toOption hlog]), hfilter⟩

/-- Both definitions are written, and there is no settings file afterwards. -/
theorem exists_runs_write_sharedTree {a b : Definition} (ha : sharedDefinition "CI.yaml" = .ok a)
    (hb : sharedDefinition "ci.yml" = .ok b)
    (hds : sharedTree.definitions (GeneratorSettings.standard.sourcePath "/r")
      (GeneratorSettings.standard.outputPath "/r") GeneratorSettings.standard.suffix = .ok [a, b]) :
    ∃ us t', Runs ([a, b].mapM (writeDefinition GeneratorSettings.standard)) sharedTree (.ok us) t' ∧
      t'.isPresent (Path.join "/r" settingsFileName) = false := by
  obtain ⟨hfault, hwritten⟩ : GeneratorSettings.standard.fault? = none ∧
      (fun p : (Except Error (List Unit) × List Event) × Tree =>
        p.1.1.isOk = true ∧ p.2.isPresent (Path.join "/r" settingsFileName) = false)
          ((Task.run writeShared : StateM Tree (Except Error (List Unit) × List Event)).run sharedTree) := by
    decide +kernel
  have hload : ∀ {name d}, sharedDefinition name = .ok d →
      Runs (Definition.load (Path.join (GeneratorSettings.standard.sourcePath "/r") name)
        (GeneratorSettings.standard.outputPath "/r") GeneratorSettings.standard.suffix) sharedTree (.ok d)
          sharedTree := fun hd => hd ▸ Definition.runs_load sharedTree _ _ _
  obtain ⟨r, t', hruns, -⟩ := exists_runs_writeAll .standard (exists_writesTo (.of_fault hfault) hds) sharedTree
  have hall : Runs writeShared sharedTree r t' := (hload ha).bind ((hload hb).bind hruns)
  obtain ⟨events, hrun⟩ := hall.run_eq
  rw [hrun] at hwritten
  obtain ⟨us, rfl⟩ := exists_ok_of_isOk hwritten.1
  exact ⟨us, t', hruns, hwritten.2⟩

/-- A run on two definitions with one file succeeds, leaves one of them without its text, and a check fails. -/
theorem check_fails_after_generate :
    sharedTree.IsNamed ∧ ∃ (outcome report : Outcome) (t' : Tree),
      runOn (.generate plainOptions) "/r" noVariables sharedTree = (outcome, t') ∧ outcome.status = 0 ∧
      (∃ ds, Runs (Definition.scan (GeneratorSettings.standard.sourcePath "/r")
          (GeneratorSettings.standard.outputPath "/r") GeneratorSettings.standard.suffix) sharedTree (.ok ds) sharedTree ∧
        ¬ ∀ d ∈ ds, d.IsCurrent .standard t') ∧
      runOn (.generate plainOptions.forCheck) "/r" noVariables t' = (report, t') ∧ report.status ≠ 0 := by
  obtain ⟨a, b, ha, hb, hds, hdisagree⟩ := sharedTree_definitions
  obtain ⟨habsent, hsettings, hlog⟩ := sharedTree_settings
  obtain ⟨us, t', hwrite, habsent'⟩ := exists_runs_write_sharedTree ha hb hds
  have hnamed : sharedTree.IsNamed := isNamed_projectTree (by simp)
  have hpresent := habsent'.trans habsent.symm
  obtain ⟨r, u, hruns, hgenerates⟩ := exists_runs_perform (o := plainOptions) rfl "/r" noVariables sharedTree
  obtain ⟨rfl, rfl⟩ := hruns.unique ((Finds.of_definitions hsettings hds).runs_perform rfl hwrite)
  obtain ⟨s, ds, h⟩ := hgenerates rfl
  cases ((h.settings sharedTree rfl).unique hsettings).1
  cases h.definitions.symm.trans hds
  obtain ⟨r, hcheck, hagree⟩ := h.exists_runs_check hnamed hpresent
  have hlog' : HasLog (plainOptions.root.getD "/r") noVariables sharedTree := hlog
  have hlogCheck : HasLog (plainOptions.forCheck.root.getD "/r") noVariables u :=
    hlog.of_content (content_of_grows h.grows h.suffix hpresent)
  obtain ⟨outcome, hrun, hok⟩ := runCommand_of_hasLog hlog' hruns
  obtain ⟨report, hreport, hstatus⟩ := runCommand_of_hasLog hlogCheck hcheck
  have hscan := Definition.runs_scan sharedTree (GeneratorSettings.standard.sourcePath "/r")
    (GeneratorSettings.standard.outputPath "/r") GeneratorSettings.standard.suffix
  rw [hds] at hscan
  refine ⟨hnamed, outcome, report, u, hrun, hok.mpr rfl, ⟨_, hscan, ?_⟩, hreport, ?_⟩
  · rwa [h.written.all_isCurrent_iff]
  · rwa [Ne, hstatus, hagree]

end CiWorkflow.CommandLine
