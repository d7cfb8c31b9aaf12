import CiWorkflow.Proofs.CommandLine.Effects
import CiWorkflow.Proofs.Generate.Again

set_option autoImplicit false

namespace CiWorkflow.CommandLine

open Log CiWorkflow.Task CiWorkflow.Tree

variable {o : GenerateOptions} {root directory : String} {vars : Variables} {t t' : Tree} {s : GeneratorSettings}
  {ds : List Definition}

/-- However a run ends, it leaves alone what does not end as generated files do. -/
theorem Finds.grows {outcome : Outcome} (h : Finds o (o.root.getD directory) vars t s ds)
    (hrun : runOn (.generate o) directory vars t = (outcome, t')) : Grows (IsOutputPlace s.suffix) t t' := by
  by_cases hlog : HasLog (o.root.getD directory) vars t
  · cases ho : o.check with
    | true =>
      obtain ⟨outcome', hcheck⟩ := exists_run_check ho directory vars t
      obtain ⟨-, rfl⟩ := Prod.mk.inj (hrun.symm.trans hcheck)
      exact .refl _
    | false =>
      have hsuffix := IsSuffix.of_fault h.fault
      obtain ⟨written, u, hwrite, hgrows, -⟩ := exists_runs_writeAll s (exists_writesTo hsuffix h.definitions) t
      obtain ⟨lines, hlines⟩ := exists_lines_of_hasLog hlog (h.runs_perform ho hwrite)
      obtain ⟨-, rfl⟩ := Prod.mk.inj (hrun.symm.trans hlines)
      exact hgrows.mono fun p hp => isOutputPlace_of_endsAtOutput hsuffix h.definitions hp
  · obtain ⟨outcome', hrun', -⟩ := runCommand_of_not_hasLog hlog
    obtain ⟨-, rfl⟩ := Prod.mk.inj (hrun.symm.trans hrun')
    exact .refl _

/-- Behind a run that succeeded, writing the same definitions again changes nothing. -/
theorem Generates.runs_again (h : Generates o root vars t s ds t') (ht : t.IsNamed)
    (hpresent : t'.isPresent (Path.join root settingsFileName) = t.isPresent (Path.join root settingsFileName))
    (ho : o.check = false) (hruns : Runs (o.perform root vars) t (.ok ()) t') :
    Runs (o.perform root vars) t' (.ok ()) t' := by
  have hagain := h.finds_again ht hpresent
  obtain ⟨r, u, hwrite, hwrites⟩ := exists_runs_writeAll_again s ds t
  obtain ⟨hr, rfl⟩ := hruns.unique (h.finds.runs_perform ho hwrite)
  cases r with
  | error e => cases hr
  | ok us =>
    obtain ⟨ws, hws⟩ := hwrites us rfl
    exact hagain.runs_perform ho hws.runs_again

/-- A run never changes the file of a definition. And behind a run that succeeded, a second one finds the same
settings and definitions, succeeds too and changes nothing, unless the first has brought the settings file into
being. -/
theorem regenerate {outcome : Outcome} (ht : t.IsNamed)
    (hrun : runOn (.generate o) directory vars t = (outcome, t')) :
    (∀ s ds, Finds o (o.root.getD directory) vars t s ds →
      ∀ d ∈ ds, ∃ bytes, t.find d.source = .ok (.file bytes) ∧ t'.find d.source = .ok (.file bytes)) ∧
    (outcome.status = 0 →
      t'.isPresent (Path.join (o.root.getD directory) settingsFileName) =
        t.isPresent (Path.join (o.root.getD directory) settingsFileName) →
      ∃ s ds, Finds o (o.root.getD directory) vars t s ds ∧ Finds o (o.root.getD directory) vars t' s ds ∧
        ∃ again : Outcome, runOn (.generate o) directory vars t' = (again, t') ∧ again.status = 0) := by
  refine ⟨fun s ds hfinds d hd => find_source_of_grows (hfinds.grows hrun) ht hfinds.definitions hd,
    fun hok hpresent => ?_⟩
  rcases cannotLoad_or_finds o (o.root.getD directory) vars t with h | ⟨hlog, s, ds, hfinds⟩
  · obtain ⟨outcome', hrun', hstatus⟩ := h.exists_run
    obtain ⟨rfl, -⟩ := Prod.mk.inj (hrun.symm.trans hrun')
    exact absurd hok hstatus
  · cases ho : o.check with
    | true =>
      obtain ⟨outcome', hcheck⟩ := exists_run_check ho directory vars t
      obtain ⟨-, rfl⟩ := Prod.mk.inj (hrun.symm.trans hcheck)
      exact ⟨s, ds, hfinds, hfinds, outcome, hrun, hok⟩
    | false =>
      obtain ⟨r, u, hruns, hgenerates⟩ := exists_runs_perform ho (o.root.getD directory) vars t
      obtain ⟨outcome', hrun', hstatus⟩ := runCommand_of_hasLog hlog hruns
      obtain ⟨rfl, rfl⟩ := Prod.mk.inj (hrun.symm.trans hrun')
      obtain rfl := hstatus.mp hok
      obtain ⟨s, ds, h⟩ := hgenerates rfl
      have hlog' := hlog.of_content (content_of_grows h.grows h.suffix hpresent)
      obtain ⟨again, hagain, hstatus'⟩ := runCommand_of_hasLog hlog' (h.runs_again ht hpresent ho hruns)
      exact ⟨s, ds, h.finds, h.finds_again ht hpresent, again, hagain, hstatus'.mpr rfl⟩

theorem regenerate_one_definition :
    singleTree.IsNamed ∧ ∃ (outcome : Outcome) (t' : Tree), outcome.status = 0 ∧
      runOn (.generate plainOptions) "/r" noVariables singleTree = (outcome, t') ∧
      t'.isPresent (Path.join "/r" settingsFileName) = singleTree.isPresent (Path.join "/r" settingsFileName) ∧
      ∃ s ds, Finds plainOptions "/r" noVariables singleTree s ds ∧
        (∀ d ∈ ds, ∃ bytes, singleTree.find d.source = .ok (.file bytes) ∧ t'.find d.source = .ok (.file bytes)) ∧
        Finds plainOptions "/r" noVariables t' s ds ∧
        ∃ again : Outcome, runOn (.generate plainOptions) "/r" noVariables t' = (again, t') ∧ again.status = 0 := by
  have hnamed : singleTree.IsNamed := isNamed_projectTree (by simp)
  obtain ⟨outcome, t', hrun⟩ : ∃ (outcome : Outcome) (t' : Tree),
      runOn (.generate plainOptions) "/r" noVariables singleTree = (outcome, t') := ⟨_, _, rfl⟩
  have hresult : (fun p : Outcome × Tree => p.1.status = 0 ∧
      p.2.isPresent (Path.join "/r" settingsFileName) = singleTree.isPresent (Path.join "/r" settingsFileName))
        (runOn (.generate plainOptions) "/r" noVariables singleTree) := by decide +kernel
  rw [hrun] at hresult
  obtain ⟨hsources, hagain⟩ := regenerate hnamed hrun
  obtain ⟨s, ds, hfinds, hfinds', hsecond⟩ := hagain hresult.1 hresult.2
  exact ⟨hnamed, outcome, t', hresult.1, hrun, hresult.2, s, ds, hfinds, hsources s ds hfinds, hfinds', hsecond⟩

/-- A definition and a settings file with a header of its own. -/
def headedTree : Tree where
  entries := [(["r"], .directory), (["r", "defs"], .directory), (["r", "defs", "ci.yml"], .file (emptyDefinition "A").toUTF8),
    (["r", settingsFileName], .file "[generate]\nheader = \"x\"\n".toUTF8)]
  base := ["r"]

/-- The root lies behind a directory that is still missing. -/
def detourOptions : GenerateOptions := { plainOptions with root := some "x/..", sourceDir := some "/r/defs" }

def headedOutput : String := "/r/.github/workflows/ci.generated.yml"

/-- Creating the missing directory brings the settings file into being, and a second run writes another text. -/
theorem regenerate_changes_file :
    headedTree.IsNamed ∧ ∃ (outcome again : Outcome) (t' t'' : Tree),
      runOn (.generate detourOptions) "/r" noVariables headedTree = (outcome, t') ∧ outcome.status = 0 ∧
      runOn (.generate detourOptions) "/r" noVariables t' = (again, t'') ∧ again.status = 0 ∧
      t'.isFile headedOutput = true ∧ t''.isFile headedOutput = true ∧
      t''.read headedOutput ≠ t'.read headedOutput := by
  have hnamed : headedTree.IsNamed := ⟨by simp [headedTree, HasNames], by simp [headedTree, HasNames, settingsFileName]⟩
  obtain ⟨outcome, t', hrun⟩ : ∃ (outcome : Outcome) (t' : Tree),
      runOn (.generate detourOptions) "/r" noVariables headedTree = (outcome, t') := ⟨_, _, rfl⟩
  obtain ⟨again, t'', hagain⟩ : ∃ (again : Outcome) (t'' : Tree),
      runOn (.generate detourOptions) "/r" noVariables t' = (again, t'') := ⟨_, _, rfl⟩
  have hresult : (fun p q : Outcome × Tree => p.1.status = 0 ∧ q.1.status = 0 ∧ p.2.isFile headedOutput = true ∧
      q.2.isFile headedOutput = true ∧ (q.2.read headedOutput).toOption ≠ (p.2.read headedOutput).toOption)
        (runOn (.generate detourOptions) "/r" noVariables headedTree) (runOn (.generate detourOptions) "/r" noVariables
          (runOn (.generate detourOptions) "/r" noVariables headedTree).2) := by decide +kernel
  rw [hrun, hagain] at hresult
  obtain ⟨hok, hokAgain, hfile, hfileAgain, hread⟩ := hresult
  exact ⟨hnamed, outcome, again, t', t'', hrun, hok, hagain, hokAgain, hfile, hfileAgain, fun h => hread (by rw [h])⟩

end CiWorkflow.CommandLine
