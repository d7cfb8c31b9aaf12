import CiWorkflow.CommandLine.Run
import CiWorkflow.Proofs.Generate.Name
import CiWorkflow.Proofs.Generate.Runs
import CiWorkflow.Proofs.Generate.Scan

set_option autoImplicit false

namespace CiWorkflow

open Log CiWorkflow.Task CiWorkflow.Tree

variable {α β : Type} {t t' : Tree} {path root suffix : String} {vars : Variables}

def Tree.content? (t : Tree) (path : String) : Option (Except FileFault String) :=
  if t.isPresent path then some (t.read path) else none

/-- An action that leaves the tree alone and gives the same where a file has the same content. -/
def DependsOn (path : String) (act : StateM Tree α) : Prop :=
  ∀ t t', t'.content? path = t.content? path → act.run t' = ((act.run t).1, t')

namespace DependsOn

theorem pure (a : α) : DependsOn path (pure a) := fun _ _ _ => rfl

theorem bind {x : StateM Tree α} {f : α → StateM Tree β} (hx : DependsOn path x) (hf : ∀ a, DependsOn path (f a)) :
    DependsOn path (x >>= f) := by
  intro t t' h
  have htree : (x.run t).2 = t := congrArg Prod.snd (hx t t rfl)
  have hnext := hf (x.run t).1 t t' h
  change (f (x.run t').1).run (x.run t').2 = (((f (x.run t).1).run (x.run t).2).1, t')
  rw [hx t t' h, hnext, htree]

theorem ofFile (a : α) {k : Except FileFault String → StateM Tree α} (hk : ∀ r, DependsOn path (k r)) :
    DependsOn path ((Files.isPresent path : StateM Tree Bool) >>= fun present =>
      if !present then Pure.pure a else Files.read path >>= k) := by
  intro t t' h
  change (if !t'.isPresent path then (Pure.pure a : StateM Tree α) else Files.read path >>= k).run t' =
    (((if !t.isPresent path then (Pure.pure a : StateM Tree α) else Files.read path >>= k).run t).1, t')
  have hcontent := h
  rw [Tree.content?, Tree.content?] at hcontent
  cases hp : t.isPresent path <;> cases hp' : t'.isPresent path <;> rw [hp, hp'] at hcontent
  · rfl
  · cases hcontent
  · cases hcontent
  · change (k (t'.read path)).run t' = (((k (t.read path)).run t).1, t')
    rw [Option.some.inj hcontent]
    exact hk _ t t' h

theorem inFile (path : String) : DependsOn path (GeneratorSettings.inFile path) := by
  refine ofFile _ fun r => ?_
  cases r with
  | error fault => exact pure _
  | ok text => cases h : GeneratorSettings.ofText? text <;> simp only [h] <;> exact pure _

theorem generatorSettings (root : String) (vars : Variables) :
    DependsOn (Path.join root settingsFileName) (GeneratorSettings.load root vars) := by
  refine (inFile _).bind fun file => ?_
  cases file with
  | error e => exact pure _
  | ok file =>
    simp only
    split <;> exact pure _

theorem withFile (s : LogSettings) (path : String) : DependsOn path (s.withFile path) := by
  refine ofFile _ fun r => ?_
  cases r with
  | error fault => exact pure _
  | ok text => cases h : s.withText? text <;> simp only [h] <;> exact pure _

theorem logSettings (root : String) (vars : Variables) :
    DependsOn (Path.join root settingsFileName) (LogSettings.load (some root) vars) := by
  refine (withFile _ _).bind fun file => ?_
  cases file <;> exact pure _

end DependsOn

theorem isName_settingsFileName : IsName settingsFileName :=
  ⟨by decide, by decide, by decide, by decide⟩

theorem content_of_grows (h : Grows (IsOutputPlace suffix) t t') (hsuffix : IsSuffix suffix)
    (hpresent : t'.isPresent (Path.join root settingsFileName) = t.isPresent (Path.join root settingsFileName)) :
    t'.content? (Path.join root settingsFileName) = t.content? (Path.join root settingsFileName) := by
  rw [Tree.content?, Tree.content?, hpresent]
  split
  · rename_i hp
    rw [Tree.isPresent] at hp
    cases hfind : t.find (Path.join root settingsFileName) with
    | error fault => rw [hfind] at hp; cases hp
    | ok e =>
      have hfind' : t'.find (Path.join root settingsFileName) = .ok e := by
        cases e with
        | directory => exact h.find_directory hfind
        | file bytes =>
          refine h.find_file hfind ?_
          rintro p hp ⟨name, hname, hends⟩
          cases hname.symm.trans (getLast_of_locate_join isName_settingsFileName hp)
          rw [hsuffix.not_suffix_of_not (by decide) (by decide)] at hends
          cases hends
      rw [Tree.read, Tree.read, hfind, hfind']
  · rfl

/-- The settings of a project that are loaded from a tree. -/
def Tree.settings (t : Tree) (root : String) (vars : Variables) : Except Error GeneratorSettings :=
  ((GeneratorSettings.load root vars : StateM Tree (Except Error GeneratorSettings)).run t).1

/-- The settings in a file of a tree. A file that is not there gives none. -/
def Tree.inFile (t : Tree) (path : String) : Except Error (Option GeneratorSettings) :=
  match t.content? path with
  | none => .ok none
  | some (.error fault) => .error (.io path fault)
  | some (.ok text) =>
    match GeneratorSettings.ofText? text with
    | none => .error (.settings path .unreadable)
    | some found => .ok found

theorem run_inFile (t : Tree) (path : String) :
    (GeneratorSettings.inFile path : StateM Tree (Except Error (Option GeneratorSettings))).run t =
      (t.inFile path, t) := by
  have hpresent : (Files.isPresent path : StateM Tree Bool).run t = (t.isPresent path, t) := rfl
  have hread : (Files.read path : StateM Tree (Except FileFault String)).run t = (t.read path, t) := rfl
  rw [GeneratorSettings.inFile, StateT.run_bind, hpresent, Tree.inFile, Tree.content?]
  simp only [bind]
  cases t.isPresent path with
  | false => rfl
  | true =>
    simp only [Bool.not_true, Bool.false_eq_true, if_false, if_true]
    change (Files.read path >>= _ : StateM Tree _).run t = _
    rw [StateT.run_bind, hread]
    simp only [bind]
    cases t.read path with
    | error fault => rfl
    | ok text => cases h : GeneratorSettings.ofText? text <;> simp only [h] <;> rfl

/-- Settings that keep the rules, or the first rule that they break. -/
def GeneratorSettings.checked (s : GeneratorSettings) (path : String) : Except Error GeneratorSettings :=
  match s.fault? with
  | some fault => .error (.settings path fault)
  | none => .ok s

theorem GeneratorSettings.checked_eq_ok_iff {s s' : GeneratorSettings} :
    s.checked path = .ok s' ↔ s.fault? = none ∧ s = s' := by
  rw [checked]
  cases s.fault? <;> simp

/-- Variables come before the settings file, and the rules are checked behind them. -/
theorem Tree.settings_eq (t : Tree) (root : String) (vars : Variables) : t.settings root vars =
    t.inFile (Path.join root settingsFileName) >>= fun found =>
      ((found.getD .standard).withVariables vars).checked (Path.join root settingsFileName) := by
  rw [Tree.settings, GeneratorSettings.load, StateT.run_bind, run_inFile]
  simp only [bind]
  cases t.inFile (Path.join root settingsFileName) with
  | error e => rfl
  | ok found =>
    simp only [Except.bind, GeneratorSettings.checked]
    cases ((found.getD .standard).withVariables vars).fault? <;> rfl

theorem fault_of_settings {s : GeneratorSettings} (h : t.settings root vars = .ok s) : s.fault? = none := by
  rw [Tree.settings_eq] at h
  obtain ⟨found, -, hchecked⟩ := bind_eq_ok.mp h
  obtain ⟨hfault, rfl⟩ := GeneratorSettings.checked_eq_ok_iff.mp hchecked
  exact hfault

theorem runs_silently {act : StateM Tree (Except Error α)} {r : Except Error α} (h : act.run t = (r, t')) :
    Runs (CommandLine.silently act) t r t' := by
  intro events
  refine ⟨events, ?_⟩
  change ((((act.run t).1, events), (act.run t).2) : (Except Error α × List Event) × Tree) = _
  rw [h]

/-- Where the settings file has the same content, a run has the same settings: those that are loaded, changed by its
options. -/
theorem runs_settings_of_content (o : CommandLine.GenerateOptions) (vars : Variables)
    (h : t'.content? (Path.join root settingsFileName) = t.content? (Path.join root settingsFileName)) :
    Runs (o.settings root vars) t'
      (t.settings root vars >>= fun s => .ok (s.override o.sourceDir o.outputDir o.format)) t' :=
  (runs_silently (DependsOn.generatorSettings root vars t t' h)).read fun _ _ => .pure _ t'

/-- The settings of a run keep the rules, and are the same where the settings file has the same content. -/
theorem exists_runs_settings (o : CommandLine.GenerateOptions) (root : String) (vars : Variables) (t : Tree) :
    ∃ r, (∀ s, r = .ok s → s.fault? = none) ∧
      ∀ t', t'.content? (Path.join root settingsFileName) = t.content? (Path.join root settingsFileName) →
        Runs (o.settings root vars) t' r t' := by
  refine ⟨_, fun s hs => ?_, fun t' h => runs_settings_of_content o vars h⟩
  obtain ⟨loaded, hloaded, hs⟩ := bind_eq_ok.mp hs
  have hfault : loaded.fault? = none := fault_of_settings hloaded
  rwa [← Except.ok.inj hs]

end CiWorkflow
