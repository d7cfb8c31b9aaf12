import CiWorkflow.Proofs.CommandLine.Generate
import CiWorkflow.Proofs.Generate.FileSettings

/-!
# Layers of settings

Each setting comes from the first layer that has a usable value for it: the options, the variables, the settings file,
or the standard settings. Options and variables give directories and a format only. So the rules, which are about the
other fields, can be checked before the options are looked at.
-/
set_option autoImplicit false

namespace CiWorkflow

open Text Render CiWorkflow.Task

def GivesDirectory (value : Option String) (dir : String) : Prop :=
  value = some dir ∧ ∃ c ∈ dir.toList, isBlank c = false

def formatNames : List (String × Format) := [("yaml", .yaml), ("yml", .yaml), ("json", .json)]

def GivesFormat (value : Option String) (f : Format) : Prop :=
  ∃ name, value = some name ∧ (String.ofList (name.toList.map Char.toLower), f) ∈ formatNames

theorem directory?_eq_some_iff {value : Option String} {dir : String} :
    GeneratorSettings.directory? value = some dir ↔ GivesDirectory value dir := by
  simp [GeneratorSettings.directory?, GivesDirectory, isBlankText, Option.filter_eq_some_iff]

theorem format?_eq_some_iff {value : Option String} {f : Format} :
    GeneratorSettings.format? value = some f ↔ GivesFormat value f := by
  have hname : ∀ name, (Format.ofName name).toOption = some f ↔
      (String.ofList (name.toList.map Char.toLower), f) ∈ formatNames := by
    intro name
    simp only [Format.ofName, formatNames, List.mem_cons, Prod.mk.injEq, List.not_mem_nil, or_false]
    generalize String.ofList (name.toList.map Char.toLower) = lower
    grind [Except.toOption]
  simp only [GeneratorSettings.format?, Option.bind_eq_some_iff, hname, GivesFormat]

/-- The layers of one setting: an option, else what a variable gives, else what the file says, else a standard value. -/
inductive Chosen {α : Type} (option : Option α) (gives : α → Prop) (file : Option α) (standard : α) : α → Prop where
  | byOption {a : α} (h : option = some a) : Chosen option gives file standard a
  | byVariable {a : α} (hoption : option = none) (h : gives a) : Chosen option gives file standard a
  | byFile {a : α} (hoption : option = none) (hvariable : ∀ b, ¬ gives b) (h : file = some a) :
      Chosen option gives file standard a
  | byDefault (hoption : option = none) (hvariable : ∀ b, ¬ gives b) (h : file = none) :
      Chosen option gives file standard standard

theorem chosen_iff {α : Type} {option given file : Option α} {gives : α → Prop} {standard a : α}
    (h : ∀ {b}, given = some b ↔ gives b) :
    Chosen option gives file standard a ↔ option.getD (given.getD (file.getD standard)) = a := by
  have hnone : given = none ↔ ∀ b, ¬ gives b := by simp only [Option.eq_none_iff_forall_ne_some, ne_eq, h]
  constructor
  · intro hchosen
    cases hchosen with
    | byOption hoption => rw [hoption, Option.getD_some]
    | byVariable hoption hgives => rw [hoption, Option.getD_none, h.mpr hgives, Option.getD_some]
    | byFile hoption hvariable hfile =>
      rw [hoption, Option.getD_none, hnone.mpr hvariable, Option.getD_none, hfile, Option.getD_some]
    | byDefault hoption hvariable hfile =>
      rw [hoption, Option.getD_none, hnone.mpr hvariable, Option.getD_none, hfile, Option.getD_none]
  · rintro rfl
    cases hoption : option with
    | some a => exact .byOption rfl
    | none =>
      cases hgiven : given with
      | some b => exact .byVariable rfl (h.mp hgiven)
      | none =>
        cases hfile : file with
        | some c => exact .byFile rfl (hnone.mp hgiven) rfl
        | none => exact .byDefault rfl (hnone.mp hgiven) rfl

/-- The settings that come from the layers together. -/
structure IsLayered (o : CommandLine.GenerateOptions) (vars : Variables) (file : FileSettings) (s : GeneratorSettings) :
    Prop where
  sourceDir : Chosen o.sourceDir (GivesDirectory (vars "GHAFLOW_SRC_DIR")) file.sourceDir
    GeneratorSettings.standard.sourceDir s.sourceDir
  outputDir : Chosen o.outputDir (GivesDirectory (vars "GHAFLOW_OUT_DIR")) file.outputDir
    GeneratorSettings.standard.outputDir s.outputDir
  format : Chosen o.format (GivesFormat (vars "GHAFLOW_FORMAT")) file.format GeneratorSettings.standard.format s.format
  suffix : s.suffix = file.usedSuffix
  header : s.header = file.header.getD GeneratorSettings.standard.header
  indent : s.indent = file.usedIndent

theorem isLayered_iff {o : CommandLine.GenerateOptions} {vars : Variables} {file : FileSettings}
    {s : GeneratorSettings} :
    IsLayered o vars file s ↔ (file.completed.withVariables vars).override o.sourceDir o.outputDir o.format = s := by
  obtain ⟨sourceDir, outputDir, suffix, header, format, indent⟩ := s
  simp only [GeneratorSettings.withVariables, GeneratorSettings.override, FileSettings.completed,
    GeneratorSettings.mk.injEq]
  rw [← chosen_iff directory?_eq_some_iff, ← chosen_iff directory?_eq_some_iff, ← chosen_iff format?_eq_some_iff]
  constructor
  · rintro ⟨hsource, houtput, hformat, hsuffix, hheader, hindent⟩
    exact ⟨hsource, houtput, hsuffix.symm, hheader.symm, hformat, hindent.symm⟩
  · rintro ⟨hsource, houtput, hsuffix, hheader, hformat, hindent⟩
    exact ⟨hsource, houtput, hformat, hsuffix.symm, hheader.symm, hindent.symm⟩

variable {t : Tree} {root : String} {vars : Variables}

namespace CommandLine

variable {o : GenerateOptions}

theorem runs_settings (o : GenerateOptions) (root : String) (vars : Variables) (t : Tree) :
    Runs (o.settings root vars) t
      (t.settings root vars >>= fun s => .ok (s.override o.sourceDir o.outputDir o.format)) t :=
  runs_settings_of_content o vars rfl

theorem runs_settings_ok_iff {s : GeneratorSettings} : Runs (o.settings root vars) t (.ok s) t ↔
    ∃ file, t.HasFileSettings root file ∧ IsLayered o vars file s ∧ KeepsRules s.suffix s.indent := by
  constructor
  · intro h
    obtain ⟨loaded, hloaded, hs⟩ := bind_eq_ok.mp ((runs_settings o root vars t).unique h).1
    obtain ⟨file, hfile, hrules, rfl⟩ := Tree.settings_eq_ok_iff.mp hloaded
    obtain rfl := Except.ok.inj hs
    -- the rules were checked before the options, which leave suffix and indentation alone
    exact ⟨file, hfile, isLayered_iff.mpr rfl, hrules⟩
  · rintro ⟨file, hfile, hlayers, hrules⟩
    rw [hlayers.suffix, hlayers.indent] at hrules
    have hruns := runs_settings o root vars t
    rw [Tree.settings_eq_ok_iff.mpr ⟨file, hfile, hrules, rfl⟩] at hruns
    rw [← isLayered_iff.mp hlayers]
    exact hruns

theorem runs_perform_of_settings_error {e : Error} (h : t.settings root vars = .error e) :
    Runs (o.perform root vars) t (.error (.error e)) t := by
  have hruns := runs_settings o root vars t
  rw [h] at hruns
  exact (runs_because .error hruns).fail

/-- A run gets past its settings exactly if the settings file, as far as it is there, says something that keeps the
rules. Then each setting comes from the first layer that gives it, and the rules hold still. Loading fails for the
settings exactly if the file does not decode or breaks a rule, and for the file exactly if it is there and cannot be
read; then the run fails too. An unknown name in the section is enough for a file not to decode. -/
theorem settings_of_layers (o : GenerateOptions) (root : String) (vars : Variables) (t : Tree) :
    (∀ s, Runs (o.settings root vars) t (.ok s) t ↔
      ∃ file, t.HasFileSettings root file ∧ IsLayered o vars file s ∧ KeepsRules s.suffix s.indent) ∧
    ((∃ fault, t.settings root vars = .error (.settings (Path.join root settingsFileName) fault)) ↔
      ∃ text, t.content? (Path.join root settingsFileName) = some (.ok text) ∧
        ((¬ ∃ file, FileSettings.Decodes text file) ∨
          ∃ file, FileSettings.Decodes text file ∧ ¬ KeepsRules file.usedSuffix file.usedIndent)) ∧
    (∀ fault, t.settings root vars = .error (.io (Path.join root settingsFileName) fault) ↔
      t.content? (Path.join root settingsFileName) = some (.error fault)) ∧
    (∀ e, t.settings root vars = .error e → Runs (o.perform root vars) t (.error (.error e)) t) ∧
    ∀ text entries fields name v, Toml.read? text = some entries →
      entries.lookup "generate" = some (.table fields) → (name, v) ∈ fields →
      name ∉ GeneratorSettings.fieldNames → ¬ ∃ file, FileSettings.Decodes text file :=
  ⟨fun _ => runs_settings_ok_iff, Tree.exists_settings_error_iff, fun _ => Tree.settings_eq_io_error_iff,
    fun _ => runs_perform_of_settings_error, fun _ _ _ _ _ => FileSettings.not_decodes_of_unknown⟩

/-- A project with a settings file and nothing else. -/
def settingsTree (text : String) : Tree where
  entries := [(["r"], .directory), (["r", settingsFileName], .file text.toUTF8)]
  base := ["r"]

/-- A variable with blanks alone, one with a directory, and one with a format. -/
def mixedVariables : Variables := fun name =>
  if name = "GHAFLOW_SRC_DIR" then some "  "
  else if name = "GHAFLOW_OUT_DIR" then some "env"
  else if name = "GHAFLOW_FORMAT" then some "JSON"
  else none

def mixedText : String := "[generate]\nsrc_dir = \"defs\"\nsuffix = \".gen.yaml\"\nindent = 4\n"

def misspeltText : String := "[generate]\nsrcdir = \"defs\"\n"

def hasOnly (name : String) : Toml.Value → Bool
  | .table [(name', _)] => name' = name
  | _ => false

theorem exists_of_hasOnly {found : Option Toml.Section} {name : String}
    (h : (found.bind fun entries => entries.lookup "generate").any (hasOnly name) = true) :
    ∃ entries v, found = some entries ∧ entries.lookup "generate" = some (.table [(name, v)]) := by
  cases found with
  | none => cases h
  | some entries =>
    cases hv : entries.lookup "generate" with
    | none => simp [hv] at h
    | some v =>
      rw [Option.bind_some, hv, Option.any_some] at h
      unfold hasOnly at h
      split at h
      · obtain rfl := of_decide_eq_true h
        exact ⟨entries, _, rfl, hv⟩
      · cases h

/-- Every layer gives something: the file a source directory, since the variable is blank, an option an output
directory, and a variable a format. A misspelt name stops the run. -/
theorem settings_of_layers_mixed :
    (∃ file, (settingsTree mixedText).HasFileSettings "/r" file ∧
      IsLayered { plainOptions with outputDir := some "o" } mixedVariables file
        ⟨"defs", "o", ".gen.yaml", defaultHeader, .json, 4⟩ ∧ KeepsRules ".gen.yaml" 4) ∧
    (∃ entries v, Toml.read? misspeltText = some entries ∧
      entries.lookup "generate" = some (.table [("srcdir", v)])) ∧ "srcdir" ∉ GeneratorSettings.fieldNames ∧
    (¬ ∃ file, FileSettings.Decodes misspeltText file) ∧
    ∃ fault, (settingsTree misspeltText).settings "/r" mixedVariables =
        .error (.settings (Path.join "/r" settingsFileName) fault) ∧
      Runs (plainOptions.perform "/r" mixedVariables) (settingsTree misspeltText)
        (.error (.error (.settings (Path.join "/r" settingsFileName) fault))) (settingsTree misspeltText) := by
  obtain ⟨hlayers, -, -, -, -⟩ := settings_of_layers { plainOptions with outputDir := some "o" } "/r" mixedVariables
    (settingsTree mixedText)
  obtain ⟨-, hfails, -, hstops, hunknown⟩ := settings_of_layers plainOptions "/r" mixedVariables
    (settingsTree misspeltText)
  have hloaded : (settingsTree mixedText).settings "/r" mixedVariables =
      .ok ⟨"defs", "env", ".gen.yaml", defaultHeader, .json, 4⟩ := eq_ok_of_toOption (by decide +kernel)
  have hruns := runs_settings { plainOptions with outputDir := some "o" } "/r" mixedVariables (settingsTree mixedText)
  rw [hloaded] at hruns
  have honly : ((Toml.read? misspeltText).bind fun entries => entries.lookup "generate").any (hasOnly "srcdir") =
      true := by decide +kernel
  obtain ⟨entries, v, hread, hsection⟩ := exists_of_hasOnly honly
  have hunknownName : "srcdir" ∉ GeneratorSettings.fieldNames := by decide
  have hnot : ¬ ∃ file, FileSettings.Decodes misspeltText file :=
    hunknown _ _ _ _ v hread hsection (List.mem_singleton_self _) hunknownName
  have hpresent : (settingsTree misspeltText).isPresent (Path.join "/r" settingsFileName) = true := by decide +kernel
  have hcurrent : (settingsTree misspeltText).read (Path.join "/r" settingsFileName) = .ok misspeltText :=
    eq_ok_of_toOption (by decide +kernel)
  have hcontent : (settingsTree misspeltText).content? (Path.join "/r" settingsFileName) = some (.ok misspeltText) := by
    rw [Tree.content?, hpresent, hcurrent]
    rfl
  obtain ⟨fault, herror⟩ := hfails.mpr ⟨misspeltText, hcontent, .inl hnot⟩
  exact ⟨(hlayers _).mp hruns, ⟨entries, v, hread, hsection⟩, hunknownName, hnot, fault, herror, hstops _ herror⟩

end CommandLine

end CiWorkflow
