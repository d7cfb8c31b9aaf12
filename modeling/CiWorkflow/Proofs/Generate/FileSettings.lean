import CiWorkflow.Proofs.Generate.Settings
import CiWorkflow.Proofs.Toml.Section

/-!
# What a settings file says

A settings file is TOML whose section for the generator, if there is one, has known fields only, each with a value of
its kind. Loading fails exactly if the file is there and cannot be read, is no such text, or breaks a rule. The rules
are about fields that nothing but the file gives.
-/
set_option autoImplicit false

namespace CiWorkflow

open Render

/-- What a settings file says of each field, if it says anything. -/
structure FileSettings where
  sourceDir : Option String
  outputDir : Option String
  suffix : Option String
  header : Option String
  format : Option Format
  indent : Option Nat

namespace FileSettings

def empty : FileSettings := ⟨none, none, none, none, none, none⟩

/-- The suffix that a file gives or leaves as it is. -/
def usedSuffix (file : FileSettings) : String := file.suffix.getD GeneratorSettings.standard.suffix

def usedIndent (file : FileSettings) : Nat := file.indent.getD GeneratorSettings.standard.indent

def completed (file : FileSettings) : GeneratorSettings where
  sourceDir := file.sourceDir.getD GeneratorSettings.standard.sourceDir
  outputDir := file.outputDir.getD GeneratorSettings.standard.outputDir
  suffix := file.usedSuffix
  header := file.header.getD GeneratorSettings.standard.header
  format := file.format.getD GeneratorSettings.standard.format
  indent := file.usedIndent

structure IsSaidBy (file : FileSettings) (s : Toml.Section) : Prop where
  sourceDir : s.Says "src_dir" Toml.Value.IsText file.sourceDir
  outputDir : s.Says "out_dir" Toml.Value.IsText file.outputDir
  suffix : s.Says "suffix" Toml.Value.IsText file.suffix
  header : s.Says "header" Toml.Value.IsText file.header
  format : s.Says "format" (Toml.Value.IsChoice GeneratorSettings.formatWords) file.format
  indent : s.Says "indent" Toml.Value.IsCount file.indent

/-- The text is TOML, and its section for the generator, if it has one, has known fields with values of their kind. -/
inductive Decodes (text : String) : FileSettings → Prop where
  | absent {entries : Toml.Section} (h : Toml.read? text = some entries) (hnone : entries.lookup "generate" = none) :
      Decodes text empty
  | given {entries fields : Toml.Section} {v : Toml.Value} {file : FileSettings} (h : Toml.read? text = some entries)
      (hv : entries.lookup "generate" = some v) (hfields : Toml.IsSection GeneratorSettings.fieldNames v fields)
      (hfile : file.IsSaidBy fields) : Decodes text file

end FileSettings

theorem ofSection?_eq_some_iff {v : Toml.Value} {s : GeneratorSettings} : GeneratorSettings.ofSection? v = some s ↔
    ∃ fields file, Toml.IsSection GeneratorSettings.fieldNames v fields ∧ file.IsSaidBy fields ∧
      FileSettings.completed file = s := by
  simp only [GeneratorSettings.ofSection?, Option.bind_eq_bind, Option.bind_eq_some_iff, Toml.section?_eq_some_iff,
    Toml.Section.defaulted?_eq_some_iff Toml.Value.text?_eq_some_iff,
    Toml.Section.defaulted?_eq_some_iff Toml.Value.choice?_eq_some_iff,
    Toml.Section.defaulted?_eq_some_iff Toml.Value.count?_eq_some_iff]
  constructor
  · rintro ⟨fields, hfields, _, ⟨sourceDir, hsource, rfl⟩, _, ⟨outputDir, houtput, rfl⟩, _, ⟨suffix, hsuffix, rfl⟩, _,
      ⟨header, hheader, rfl⟩, _, ⟨format, hformat, rfl⟩, _, ⟨indent, hindent, rfl⟩, hs⟩
    exact ⟨fields, ⟨sourceDir, outputDir, suffix, header, format, indent⟩, hfields,
      ⟨hsource, houtput, hsuffix, hheader, hformat, hindent⟩, Option.some.inj hs⟩
  · rintro ⟨fields, file, hfields, hfile, rfl⟩
    exact ⟨fields, hfields, _, ⟨_, hfile.sourceDir, rfl⟩, _, ⟨_, hfile.outputDir, rfl⟩, _, ⟨_, hfile.suffix, rfl⟩, _,
      ⟨_, hfile.header, rfl⟩, _, ⟨_, hfile.format, rfl⟩, _, ⟨_, hfile.indent, rfl⟩, rfl⟩

/-- A text decodes exactly if it can be read, and with standard values in addition both give the same settings. -/
theorem exists_ofText?_iff {text : String} {s : GeneratorSettings} :
    (∃ found, GeneratorSettings.ofText? text = some found ∧ found.getD .standard = s) ↔
      ∃ file, FileSettings.Decodes text file ∧ file.completed = s := by
  rw [GeneratorSettings.ofText?]
  constructor
  · rintro ⟨found, hfound, rfl⟩
    obtain ⟨entries, hentries, hfound⟩ := Option.bind_eq_some_iff.mp hfound
    rw [Toml.Section.optional?] at hfound
    split at hfound
    · rename_i hnone
      cases hfound
      exact ⟨.empty, .absent hentries hnone, rfl⟩
    · rename_i v hv
      obtain ⟨s, hs, rfl⟩ := Option.map_eq_some_iff.mp hfound
      obtain ⟨fields, file, hfields, hfile, rfl⟩ := ofSection?_eq_some_iff.mp hs
      exact ⟨file, .given hentries hv hfields hfile, rfl⟩
  · rintro ⟨file, ⟨hentries, hnone⟩ | ⟨hentries, hv, hfields, hfile⟩, rfl⟩
    · exact ⟨none, by simp [hentries, Toml.Section.optional?, hnone], rfl⟩
    · have hs := ofSection?_eq_some_iff.mpr ⟨_, _, hfields, hfile, rfl⟩
      exact ⟨some file.completed, by simp [hentries, Toml.Section.optional?, hv, hs], rfl⟩

theorem FileSettings.not_decodes_of_unknown {text name : String} {entries fields : Toml.Section} {v : Toml.Value}
    (hentries : Toml.read? text = some entries) (hfields : entries.lookup "generate" = some (.table fields))
    (hname : (name, v) ∈ fields) (hunknown : name ∉ GeneratorSettings.fieldNames) :
    ¬ ∃ file, FileSettings.Decodes text file := by
  rintro ⟨file, ⟨h, hnone⟩ | ⟨h, hv, hsection, -⟩⟩
  · obtain rfl := Option.some.inj (hentries.symm.trans h)
    cases hnone.symm.trans hfields
  · obtain rfl := Option.some.inj (hentries.symm.trans h)
    obtain rfl := Option.some.inj (hfields.symm.trans hv)
    cases hsection with
    | table hknown => exact hunknown (hknown _ hname)

theorem ofText?_eq_none_iff {text : String} :
    GeneratorSettings.ofText? text = none ↔ ¬ ∃ file, FileSettings.Decodes text file := by
  rw [Option.eq_none_iff_forall_ne_some]
  constructor
  · rintro h ⟨file, hfile⟩
    obtain ⟨found, hfound, -⟩ := exists_ofText?_iff.mpr ⟨file, hfile, rfl⟩
    exact h found hfound
  · intro h found hfound
    obtain ⟨file, hfile, -⟩ := exists_ofText?_iff.mp ⟨found, hfound, rfl⟩
    exact h ⟨file, hfile⟩

/-- What a project's settings file says. A file that is not there says nothing. -/
inductive Tree.HasFileSettings (t : Tree) (root : String) : FileSettings → Prop where
  | absent (h : t.content? (Path.join root settingsFileName) = none) : HasFileSettings t root .empty
  | present {text : String} {file : FileSettings} (h : t.content? (Path.join root settingsFileName) = some (.ok text))
      (hfile : FileSettings.Decodes text file) : HasFileSettings t root file

theorem keepsRules_standard : KeepsRules GeneratorSettings.standard.suffix GeneratorSettings.standard.indent :=
  (fault?_eq_none_iff _).mp (by decide)

theorem GeneratorSettings.checked_eq_error_iff {s : GeneratorSettings} {path : String} :
    (∃ fault, s.checked path = .error (.settings path fault)) ↔ ¬ KeepsRules s.suffix s.indent := by
  rw [checked, ← fault?_eq_none_iff]
  cases s.fault? <;> simp

theorem GeneratorSettings.checked_ne_io_error {s : GeneratorSettings} {path path' : String} {fault : FileFault} :
    s.checked path ≠ .error (.io path' fault) := by
  rw [checked]
  cases s.fault? <;> simp

namespace Tree

variable {t : Tree} {root path : String} {vars : Variables}

theorem exists_inFile_iff {s : GeneratorSettings} :
    (∃ found, t.inFile (Path.join root settingsFileName) = .ok found ∧ found.getD .standard = s) ↔
      ∃ file, t.HasFileSettings root file ∧ file.completed = s := by
  rw [inFile]
  constructor
  · rintro ⟨found, hfound, rfl⟩
    split at hfound
    · rename_i hcontent
      cases hfound
      exact ⟨.empty, .absent hcontent, rfl⟩
    · cases hfound
    · rename_i text hcontent
      split at hfound
      · cases hfound
      · rename_i hread
        cases hfound
        obtain ⟨file, hfile, hcompleted⟩ := exists_ofText?_iff.mp ⟨_, hread, rfl⟩
        exact ⟨file, .present hcontent hfile, hcompleted⟩
  · rintro ⟨file, hcontent | ⟨hcontent, hfile⟩, rfl⟩
    · exact ⟨none, by rw [hcontent], rfl⟩
    · obtain ⟨found, hread, hcompleted⟩ := exists_ofText?_iff.mpr ⟨file, hfile, rfl⟩
      exact ⟨found, by simp only [hcontent, hread], hcompleted⟩

theorem exists_inFile_error_iff : (∃ fault, t.inFile path = .error (.settings path fault)) ↔
    ∃ text, t.content? path = some (.ok text) ∧ ¬ ∃ file, FileSettings.Decodes text file := by
  simp only [← ofText?_eq_none_iff]
  rw [inFile]
  split
  · rename_i hcontent
    simp [hcontent]
  · rename_i hcontent
    simp [hcontent]
  · rename_i text hcontent
    cases hread : GeneratorSettings.ofText? text <;> simp [hcontent, hread]

theorem inFile_eq_io_error_iff {fault : FileFault} :
    t.inFile path = .error (.io path fault) ↔ t.content? path = some (.error fault) := by
  rw [inFile]
  split
  · rename_i hcontent
    simp [hcontent]
  · rename_i hcontent
    simp [hcontent]
  · rename_i text hcontent
    rw [hcontent]
    cases GeneratorSettings.ofText? text <;> simp

/-- Loading succeeds exactly if the settings file says something that keeps the rules. -/
theorem settings_eq_ok_iff {s : GeneratorSettings} : t.settings root vars = .ok s ↔
    ∃ file, t.HasFileSettings root file ∧ KeepsRules file.usedSuffix file.usedIndent ∧
      file.completed.withVariables vars = s := by
  rw [settings_eq, bind_eq_ok]
  constructor
  · rintro ⟨found, hfound, hchecked⟩
    obtain ⟨file, hfile, hcompleted⟩ := exists_inFile_iff.mp ⟨found, hfound, rfl⟩
    rw [← hcompleted, GeneratorSettings.checked_eq_ok_iff, fault?_eq_none_iff] at hchecked
    exact ⟨file, hfile, hchecked⟩
  · rintro ⟨file, hfile, hrules⟩
    obtain ⟨found, hfound, hcompleted⟩ := exists_inFile_iff.mpr ⟨file, hfile, rfl⟩
    refine ⟨found, hfound, ?_⟩
    rw [hcompleted, GeneratorSettings.checked_eq_ok_iff, fault?_eq_none_iff]
    exact hrules

/-- Loading fails for the settings exactly if the file does not decode or breaks a rule. -/
theorem exists_settings_error_iff :
    (∃ fault, t.settings root vars = .error (.settings (Path.join root settingsFileName) fault)) ↔
      ∃ text, t.content? (Path.join root settingsFileName) = some (.ok text) ∧
        ((¬ ∃ file, FileSettings.Decodes text file) ∨
          ∃ file, FileSettings.Decodes text file ∧ ¬ KeepsRules file.usedSuffix file.usedIndent) := by
  simp only [settings_eq, bind_eq_error, exists_or, exists_inFile_error_iff]
  constructor
  · rintro (⟨text, hcontent, hdecodes⟩ | ⟨fault, found, hfound, hchecked⟩)
    · exact ⟨text, hcontent, .inl hdecodes⟩
    · have hbroken := GeneratorSettings.checked_eq_error_iff.mp ⟨fault, hchecked⟩
      obtain ⟨file, hfile, hcompleted⟩ := exists_inFile_iff.mp ⟨found, hfound, rfl⟩
      rw [← hcompleted] at hbroken
      cases hfile with
      | absent => exact absurd keepsRules_standard hbroken
      | present hcontent hfile => exact ⟨_, hcontent, .inr ⟨file, hfile, hbroken⟩⟩
  · rintro ⟨text, hcontent, hdecodes | ⟨file, hfile, hbroken⟩⟩
    · exact .inl ⟨text, hcontent, hdecodes⟩
    · obtain ⟨found, hfound, hcompleted⟩ := exists_inFile_iff.mpr ⟨file, .present hcontent hfile, rfl⟩
      have hbroken' : ¬ KeepsRules ((found.getD .standard).withVariables vars).suffix
          ((found.getD .standard).withVariables vars).indent := by
        rw [hcompleted]
        exact hbroken
      obtain ⟨fault, hchecked⟩ := GeneratorSettings.checked_eq_error_iff.mpr hbroken'
      exact .inr ⟨fault, found, hfound, hchecked⟩

theorem settings_eq_io_error_iff {fault : FileFault} :
    t.settings root vars = .error (.io (Path.join root settingsFileName) fault) ↔
      t.content? (Path.join root settingsFileName) = some (.error fault) := by
  simp only [settings_eq, bind_eq_error, inFile_eq_io_error_iff, GeneratorSettings.checked_ne_io_error, and_false,
    exists_false, or_false]

end Tree

end CiWorkflow
