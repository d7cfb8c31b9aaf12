import CiWorkflow.Generate.Name
import CiWorkflow.Generate.Settings
import CiWorkflow.Proofs.Files.Path

set_option autoImplicit false

namespace CiWorkflow

open Text

theorem ofNat_ne_slash {n : Nat} (h : n ≠ 47) : Char.ofNat n ≠ '/' := by
  intro heq
  by_cases hn : n.isValidChar
  · rw [Char.ofNat, dif_pos hn] at heq
    exact h (congrArg Char.toNat heq)
  · rw [Char.ofNat, dif_neg hn] at heq
    cases heq

theorem images_above_slash : ∀ run ∈ lowercaseRuns, 47 < run.2.2.2 := by
  decide +kernel

theorem slash_not_mem_lowerChar {c : Char} (h : c ≠ '/') : '/' ∉ lowerChar c := by
  rw [lowerChar]
  split
  · decide
  · split
    · rename_i first _ _ image hfind
      have himage := images_above_slash _ (List.mem_of_find?_eq_some hfind)
      have hne : Char.ofNat (image + (c.toNat - first)) ≠ '/' := ofNat_ne_slash (by simp only at himage; omega)
      simpa using hne.symm
    · simpa using h.symm

theorem slash_not_mem_lowerAfter {before cs : List Char} (h : '/' ∉ cs) : '/' ∉ lowerAfter before cs := by
  induction cs generalizing before with
  | nil => simp [lowerAfter]
  | cons c cs ih =>
    rw [List.mem_cons, not_or] at h
    rw [lowerAfter, List.mem_append, not_or]
    refine ⟨?_, ih h.2⟩
    split
    · split <;> decide
    · exact slash_not_mem_lowerChar (Ne.symm h.1)

theorem mem_of_mem_foldBlanks {c : Char} {cs : List Char} (hc : c ≠ '-') (h : c ∈ foldBlanks cs) : c ∈ cs := by
  induction cs with
  | nil => exact h
  | cons d rest ih =>
    rw [foldBlanks] at h
    split at h
    · split at h
      · exact List.mem_cons_of_mem _ (ih h)
      · exact List.mem_cons_of_mem _ (ih ((List.mem_cons.mp h).resolve_left hc))
    · exact List.mem_cons.mpr ((List.mem_cons.mp h).imp_right ih)

theorem slash_not_mem_stem (path : String) : '/' ∉ (Path.stem path).toList := by
  rw [Path.stem]
  split
  · rename_i name hname
    have hslash : '/' ∉ name.toList := by
      rw [Path.fileName?] at hname
      split at hname
      · rename_i piece hpiece
        split at hname
        · cases hname
        · cases hname
          have hmem := List.mem_of_getLast? hpiece
          rw [Path.pieces, Path.dropVoidEnd, List.mem_reverse] at hmem
          rw [String.toList_ofList]
          exact not_mem_of_mem_splitAt (List.mem_reverse.mp ((List.dropWhile_suffix _).mem hmem))
      · cases hname
    rw [Path.splitName, String.toList_ofList]
    split
    · exact hslash
    · intro hmem
      exact hslash (List.mem_reverse.mp (List.mem_of_mem_drop (List.mem_reverse.mp hmem)))
  · simp

theorem slash_not_mem_dropMain {stem : String} (h : '/' ∉ stem.toList) : '/' ∉ (dropMain stem).toList := by
  rw [dropMain]
  split
  · rename_i cs hcs
    rw [stripSuffix?] at hcs
    split at hcs
    · cases hcs
      rw [String.toList_ofList]
      exact fun hmem => h (List.mem_of_mem_take hmem)
    · cases hcs
  · exact h

theorem suffix_outputFileName (stem suffix : String) :
    suffix.toList.isSuffixOf (outputFileName stem suffix).toList = true := by
  simp [outputFileName]

structure KeepsRules (suffix : String) (indent : Nat) : Prop where
  notBlank : ∃ c ∈ suffix.toList, isBlank c = false
  noSeparator : '/' ∉ suffix.toList ∧ '\\' ∉ suffix.toList
  extension : ".yml".toList <:+ suffix.toList ∨ ".yaml".toList <:+ suffix.toList
  indent : 1 ≤ indent ∧ indent ≤ 8

theorem fault?_eq_none_iff (s : GeneratorSettings) : s.fault? = none ↔ KeepsRules s.suffix s.indent := by
  have hblank : isBlankText s.suffix = false ↔ ∃ c ∈ s.suffix.toList, isBlank c = false := by simp [isBlankText]
  have hseparator : (s.suffix.toList.any fun c => c = '/' || c = '\\') = false ↔
      '/' ∉ s.suffix.toList ∧ '\\' ∉ s.suffix.toList := by
    simp only [List.any_eq_false, Bool.or_eq_true, decide_eq_true_eq]
    grind
  have hextension : (GeneratorSettings.endsIn ".yml" s.suffix || GeneratorSettings.endsIn ".yaml" s.suffix) = true ↔
      ".yml".toList <:+ s.suffix.toList ∨ ".yaml".toList <:+ s.suffix.toList := by
    simp only [GeneratorSettings.endsIn, Bool.or_eq_true, List.isSuffixOf_iff_suffix]
  have hindent : (1 ≤ s.indent && s.indent ≤ 8) = true ↔ 1 ≤ s.indent ∧ s.indent ≤ 8 := by simp
  have hrules : s.fault? = none ↔ isBlankText s.suffix = false ∧
      (s.suffix.toList.any fun c => c = '/' || c = '\\') = false ∧
      (GeneratorSettings.endsIn ".yml" s.suffix || GeneratorSettings.endsIn ".yaml" s.suffix) = true ∧
      (1 ≤ s.indent && s.indent ≤ 8) = true := by
    rw [GeneratorSettings.fault?]
    grind
  rw [hrules, hblank, hseparator, hextension, hindent]
  exact ⟨fun ⟨hb, hs, he, hi⟩ => ⟨hb, hs, he, hi⟩, fun ⟨hb, hs, he, hi⟩ => ⟨hb, hs, he, hi⟩⟩

structure IsSuffix (suffix : String) : Prop where
  noSlash : '/' ∉ suffix.toList
  extension : GeneratorSettings.endsIn ".yml" suffix = true ∨ GeneratorSettings.endsIn ".yaml" suffix = true

namespace IsSuffix

theorem of_fault {s : GeneratorSettings} (h : s.fault? = none) : IsSuffix s.suffix := by
  have hrules := (fault?_eq_none_iff s).mp h
  refine ⟨hrules.noSeparator.1, ?_⟩
  simpa only [GeneratorSettings.endsIn, List.isSuffixOf_iff_suffix] using hrules.extension

variable {suffix : String}

theorem not_suffix_of_not {name : String} (h : IsSuffix suffix) (hyml : GeneratorSettings.endsIn ".yml" name = false)
    (hyaml : GeneratorSettings.endsIn ".yaml" name = false) : suffix.toList.isSuffixOf name.toList = false := by
  rw [Bool.eq_false_iff]
  intro hname
  have hsuffix := List.isSuffixOf_iff_suffix.mp hname
  rw [GeneratorSettings.endsIn] at hyml hyaml
  obtain hends | hends := h.extension
  · rw [List.isSuffixOf_iff_suffix.mpr ((List.isSuffixOf_iff_suffix.mp hends).trans hsuffix)] at hyml
    cases hyml
  · rw [List.isSuffixOf_iff_suffix.mpr ((List.isSuffixOf_iff_suffix.mp hends).trans hsuffix)] at hyaml
    cases hyaml

theorem isName_outputFileName (h : IsSuffix suffix) (source : String) :
    IsName (outputFileName (Path.stem source) suffix) := by
  have hends := suffix_outputFileName (Path.stem source) suffix
  have hne : ∀ name : String, GeneratorSettings.endsIn ".yml" name = false →
      GeneratorSettings.endsIn ".yaml" name = false → outputFileName (Path.stem source) suffix ≠ name := by
    rintro name hyml hyaml rfl
    rw [h.not_suffix_of_not hyml hyaml] at hends
    cases hends
  refine ⟨?_, hne "" (by decide) (by decide), hne "." (by decide) (by decide), hne ".." (by decide) (by decide)⟩
  rw [outputFileName, String.toList_append, String.toList_ofList, List.mem_append, not_or]
  refine ⟨fun hmem => ?_, h.noSlash⟩
  have hlower := mem_of_mem_foldBlanks (by decide) hmem
  rw [lowercase, String.toList_ofList] at hlower
  exact slash_not_mem_lowerAfter (slash_not_mem_dropMain (slash_not_mem_stem source)) hlower

end IsSuffix

end CiWorkflow
