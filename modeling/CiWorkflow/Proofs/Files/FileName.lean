import CiWorkflow.Proofs.Files.Path
import Mathlib.Data.List.TakeWhile

set_option autoImplicit false

namespace CiWorkflow

open Text

theorem IsName.toList_ne {name : String} (h : IsName name) :
    name.toList ≠ [] ∧ name.toList ≠ ['.'] ∧ name.toList ≠ ['.', '.'] :=
  ⟨fun heq => h.notEmpty (String.toList_inj.mp heq), fun heq => h.notSelf (String.toList_inj.mp heq),
    fun heq => h.notParent (String.toList_inj.mp heq)⟩

namespace Path

variable {name : String}

theorem length_start_le (cs : List Char) : (start cs).length ≤ 1 := by
  unfold start
  split <;> simp

theorem start_name (h : IsName name) : start name.toList = [] := by
  have hslash := h.noSlash
  have hself := h.toList_ne.2.1
  unfold start
  split <;> simp_all

theorem exists_pieces_join (dir : String) (h : IsName name) :
    ∃ front, pieces (join dir name).toList = front ++ [name.toList] := by
  suffices hsplit : ∃ front, splitAt '/' ((join dir name).toList.drop (start (join dir name).toList).length) =
      front ++ [name.toList] by
    obtain ⟨front, hfront⟩ := hsplit
    refine ⟨front, ?_⟩
    rw [pieces, hfront, dropVoidEnd, List.reverse_append, List.reverse_singleton, List.singleton_append,
      List.dropWhile_cons_of_neg (by simp [isVoid, h.toList_ne]), List.reverse_cons, List.reverse_reverse]
  obtain ⟨-, hjoin⟩ | ⟨front, -, hjoin⟩ := Tree.toList_join dir h
  · rw [hjoin, start_name h]
    exact ⟨[], splitAt_of_not_mem h.noSlash⟩
  · rw [hjoin]
    cases front with
    | nil => exact ⟨[], by simp [start, splitAt_of_not_mem h.noSlash]⟩
    | cons c front =>
      -- what the path starts at is at most one character, so it ends in front of the slash
      have hstart := length_start_le (c :: front ++ '/' :: name.toList)
      rw [List.drop_append_of_le_length (Nat.le_trans hstart (by simp)), splitAt_append,
        splitAt_of_not_mem h.noSlash]
      exact ⟨_, rfl⟩

theorem fileName?_join (dir : String) (h : IsName name) : fileName? (join dir name) = some name := by
  obtain ⟨front, hpieces⟩ := exists_pieces_join dir h
  simp [fileName?, hpieces, h.toList_ne]

theorem splitName_of_dot {stem ext : List Char} (h : name.toList = stem ++ '.' :: ext) (hext : '.' ∉ ext) :
    splitName name = if stem.isEmpty then (name.toList, none) else (stem, some ext) := by
  have hback : name.toList.reverse.takeWhile (· ≠ '.') = ext.reverse := by
    rw [h, List.reverse_append, List.reverse_cons, List.append_assoc, List.takeWhile_append_of_pos]
    · simp
    · intro c hc
      simpa using fun heq : c = '.' => hext (List.mem_reverse.mp (heq ▸ hc))
  have hfront : (name.toList.reverse.drop (ext.reverse.length + 1)).reverse = stem := by
    rw [h, List.drop_reverse, List.reverse_reverse]
    simp
  rw [splitName, hback, hfront, List.reverse_reverse]

theorem splitName_eq_some_iff {stem ext : List Char} :
    splitName name = (stem, some ext) ↔ name.toList = stem ++ '.' :: ext ∧ stem ≠ [] ∧ '.' ∉ ext := by
  constructor
  · intro h
    by_cases hdot : '.' ∈ name.toList.reverse
    · obtain ⟨back, front, hname, hback⟩ := List.eq_append_cons_of_mem hdot
      have hname : name.toList = front.reverse ++ '.' :: back.reverse := by
        simpa using congrArg List.reverse hname
      have hback : '.' ∉ back.reverse := fun hmem => hback (List.mem_reverse.mp hmem)
      rw [splitName_of_dot hname hback] at h
      split at h
      · cases h
      · rename_i hne
        cases h
        exact ⟨hname, by simpa using hne, hback⟩
    · have hall : name.toList.reverse.takeWhile (· ≠ '.') = name.toList.reverse :=
        List.takeWhile_eq_self_iff.mpr fun c hc => by simpa using fun heq : c = '.' => hdot (heq ▸ hc)
      have hnone : splitName name = (name.toList, none) := by
        simp only [splitName, hall]
        simp
      rw [hnone] at h
      cases h
  · rintro ⟨hname, hne, hext⟩
    rw [splitName_of_dot hname hext, if_neg (by simpa using hne)]

theorem stem_join (dir : String) {stem ext : String} (h : IsName (stem ++ "." ++ ext)) (hstem : stem ≠ "")
    (hext : '.' ∉ ext.toList) : Path.stem (join dir (stem ++ "." ++ ext)) = stem := by
  have hsplit : splitName (stem ++ "." ++ ext) = (stem.toList, some ext.toList) :=
    splitName_eq_some_iff.mpr ⟨by simp, by simpa using hstem, hext⟩
  simp only [Path.stem, fileName?_join dir h, hsplit, String.ofList_toList]

end Path

end CiWorkflow
