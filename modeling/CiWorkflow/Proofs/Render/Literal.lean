import CiWorkflow.Proofs.Text.Every
import CiWorkflow.Proofs.Text.Split
import CiWorkflow.Render.Block
import CiWorkflow.Yaml.Token.Block

set_option autoImplicit false

namespace CiWorkflow.Render

open Text
open Yaml (Chomp)

/-! ## Final line feeds -/

theorem splitTrailing_eq (cs : List Char) :
    ∃ body n, splitTrailing cs = (body, n) ∧ cs = body ++ List.replicate n '\n' ∧ body.getLast? ≠ some '\n' := by
  have hbody : dropEndWhile (· = '\n') cs ++ (cs.reverse.takeWhile (· = '\n')).reverse = cs := by
    rw [dropEndWhile, ← List.reverse_append, List.takeWhile_append_dropWhile, List.reverse_reverse]
  have hfeeds : (cs.reverse.takeWhile (· = '\n')).reverse =
      List.replicate (cs.length - (dropEndWhile (· = '\n') cs).length) '\n' := by
    refine List.eq_replicate_iff.mpr ⟨?_, ?_⟩
    · have hlen := congrArg List.length hbody
      rw [List.length_append] at hlen
      omega
    · intro c hc
      simpa using List.all_eq_true.mp List.all_takeWhile c (List.mem_reverse.mp hc)
  refine ⟨_, _, rfl, ?_, ?_⟩
  · rw [← hfeeds, hbody]
  · have hhead := head?_dropWhile (· = '\n') cs.reverse
    intro hlast
    rw [dropEndWhile, List.getLast?_reverse] at hlast
    simp [hlast] at hhead

/-! ## Chomping -/

/-- The text of a block from its lines, each with its line feed. -/
def chomped : Chomp → List Char → List Char
  | .strip, cs => dropEndWhile (· = '\n') cs
  | .clip, cs => dropEndWhile (· = '\n') cs ++ ['\n']
  | .keep, cs => cs

def chompText : Chomp → List Char
  | .strip => ['-']
  | .clip => []
  | .keep => ['+']

theorem dropEndWhile_concat {body : List Char} (h : body.getLast? ≠ some '\n') :
    dropEndWhile (· = '\n') (body ++ ['\n']) = body := by
  have hbody : ¬ body.getLast?.any (· = '\n') = true := by
    cases hlast : body.getLast? <;> simp_all
  rw [dropEndWhile, List.reverse_append, List.reverse_singleton, List.singleton_append,
    List.dropWhile_cons_of_pos (by simp)]
  exact dropEndWhile_eq_self hbody

/-- One line feed of a text ends its last line; the sign tells of the others. -/
theorem exists_chomp {body : List Char} (h : body.getLast? ≠ some '\n') (n : Nat) :
    ∃ chomp, chompSign n = chompText chomp ∧
      chomped chomp (body ++ '\n' :: List.replicate (n - 1) '\n') = body ++ List.replicate n '\n' := by
  match n with
  | 0 => exact ⟨.strip, rfl, by simpa [chomped] using dropEndWhile_concat h⟩
  | 1 => exact ⟨.clip, rfl, by simp [chomped, dropEndWhile_concat h]⟩
  | n + 2 => exact ⟨.keep, rfl, rfl⟩

/-! ## The lines of a block -/

/-- The column of the `run` key behind its spaces and dashes. -/
def keyColumn (lead dashes : Nat) : Nat := lead + 2 * dashes

/-- The `run` entry up to the signs of its block. -/
def entryStart (lead dashes : Nat) : List Char :=
  spaces lead ++ (List.replicate dashes ['-', ' ']).flatten ++ "run: |".toList

def padded (column : Nat) (line : List Char) : List Char := if line.isEmpty then [] else spaces column ++ line

def blockLines (column : Nat) (body : List Char) (n : Nat) : List (List Char) :=
  (splitAt '\n' body).map (padded column) ++ List.replicate (n - 1) []

section BlockLines

variable {column n : Nat} {body : List Char}

theorem drop_padded (column : Nat) (line : List Char) : (padded column line).drop column = line := by
  unfold padded
  split
  · simp_all
  · simp [spaces]

theorem flatMap_replicate {α β : Type} (f : α → List β) {a : α} {b : β} (h : f a = [b]) (n : Nat) :
    (List.replicate n a).flatMap f = List.replicate n b := by
  induction n with
  | zero => rfl
  | succ n ih => rw [List.replicate_succ, List.flatMap_cons, h, ih, List.replicate_succ, List.singleton_append]

theorem mem_blockLines {l : List Char} (h : l ∈ blockLines column body n) :
    l = [] ∨ ∃ content, content ≠ [] ∧ '\n' ∉ content ∧ l = spaces column ++ content := by
  obtain h | h := List.mem_append.mp h
  · obtain ⟨piece, hpiece, rfl⟩ := List.mem_map.mp h
    unfold padded
    split
    · exact .inl rfl
    · rename_i hne
      exact .inr ⟨piece, by simpa using hne, not_mem_of_mem_splitAt hpiece, rfl⟩
  · exact .inl (List.eq_of_mem_replicate h)

theorem not_mem_of_mem_blockLines {l : List Char} (h : l ∈ blockLines column body n) : '\n' ∉ l := by
  obtain rfl | ⟨content, -, hcontent, rfl⟩ := mem_blockLines h
  · simp
  · simp [spaces, hcontent]

theorem unpad_blockLines (column : Nat) (body : List Char) (n : Nat) :
    (blockLines column body n).flatMap (fun l => l.drop column ++ ['\n']) =
      body ++ '\n' :: List.replicate (n - 1) '\n' := by
  have hfeed : ([] : List Char).drop column ++ ['\n'] = ['\n'] := by simp
  rw [blockLines, List.flatMap_append, List.flatMap_map,
    flatMap_replicate (fun (l : List Char) => l.drop column ++ ['\n']) hfeed]
  simp only [drop_padded, flatMap_splitAt]
  simp

end BlockLines

theorem literalEntry_eq (lead dashes indent : Nat) {script : String} {body : List Char} {n : Nat}
    (h : splitTrailing script.toList = (body, n)) :
    literalEntry lead dashes indent script =
      (entryStart lead dashes ++ indentSign (max indent 1) (splitAt '\n' body) ++ chompSign n) ++ '\n' ::
        (blockLines (keyColumn lead dashes + max indent 1) body n).flatMap (· ++ ['\n']) := by
  have hfeed : ([] : List Char) ++ ['\n'] = ['\n'] := rfl
  simp only [literalEntry, h, entryStart, keyColumn, blockLines, List.flatMap_append, List.flatMap_map, padded,
    flatMap_replicate (· ++ ['\n']) hfeed]
  simp

theorem isDigit_of_mem_indentSign {width : Nat} {lines : List (List Char)} {c : Char}
    (h : c ∈ indentSign width lines) : c.isDigit = true := by
  unfold indentSign at h
  split at h
  · rw [Nat.toString_eq_repr, Nat.toList_repr] at h
    exact Nat.isDigit_of_mem_toDigits (by decide) (by decide) h
  · cases h

theorem mem_entryStart {lead dashes : Nat} {c : Char} (h : c ∈ entryStart lead dashes) : c ∈ "- run: |".toList := by
  simp only [entryStart, List.mem_append, List.mem_flatten, List.mem_replicate, spaces] at h
  rcases h with (⟨-, rfl⟩ | ⟨l, ⟨-, rfl⟩, hl⟩) | h
  · decide
  · exact (Text.forall_mem_of_all (by decide) : ∀ c ∈ ['-', ' '], c ∈ "- run: |".toList) c hl
  · exact (Text.forall_mem_of_all (by decide) : ∀ c ∈ "run: |".toList, c ∈ "- run: |".toList) c h

theorem not_mem_header {lead dashes : Nat} {indicator : List Char} (h : ∀ c ∈ indicator, c.isDigit = true)
    (chomp : Chomp) : '\n' ∉ entryStart lead dashes ++ indicator ++ chompText chomp := by
  have hstart : '\n' ∉ entryStart lead dashes := fun hmem => absurd (mem_entryStart hmem) (by decide)
  have hsign : '\n' ∉ chompText chomp := by cases chomp <;> decide
  have hindicator : '\n' ∉ indicator := fun hc => absurd (h _ hc) (by decide)
  simp [hstart, hsign, hindicator]

/-- A literal block is a header and lines that are empty or padded to the column of the block; without the
padding, and with the line feeds at the end that the header asks for, the lines are the script. -/
theorem literalEntry_lines (lead dashes indent : Nat) (script : String) :
    ∃ indicator chomp lines,
      splitAt '\n' (literalEntry lead dashes indent script) =
        (entryStart lead dashes ++ indicator ++ chompText chomp) :: (lines ++ [[]]) ∧
      (∀ c ∈ indicator, c.isDigit = true) ∧
      (∀ l ∈ lines, l = [] ∨ ∃ content, content ≠ [] ∧
        l = spaces (keyColumn lead dashes + max indent 1) ++ content) ∧
      chomped chomp (lines.flatMap fun l => l.drop (keyColumn lead dashes + max indent 1) ++ ['\n']) =
        script.toList := by
  obtain ⟨body, n, hsplit, hscript, hlast⟩ := splitTrailing_eq script.toList
  obtain ⟨chomp, hsign, hchomp⟩ := exists_chomp hlast n
  refine ⟨indentSign (max indent 1) (splitAt '\n' body), chomp,
    blockLines (keyColumn lead dashes + max indent 1) body n, ?_, fun _ => isDigit_of_mem_indentSign, ?_, ?_⟩
  · rw [literalEntry_eq lead dashes indent hsplit, hsign, splitAt_append,
      splitAt_of_not_mem (not_mem_header (fun _ => isDigit_of_mem_indentSign) chomp),
      splitAt_flatMap fun _ => not_mem_of_mem_blockLines]
    rfl
  · intro l hl
    exact (mem_blockLines hl).imp id fun ⟨content, hne, _, heq⟩ => ⟨content, hne, heq⟩
  · rw [unpad_blockLines, hchomp, hscript]

end CiWorkflow.Render
