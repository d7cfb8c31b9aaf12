import CiWorkflow.Proofs.Render.Restored
import CiWorkflow.Proofs.Yaml.AtPlace

set_option autoImplicit false

namespace CiWorkflow.Render

open Text Yaml Yaml.Scanner Position

def scriptBlock (column indent : Nat) (script : String) : List Char :=
  let (body, trailing) := splitTrailing script.toList
  '|' :: (indentSign (max indent 1) (splitAt '\n' body) ++ chompSign trailing) ++ '\n' ::
    (blockLines (column + max indent 1) body trailing).flatMap (· ++ ['\n'])

theorem literalEntry_eq_scriptBlock (lead dashes indent : Nat) (script : String) :
    literalEntry lead dashes indent script = spaces lead ++ ((List.replicate dashes ['-', ' ']).flatten ++
      ("run: ".toList ++ scriptBlock (keyColumn lead dashes) indent script)) := by
  obtain ⟨body, n, hsplit, -, -⟩ := splitTrailing_eq script.toList
  rw [literalEntry_eq lead dashes indent hsplit, scriptBlock, hsplit]
  simp [entryStart]

theorem scriptBlock_ends (column indent : Nat) (script : String) :
    ∃ cs, scriptBlock column indent script = cs ++ ['\n'] := Blocks.lines_end _ _

def StartsWithTab (script : String) : Prop := script.toList.find? (· ≠ '\n') = some '\t'

instance (script : String) : Decidable (StartsWithTab script) :=
  inferInstanceAs (Decidable (script.toList.find? (· ≠ '\n') = some '\t'))

/-! ## The lines of a block -/

section Lines

variable {column : Nat} {body : List Char}

theorem indentLines_inLine {line : List Char} (h : ∀ c ∈ line, isBreak c = false) (rest : List Char) :
    indentLines column false (line ++ rest) = line ++ indentLines column false rest := by
  induction line with
  | nil => rfl
  | cons c line ih =>
    rw [List.cons_append, indentLines, if_neg (by simp [h c (by simp)]), ih fun d hd => h d (by simp [hd])]
    rfl

theorem indentLines_line (column : Nat) {line : List Char} (h : ∀ c ∈ line, isBreak c = false) (rest : List Char) :
    indentLines column true (line ++ '\n' :: rest) = padded column line ++ '\n' :: indentLines column true rest := by
  have hfeed (fresh : Bool) : indentLines column fresh ('\n' :: rest) = '\n' :: indentLines column true rest := rfl
  cases line with
  | nil => exact hfeed true
  | cons c line =>
    rw [List.cons_append, indentLines, if_neg (by simp [h c (by simp)]),
      indentLines_inLine fun d hd => h d (by simp [hd]), hfeed]
    simp [padded, spaces, Yaml.spaces]

theorem indentLines_replicate (cs : List Char) (n : Nat) :
    indentLines column true (cs ++ List.replicate n '\n') = indentLines column true cs ++ List.replicate n '\n' := by
  induction n with
  | zero => simp
  | succ n ih => rw [List.replicate_succ', ← List.append_assoc, indentLines_concat _ _ rfl, ih, List.append_assoc]

theorem flatMap_padded (h : ∀ c ∈ body, isBreak c = true → c = '\n') :
    (splitAt '\n' body).flatMap (fun l => padded column l ++ ['\n']) = indentLines column true body ++ ['\n'] := by
  have hline {line : List Char} (hsub : ∀ c ∈ line, c ∈ body) (hfeed : '\n' ∉ line) :
      ∀ c ∈ line, isBreak c = false := by
    intro c hc
    refine Bool.eq_false_iff.mpr fun hb => hfeed ?_
    rwa [← h c (hsub c hc) hb]
  induction hlen : body.length using Nat.strong_induction_on generalizing body with
  | _ n ih =>
    obtain hone | ⟨line, rest, rfl, hone⟩ := line_cases body
    · have hindented := indentLines_line column (hline (fun _ hc => hc) hone) []
      rw [indentLines_concat _ _ rfl] at hindented
      rw [splitAt_of_not_mem hone, hindented]
      simp [indentLines]
    · have hrest := ih rest.length (by simp at hlen; omega) (fun c hc => h c (by simp [hc]))
        (fun hsub hfeed => hline (fun c hc => by simp [hsub c hc]) hfeed) rfl
      rw [splitAt_append, splitAt_of_not_mem hone, List.flatMap_append, hrest,
        indentLines_line column (hline (fun c hc => by simp [hc]) hone)]
      simp

theorem flatMap_blockLines (h : ∀ c ∈ body, isBreak c = true → c = '\n') (n : Nat) :
    (blockLines column body n).flatMap (· ++ ['\n']) =
      indentLines column true body ++ '\n' :: List.replicate (n - 1) '\n' := by
  have hfeed : ([] : List Char) ++ ['\n'] = ['\n'] := rfl
  rw [blockLines, List.flatMap_append, List.flatMap_map, flatMap_padded h, flatMap_replicate (· ++ ['\n']) hfeed]
  simp

theorem exists_chomps (hne : body ≠ []) (hlast : endsIn isBreak body = false) (column n : Nat) :
    ∃ chomp, chompSign n = chompText chomp ∧ Chomps (body ++ List.replicate n '\n') chomp ∧
      blockText column chomp (body ++ List.replicate n '\n') =
        indentLines column true body ++ '\n' :: List.replicate (n - 1) '\n' := by
  match n with
  | 0 =>
    refine ⟨.strip, rfl, ?_, by simp [blockText]⟩
    rw [List.replicate_zero, List.append_nil]
    exact ⟨hne, hlast⟩
  | 1 =>
    refine ⟨.clip, rfl, ⟨body, '\n', rfl, rfl, hne, hlast⟩, ?_⟩
    rw [blockText, indentLines_replicate, if_neg (by decide), List.append_nil]
    rfl
  | n + 2 =>
    refine ⟨.keep, rfl, ⟨body ++ List.replicate (n + 1) '\n', '\n', ?_, rfl, .inr ?_⟩, ?_⟩
    · rw [List.replicate_succ', List.append_assoc]
    · rw [List.replicate_succ', ← List.append_assoc, endsIn_concat]
      rfl
    · rw [blockText, indentLines_replicate, if_neg (by decide), List.append_nil]
      rfl

end Lines

section Safe

variable {script : String} (h : isBlockSafe script = true)

include h

theorem keepsChar_of_isBlockSafe : ∀ c ∈ script.toList, keepsChar c = true := by
  intro c hc
  have hfeed : c ≠ '\r' ∧ c ≠ '\u0085' := by
    constructor <;> · rintro rfl; cases isBreak_of_isBlockSafe h hc (by decide)
  simp [keepsChar, hfeed]

theorem isRawBreak_of_isBlockSafe : ∀ c ∈ script.toList, Json.isRawBreak c = false := by
  intro c hc
  refine Bool.eq_false_iff.mpr fun hraw => ?_
  have hfeed : c ≠ '\n' := by
    rintro rfl
    cases hraw
  have hbreak := Json.isBreak_of_rawBreak c hraw
  rw [isBreak_of_isBlockSafe h hc hfeed] at hbreak
  cases hbreak

theorem exists_scriptBlock (column indent : Nat) : ∃ hint chomp,
    scriptBlock column indent script =
      '|' :: (hint ++ (chompText chomp ++ '\n' :: blockText (column + max indent 1) chomp script.toList)) ∧
    Chomps script.toList chomp ∧
    (¬ StartsWithTab script → indent ≤ 9 →
      (hint = [] ∨ ∃ d : Char, hint = [d] ∧ d.isDigit = true ∧ d ≠ '0') ∧
      ∀ (q : Position) (rest : List Char), contentColumn? (some column) (q.cells (hint ++ (chompText chomp ++ '\n' ::
        (blockText (column + max indent 1) chomp script.toList ++ rest)))) = some (column + max indent 1)) := by
  obtain ⟨body, n, hsplit, hscript, hlast⟩ := splitTrailing_eq script.toList
  obtain ⟨c, hc, hbreak⟩ := exists_find_of_isBlockSafe h
  obtain ⟨others, hfirst⟩ := exists_firstLine (hscript ▸ hc)
  have hfeed : ∀ d ∈ body, isBreak d = true → d = '\n' := fun d hd hb => by
    refine Decidable.byContradiction fun hne => ?_
    rw [isBreak_of_isBlockSafe h (hscript ▸ List.mem_append_left _ hd) hne] at hb
    cases hb
  have hne : body ≠ [] := by
    rintro rfl
    simp [splitAt, splitWhere] at hfirst
  have hend : endsIn isBreak body = false := by
    refine Bool.eq_false_iff.mpr fun hb => ?_
    obtain ⟨d, hd, hb⟩ := (Option.any_eq_true _ _).mp hb
    rw [hd, hfeed d (List.mem_of_getLast? hd) hb] at hlast
    exact hlast rfl
  obtain ⟨chomp, hsign, hchomps, hlines⟩ := exists_chomps hne hend (column + max indent 1) n
  rw [← hscript] at hchomps hlines
  refine ⟨indentSign (max indent 1) (splitAt '\n' body), chomp, ?_, hchomps, fun htab hindent => ⟨?_, ?_⟩⟩
  · rw [scriptBlock, hsplit, hlines]
    simp [flatMap_blockLines hfeed, hsign]
  · rw [indentSign_eq hfirst]
    split
    · obtain ⟨d, hdigits, hd, hzero, -⟩ := toDigits_of_digit (n := max indent 1) (by omega) (by omega)
      exact .inr ⟨d, hdigits, hd, hzero⟩
    · exact .inl rfl
  · intro q rest
    have hcolumn := contentColumn_block hfirst hbreak column (show 0 < max indent 1 by omega) chomp
      (List.replicate (n - 1) '\n' ++ rest) q
    have hfits : ¬ (c = '\t' ∨ c = ' ' ∧ 9 < max indent 1) := by
      rintro (rfl | ⟨-, hwide⟩)
      · exact htab hc
      · omega
    rw [if_neg hfits, flatMap_padded hfeed] at hcolumn
    rw [hlines]
    simpa using hcolumn

section Reads

variable {cols : List Nat} {bare allowed : Bool} {ts : List Token} {q : Position} {rest : List Char}

theorem reads_scriptBlock {n indent : Nat} (htab : ¬ StartsWithTab script) (hindent : indent ≤ 9)
    (hat : AtPlace (.value n) cols q) (hrest : Follows cols.head? rest)
    (hfeed : rest = ['\n'] → ¬ EndsTwice (' ' :: scriptBlock n indent script)) :
    Reads bare cols allowed ts q (' ' :: scriptBlock n indent script) rest (.string script) := by
  obtain ⟨hint, chomp, htext, hchomps, hreads⟩ := exists_scriptBlock h n indent
  obtain ⟨hhint, hcontent⟩ := hreads htab hindent
  have hcolumn : ∀ m ∈ cols.head?, m < n + max indent 1 := by
    intro m hm
    rw [hat.around] at hm
    cases hm
    omega
  refine ⟨?_, [.scalar .literal script], ?_, ?_⟩
  · obtain ⟨cs, hcs⟩ := scriptBlock_ends n indent script
    rw [hcs, ← List.cons_append, endsIn_concat]
    rfl
  · have hmeans := means_text .literal (by decide) script.toList bare none legibleTag_none
    rwa [String.ofList_toList] at hmeans
  · have hblock := leads_blockText allowed ts hat.endsLine hhint
      (hat.around ▸ hcontent _ rest) hcolumn (by omega) (keepsChar_of_isBlockSafe h) hchomps hrest
      (fun hkeep heq => by
        subst hkeep
        refine hfeed heq ?_
        rw [htext]
        simpa using (endsTwice_blockText hchomps (n + max indent 1)).behind (' ' :: '|' :: (hint ++ chompText .keep)))
    rw [htext]
    simpa [Yaml.Place.gap, Yaml.spaces] using hblock

theorem reads_quotedScript {p : Yaml.Place} (hat : AtPlace p cols q) (hrest : Follows cols.head? rest) :
    Reads bare cols allowed ts q (p.gap ++ (Json.quoted script.toList ++ ['\n'])) rest (.string script) := by
  have hquoted : IsAtomText (Json.quoted script.toList) [.scalar .quoted (String.ofList script.toList)] :=
    .quoted (isQuoted_quoted (isRawBreak_of_isBlockSafe h)) (endsIn_concat _ _ _)
  have hreads : Reads bare cols allowed ts q (p.gap ++ (tagLead none ++ _)) rest _ :=
    reads_atom hquoted (means_text .quoted (by decide) script.toList) legibleTag_none hat hrest
  rwa [String.ofList_toList] at hreads

end Reads

end Safe

end CiWorkflow.Render
