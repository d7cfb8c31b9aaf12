import CiWorkflow.Proofs.Text.Every
import CiWorkflow.Proofs.Text.Split
import CiWorkflow.Render.Marker
import CiWorkflow.Text.Dedent
import Mathlib.Data.List.Forall2
import Mathlib.Data.List.TakeWhile

/-!
# Scripts without their indentation

Line by line, a script loses the indentation of the first of its later lines that is not blank. That line has no space
in front afterwards, so nothing more is lost when the same is done again. Blank lines end up empty and no other line
changes at its end, which makes a script of ordinary characters fit for a literal block.
-/
set_option autoImplicit false

namespace CiWorkflow.Text

variable {line : List Char} {m n : Nat}

/-! ## One line -/

theorem take_of_le_leadingSpaces (h : m ≤ leadingSpaces line) : line.take m = List.replicate m ' ' := by
  refine List.eq_replicate_iff.mpr ⟨?_, fun c hc => ?_⟩
  · have hlength : leadingSpaces line ≤ line.length := (List.takeWhile_sublist _).length_le
    rw [List.length_take]
    omega
  · have hstart : line.take m <+: line.takeWhile (· = ' ') :=
      List.prefix_of_prefix_length_le (List.take_prefix m line) (List.takeWhile_prefix _)
        (Nat.le_trans (List.length_take_le m line) h)
    simpa using List.all_eq_true.mp List.all_takeWhile c (hstart.subset hc)

theorem split_leadingSpaces (h : m ≤ leadingSpaces line) : line = List.replicate m ' ' ++ line.drop m := by
  rw [← take_of_le_leadingSpaces h, List.take_append_drop]

theorem leadingSpaces_spaces_append (k : Nat) (rest : List Char) :
    leadingSpaces (List.replicate k ' ' ++ rest) = k + leadingSpaces rest := by
  simp [leadingSpaces, List.takeWhile_append_of_pos]

theorem isBlankLine_spaces_append (k : Nat) (rest : List Char) :
    isBlankLine (List.replicate k ' ' ++ rest) = isBlankLine rest := by
  have hspaces : (List.replicate k ' ').all isBlank = true := by
    rw [List.all_eq_true]
    intro c hc
    rw [List.eq_of_mem_replicate hc]
    decide
  rw [isBlankLine, List.all_append, hspaces, Bool.true_and, isBlankLine]

/-- A later line and what is left of it: nothing of a blank line, and of any other what stands behind those spaces in
front of it that it loses. -/
inductive Dedented (n : Nat) : List Char → List Char → Prop where
  | blank {line : List Char} (h : isBlankLine line = true) : Dedented n line []
  | text {line left : List Char} (h : isBlankLine line = false)
      (hline : line = List.replicate (min (leadingSpaces line) n) ' ' ++ left) : Dedented n line left

theorem dedented_dedentLine (n : Nat) (line : List Char) : Dedented n line (dedentLine n line) := by
  rw [dedentLine]
  cases h : isBlankLine line with
  | true => exact .blank h
  | false =>
    rw [if_neg (by simp), Nat.min_comm]
    exact .text h (split_leadingSpaces (Nat.min_le_left ..))

namespace Dedented

variable {left : List Char}

theorem isBlankLine_eq (h : Dedented n line left) : isBlankLine left = isBlankLine line := by
  cases h with
  | blank h => exact h.symm
  | text _ hline => exact (isBlankLine_spaces_append _ left).symm.trans (congrArg isBlankLine hline.symm)

theorem leadingSpaces_eq (h : Dedented n line left) (htext : isBlankLine line = false) :
    leadingSpaces left = leadingSpaces line - n := by
  cases h with
  | blank h => cases h.symm.trans htext
  | text _ hline =>
    have hcount : leadingSpaces line = min (leadingSpaces line) n + leadingSpaces left :=
      (congrArg leadingSpaces hline).trans (leadingSpaces_spaces_append _ left)
    omega

theorem of_ne_nil (h : Dedented n line left) (hne : left ≠ []) : isBlankLine line = false ∧ left <:+ line := by
  cases h with
  | blank _ => exact absurd rfl hne
  | text h hline => exact ⟨h, _, hline.symm⟩

end Dedented

theorem dedentLine_zero (h : isBlankLine line = true → line = []) : dedentLine 0 line = line := by
  rw [dedentLine]
  split
  · rename_i hblank
    exact (h hblank).symm
  · rw [Nat.zero_min, List.drop_zero]

theorem dedentLine_zero_dedentLine (n : Nat) (line : List Char) :
    dedentLine 0 (dedentLine n line) = dedentLine n line := by
  refine dedentLine_zero fun hblank => ?_
  rw [(dedented_dedentLine n line).isBlankLine_eq] at hblank
  rw [dedentLine, if_pos hblank]

/-! ## All lines -/

def bodyIndent (lines : List (List Char)) : Nat :=
  ((lines.find? fun l => !isBlankLine l).map leadingSpaces).getD 0

theorem dedentLines_cons (first : List Char) (rest : List (List Char)) :
    dedentLines (first :: rest) = dedentLine 0 first :: rest.map (dedentLine (bodyIndent rest)) := rfl

theorem bodyIndent_append {before after : List (List Char)} {body : List Char}
    (hbefore : ∀ l ∈ before, isBlankLine l = true) (hbody : isBlankLine body = false) :
    bodyIndent (before ++ body :: after) = leadingSpaces body := by
  have hnone : before.find? (fun l => !isBlankLine l) = none := by
    simpa [List.find?_eq_none] using hbefore
  simp [bodyIndent, List.find?_append, hnone, hbody]

theorem bodyIndent_dedented (lines : List (List Char)) :
    bodyIndent (lines.map (dedentLine (bodyIndent lines))) = 0 := by
  have hsame : ((fun l => !isBlankLine l) ∘ dedentLine (bodyIndent lines)) = fun l => !isBlankLine l := by
    funext l
    exact congrArg _ (dedented_dedentLine _ l).isBlankLine_eq
  rw [bodyIndent, List.find?_map, hsame]
  cases hbody : lines.find? fun l => !isBlankLine l with
  | none => rfl
  | some body =>
    have htext : isBlankLine body = false := by simpa using List.find?_some hbody
    have hindent : bodyIndent lines = leadingSpaces body := by rw [bodyIndent, hbody]; rfl
    have hleft := (dedented_dedentLine (bodyIndent lines) body).leadingSpaces_eq htext
    rw [Option.map_some, Option.map_some, Option.getD_some, hleft, hindent, Nat.sub_self]

theorem dedentLines_dedentLines (lines : List (List Char)) : dedentLines (dedentLines lines) = dedentLines lines := by
  cases lines with
  | nil => rfl
  | cons first rest =>
    rw [dedentLines_cons, dedentLines_cons, bodyIndent_dedented, dedentLine_zero_dedentLine, List.map_map]
    congr 2
    funext l
    exact dedentLine_zero_dedentLine _ l

theorem exists_source {lines : List (List Char)} (h : line ∈ dedentLines lines) (hne : line ≠ []) :
    ∃ source ∈ lines, isBlankLine source = false ∧ line <:+ source := by
  cases lines with
  | nil => cases h
  | cons first rest =>
    rcases List.mem_cons.mp h with rfl | h
    · exact ⟨first, List.mem_cons_self .., (dedented_dedentLine 0 first).of_ne_nil hne⟩
    · obtain ⟨source, hsource, rfl⟩ := List.mem_map.mp h
      exact ⟨source, List.mem_cons_of_mem _ hsource, (dedented_dedentLine _ source).of_ne_nil hne⟩

/-! ## Whole scripts -/

theorem length_splitAt (sep : Char) (cs : List Char) : (splitAt sep cs).length = cs.count sep + 1 := by
  induction cs with
  | nil => rfl
  | cons c cs ih =>
    obtain ⟨first, others, hcs⟩ := List.exists_cons_of_ne_nil (splitWhere_ne_nil (· = sep) cs)
    unfold splitAt at *
    rw [splitWhere, hcs, List.count_cons]
    rw [hcs] at ih
    by_cases hc : c = sep
    · simpa [hc] using ih
    · simpa [hc] using ih

theorem exists_piece_of_suffix {sep : Char} {cs back piece : List Char} (h : back <:+ cs)
    (hpiece : piece ∈ splitAt sep back) : ∃ whole ∈ splitAt sep cs, piece <:+ whole := by
  obtain ⟨front, rfl⟩ := h
  induction front with
  | nil => exact ⟨piece, hpiece, List.suffix_rfl⟩
  | cons c front ih =>
    obtain ⟨whole, hwhole, hsuffix⟩ := ih
    obtain ⟨first, others, hcs⟩ := List.exists_cons_of_ne_nil (splitWhere_ne_nil (· = sep) (front ++ back))
    unfold splitAt at *
    rw [List.cons_append, splitWhere]
    split
    · exact ⟨whole, List.mem_cons_of_mem _ hwhole, hsuffix⟩
    · rw [hcs] at hwhole ⊢
      rcases List.mem_cons.mp hwhole with rfl | hwhole
      · exact ⟨c :: whole, List.mem_cons_self .., hsuffix.trans (List.suffix_cons c whole)⟩
      · exact ⟨whole, List.mem_cons_of_mem _ hwhole, hsuffix⟩

theorem splitAt_dedent (script : String) :
    splitAt '\n' (dedent script).toList = dedentLines (splitAt '\n' (trimStart script.toList)) := by
  rw [dedent, String.toList_ofList]
  refine splitAt_intercalate ?_ fun line hline hfeed => ?_
  · obtain ⟨first, rest, hlines⟩ :=
      List.exists_cons_of_ne_nil (splitWhere_ne_nil (· = '\n') (trimStart script.toList))
    rw [splitAt, hlines, dedentLines_cons]
    simp
  · obtain ⟨source, hsource, -, hsuffix⟩ := exists_source hline (List.ne_nil_of_mem hfeed)
    exact not_mem_of_mem_splitAt hsource (hsuffix.mem hfeed)

/-- Without the blanks in front a script is empty, or its first line starts with another character. -/
theorem lines_trimStart (cs : List Char) :
    trimStart cs = [] ∨ ∃ c first rest, isBlank c = false ∧ splitAt '\n' (trimStart cs) = (c :: first) :: rest := by
  have hhead := head?_dropWhile isBlank cs
  rw [← trimStart] at hhead
  cases hcs : trimStart cs with
  | nil => exact .inl rfl
  | cons c tail =>
    rw [hcs] at hhead
    have hc : isBlank c = false := by simpa using hhead
    have hfeed : c ≠ '\n' := by
      rintro rfl
      cases hc
    obtain ⟨next, others, hsplit⟩ := List.exists_cons_of_ne_nil (splitWhere_ne_nil (· = '\n') tail)
    refine .inr ⟨c, next, others, hc, ?_⟩
    rw [splitAt, splitWhere, if_neg (by simpa using hfeed), hsplit]

theorem lines_dedent (script : String) :
    trimStart script.toList = [] ∧ dedent script = "" ∨
      ∃ c first rest, isBlank c = false ∧ splitAt '\n' (trimStart script.toList) = (c :: first) :: rest ∧
        splitAt '\n' (dedent script).toList = (c :: first) :: rest.map (dedentLine (bodyIndent rest)) := by
  obtain hcs | ⟨c, first, rest, hc, hlines⟩ := lines_trimStart script.toList
  · exact .inl ⟨hcs, by rw [dedent, hcs]; rfl⟩
  · refine .inr ⟨c, first, rest, hc, hlines, ?_⟩
    have htext : isBlankLine (c :: first) = true → c :: first = [] := fun hblank => by
      rw [isBlankLine, List.all_cons, hc] at hblank
      cases hblank
    rw [splitAt_dedent, hlines, dedentLines_cons, dedentLine_zero htext]

theorem head_dedent (script : String) : (dedent script).toList.head?.any isBlank = false := by
  obtain ⟨-, hempty⟩ | ⟨c, first, rest, hc, -, hlines⟩ := lines_dedent script
  · rw [hempty]
    rfl
  · obtain ⟨tail, htail⟩ := isPrefix_of_splitAt hlines
    rw [← htail]
    simpa using hc

theorem dedent_dedent (script : String) : dedent (dedent script) = dedent script := by
  have htrim : trimStart (dedent script).toList = (dedent script).toList :=
    dropWhile_eq_self (by simp [head_dedent])
  have hjoin : ['\n'].intercalate (splitAt '\n' (dedent script).toList) = (dedent script).toList := by
    rw [splitAt_eq_splitOn, List.intercalate_splitOn]
  calc
    dedent (dedent script) =
        String.ofList (['\n'].intercalate (dedentLines (splitAt '\n' (dedent script).toList))) := by
      rw [dedent, htrim]
    _ = String.ofList (['\n'].intercalate (splitAt '\n' (dedent script).toList)) := by
      rw [splitAt_dedent, dedentLines_dedentLines]
    _ = dedent script := by rw [hjoin, String.ofList_toList]

theorem count_dedent (script : String) : (dedent script).toList.count '\n' = (trimStart script.toList).count '\n' := by
  have hlength : (dedentLines (splitAt '\n' (trimStart script.toList))).length =
      (splitAt '\n' (trimStart script.toList)).length := by
    cases splitAt '\n' (trimStart script.toList) <;> simp [dedentLines]
  rw [← splitAt_dedent, length_splitAt, length_splitAt] at hlength
  omega

/-! ## Literal blocks -/

/-- A script of ordinary characters with some text in it, no line of which goes on with spaces or tabs behind its
text. -/
structure IsOrdinary (script : String) : Prop where
  text : ∃ line ∈ splitAt '\n' script.toList, isBlankLine line = false
  control : ∀ c ∈ script.toList, isControl c = true → c = '\n' ∨ c = '\t'
  separator : '\u2028' ∉ script.toList ∧ '\u2029' ∉ script.toList ∧ '\ufeff' ∉ script.toList
  ends : ∀ line ∈ splitAt '\n' script.toList, isBlankLine line = false →
    line.getLast? ≠ some ' ' ∧ line.getLast? ≠ some '\t'

variable {script : String}

theorem exists_line_of_mem (hline : line ∈ splitAt '\n' (dedent script).toList) (hne : line ≠ []) :
    ∃ source ∈ splitAt '\n' script.toList, isBlankLine source = false ∧ line <:+ source := by
  rw [splitAt_dedent] at hline
  obtain ⟨piece, hpiece, htext, hsuffix⟩ := exists_source hline hne
  obtain ⟨source, hsource, hwhole⟩ := exists_piece_of_suffix (isSuffix_trimStart script.toList) hpiece
  refine ⟨source, hsource, ?_, hsuffix.trans hwhole⟩
  rw [← Bool.not_eq_true, isBlankLine, List.all_eq_true] at htext ⊢
  exact fun hall => htext fun c hc => hall c (hwhole.mem hc)

theorem mem_of_mem_dedent {c : Char} (hc : c ∈ (dedent script).toList) : c = '\n' ∨ c ∈ script.toList := by
  by_cases hfeed : c = '\n'
  · exact .inl hfeed
  · obtain ⟨line, hline, hmem⟩ := exists_mem_splitAt hfeed hc
    obtain ⟨source, hsource, -, hsuffix⟩ := exists_line_of_mem hline (List.ne_nil_of_mem hmem)
    exact .inr (mem_of_mem_splitAt hsource (hsuffix.mem hmem))

theorem exists_text_of_isOrdinary (h : IsOrdinary script) : ∃ c ∈ (dedent script).toList, isBlank c = false := by
  obtain ⟨hempty, -⟩ | ⟨c, first, rest, hc, -, hlines⟩ := lines_dedent script
  · -- a line that is not blank would have stopped the trimming
    obtain ⟨line, hline, htext⟩ := h.text
    obtain ⟨c, hc, hblank⟩ := List.all_eq_false.mp htext
    rw [trimStart, List.dropWhile_eq_nil_iff] at hempty
    exact absurd (hempty c (mem_of_mem_splitAt hline hc)) hblank
  · exact ⟨c, (isPrefix_of_splitAt hlines).mem (List.mem_cons_self ..), hc⟩

theorem isBlockSafe_dedent (h : IsOrdinary script) : Render.isBlockSafe (dedent script) = true := by
  obtain ⟨text, htext, hblank⟩ := exists_text_of_isOrdinary h
  have hsome : (dedent script).toList.all isBlank = false := List.all_eq_false.mpr ⟨text, htext, by simp [hblank]⟩
  simp only [Render.isBlockSafe, hsome, Bool.not_false, Bool.true_and, Bool.and_eq_true, List.all_eq_true]
  constructor
  · intro c hc
    obtain rfl | hmem := mem_of_mem_dedent hc
    · rfl
    obtain ⟨hline, hparagraph, hmark⟩ := h.separator
    have hapart : c ≠ '\u2028' ∧ c ≠ '\u2029' ∧ c ≠ '\ufeff' :=
      ⟨fun hc => hline (hc ▸ hmem), fun hc => hparagraph (hc ▸ hmem), fun hc => hmark (hc ▸ hmem)⟩
    have hcontrol := h.control c hmem
    cases hkind : isControl c with
    | true => rcases hcontrol hkind with rfl | rfl <;> rfl
    | false =>
      have hnext : c ≠ '\u0085' := by
        rintro rfl
        cases hkind
      simp [hapart, hnext]
  · intro line hline
    cases hlast : line.getLast? with
    | none => rfl
    | some c =>
      have hne : line ≠ [] := by
        rintro rfl
        cases hlast
      obtain ⟨source, hsource, htext, hsuffix⟩ := exists_line_of_mem hline hne
      obtain ⟨hspace, htab⟩ := h.ends source hsource htext
      obtain ⟨front, rfl⟩ := hsuffix
      have hend : (front ++ line).getLast? = some c := by rw [List.getLast?_append, hlast]; rfl
      have hc : c ≠ ' ' ∧ c ≠ '\t' := ⟨fun hc => hspace (hc ▸ hend), fun hc => htab (hc ▸ hend)⟩
      simp [hc]

/-- Taking the indentation away keeps the number of lines behind the blanks in front, and the first line; every later
line loses the spaces in front that the first of them with text has, or all that it has, and blank lines become empty.
Once it is gone there is nothing more to take away. A script of ordinary characters becomes fit for a literal block and
starts with no blank. -/
theorem dedent_laws (script : String) :
    (dedent script).toList.count '\n' = (trimStart script.toList).count '\n' ∧
    (∃ first rest left n, splitAt '\n' (trimStart script.toList) = first :: rest ∧
      splitAt '\n' (dedent script).toList = first :: left ∧ List.Forall₂ (Dedented n) rest left ∧
      ∀ before body after, rest = before ++ body :: after → (∀ line ∈ before, isBlankLine line = true) →
        isBlankLine body = false → n = leadingSpaces body) ∧
    dedent (dedent script) = dedent script ∧
    (IsOrdinary script →
      Render.isBlockSafe (dedent script) = true ∧ (dedent script).toList.head?.any isBlank = false) := by
  refine ⟨count_dedent script, ?_, dedent_dedent script, fun h => ⟨isBlockSafe_dedent h, head_dedent script⟩⟩
  obtain ⟨hcs, hempty⟩ | ⟨c, first, rest, -, hlines, hleft⟩ := lines_dedent script
  · rw [hcs, hempty]
    refine ⟨[], [], [], 0, rfl, rfl, .nil, fun before body after hrest => ?_⟩
    simp at hrest
  · refine ⟨c :: first, rest, _, bodyIndent rest, hlines, hleft, ?_, ?_⟩
    · rw [List.forall₂_map_right_iff]
      exact List.forall₂_same.mpr fun line _ => dedented_dedentLine _ line
    · rintro before body after rfl hbefore hbody
      exact bodyIndent_append hbefore hbody

/-- A blank line in front of the one that tells the indentation, and behind it a line that starts with a tab and one
with fewer spaces. -/
theorem dedent_laws_shallow_line :
    IsOrdinary "\n    if x\n \t \n      then\n\t  y\n   fi\n" ∧
      Render.isBlockSafe "if x\n\nthen\n\t  y\nfi\n" = true := by
  have h : IsOrdinary "\n    if x\n \t \n      then\n\t  y\n   fi\n" :=
    ⟨by decide, forall_mem_of_all (by decide), by decide, by decide⟩
  exact ⟨h, ((dedent_laws _).2.2.2 h).1⟩

end CiWorkflow.Text
