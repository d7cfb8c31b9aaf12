import CiWorkflow.Proofs.Render.Literal
import CiWorkflow.Proofs.Yaml.BlockColumn
import CiWorkflow.Proofs.Yaml.Position

/-!
# The column of a literal block

A reader finds the column of a block that was written for a script in the header or in the first line that
is not empty. It is the column that the lines were padded to, unless the script starts with a tab, or with a
space where the padding is wider than one digit can tell.
-/
set_option autoImplicit false

namespace CiWorkflow.Render

open Text Yaml Yaml.Position

/-! ## The header -/

section Header

variable (q : Position) (chomp : Chomp) (rest : List Char)

theorem readChomp_cells : readChomp (q.cells (chompText chomp ++ '\n' :: rest)) =
    (chomp, (q.after (chompText chomp)).cells ('\n' :: rest)) := by
  have hfeed : (q.cell '\n').char = '\n' := rfl
  cases chomp <;>
    simp [chompText, readChomp, chompSign?, cells_cons _ '-', cells_cons _ '+', cells_cons _ '\n', cell_char, isBreak,
      hfeed]

theorem skipRestOfLine_newline : skipRestOfLine? (q.cells ('\n' :: rest)) = some ((q.next '\n').cells rest) := by
  have hblank : (q.cell '\n').isBlank = false := rfl
  have hend : (q.cell '\n').isLineEnd = true := rfl
  have hfeed : (q.cell '\n').char = '\n' := rfl
  rw [cells_cons q '\n' rest (by decide)]
  simp [skipRestOfLine?, skipBlanks, hblank, hend, nextIs, hfeed]

theorem readIncrement_newline : readIncrement? (q.cells ('\n' :: rest)) = some (none, q.cells ('\n' :: rest)) := by
  have hfeed : (q.cell '\n').char = '\n' := rfl
  rw [cells_cons q '\n' rest (by decide)]
  simp [readIncrement?, hfeed]

theorem ne_of_isDigit {d x : Char} (h : d.isDigit = true) (hx : x.isDigit = false) : d ≠ x := by
  rintro rfl
  simp [h] at hx

section Digit

variable {d : Char} (hd : d.isDigit = true)

include hd

theorem isBreak_of_isDigit : isBreak d = false := by
  simp [isBreak, ne_of_isDigit hd]

theorem cells_digit : q.cells (d :: rest) = q.cell d :: (q.next d).cells rest :=
  cells_cons q d rest (ne_of_isDigit hd (by decide))

theorem readChomp_digit : readChomp (q.cells (d :: rest)) = (.clip, q.cells (d :: rest)) := by
  rw [cells_digit q rest hd, readChomp, cell_char q d (isBreak_of_isDigit hd)]
  simp [chompSign?, ne_of_isDigit hd]

theorem readIncrement_digit : readIncrement? (q.cells (d :: rest)) =
    if d = '0' then none else some (some (d.toNat - '0'.toNat), (q.next d).cells rest) := by
  rw [cells_digit q rest hd, readIncrement?, cell_char q d (isBreak_of_isDigit hd), if_pos hd]

theorem skipRestOfLine_digit : skipRestOfLine? (q.cells (d :: rest)) = none := by
  have hblank : (q.cell d).isBlank = false := by simp [isSpaceOrTab, ne_of_isDigit hd]
  have hend : (q.cell d).isLineEnd = false := by simp [isBreak_of_isDigit hd]
  rw [cells_digit q rest hd]
  simp [skipRestOfLine?, skipBlanks, hblank, hend, nextIs, cell_char q d (isBreak_of_isDigit hd), ne_of_isDigit hd]

end Digit

theorem readHeader_unindented :
    readHeader? (q.cells (chompText chomp ++ '\n' :: rest)) =
      some (⟨chomp, none⟩, ((q.after (chompText chomp)).next '\n').cells rest) := by
  have hclip := readChomp_cells (q.after (chompText chomp)) .clip rest
  rw [chompText, List.nil_append, after_nil] at hclip
  simp only [readHeader?, readChomp_cells, readIncrement_newline, Option.bind_eq_bind, Option.bind_some]
  cases chomp
  · simp only [reduceCtorEq, if_false, skipRestOfLine_newline, Option.bind_some]
    rfl
  · simp only [if_true, hclip, skipRestOfLine_newline, Option.bind_some]
    rfl
  · simp only [reduceCtorEq, if_false, skipRestOfLine_newline, Option.bind_some]
    rfl

theorem readHeader_digit {d : Char} (hd : d.isDigit = true) (hzero : d ≠ '0') :
    readHeader? (q.cells (d :: (chompText chomp ++ '\n' :: rest))) =
      some (⟨chomp, some (d.toNat - '0'.toNat)⟩, (((q.next d).after (chompText chomp)).next '\n').cells rest) := by
  simp only [readHeader?, readChomp_digit q _ hd, readIncrement_digit q _ hd, if_neg hzero, Option.bind_eq_bind,
    Option.bind_some, if_true, readChomp_cells, skipRestOfLine_newline]
  rfl

theorem readHeader_digits {a b : Char} (ha : a.isDigit = true) (hb : b.isDigit = true) :
    readHeader? (q.cells (a :: b :: rest)) = none := by
  simp only [readHeader?, readChomp_digit q _ ha, readIncrement_digit q _ ha, Option.bind_eq_bind]
  split
  · rfl
  · simp only [Option.bind_some, if_true, readChomp_digit _ rest hb, skipRestOfLine_digit _ rest hb, Option.bind_none]

end Header

/-! ## The first line -/

/-- The first line that is not empty starts with the first character that is no line feed. -/
theorem find?_splitAt (cs : List Char) :
    ((splitAt '\n' cs).find? fun l => !l.isEmpty).bind List.head? = cs.find? (· ≠ '\n') := by
  induction cs with
  | nil => rfl
  | cons c cs ih =>
    obtain ⟨first, others, hcs⟩ := List.exists_cons_of_ne_nil (splitWhere_ne_nil (· = '\n') cs)
    unfold splitAt at *
    rw [hcs] at ih
    rw [splitWhere, hcs]
    by_cases hc : c = '\n'
    · simpa [hc] using ih
    · simp [hc]

theorem firstColumn_padded {c : Char} (hspace : c ≠ ' ') (hbreak : isBreak c = false) (least seen n : Nat)
    (q : Position) (cs : List Char) :
    firstColumn? least seen (q.cells (spaces n ++ c :: cs)) =
      if c = '\t' then none else some (max (max seen (q.column + n)) least) := by
  induction n generalizing q seen with
  | zero =>
    have hcr : c ≠ '\r' := by
      rintro rfl
      cases hbreak
    have hspaces : spaces 0 ++ c :: cs = c :: cs := rfl
    rw [hspaces, cells_cons q c cs hcr, firstColumn?, cell_char q c hbreak, if_neg hspace]
    simp [hbreak]
  | succ n ih =>
    have hspaces : spaces (n + 1) ++ c :: cs = ' ' :: (spaces n ++ c :: cs) := rfl
    have hnext : (q.next ' ').column = q.column + 1 := by rw [next_of_not_break q ' ' rfl]
    have hmax : max (max seen (q.column + 1)) (q.column + 1 + n) = max seen (q.column + (n + 1)) := by omega
    rw [hspaces, cells_cons q ' ' _ (by decide), firstColumn?, cell_char q ' ' rfl, if_pos rfl, ih, hnext, cell_column,
      hmax]

theorem firstColumn_lines {lines : List (List Char)} {c : Char} {rest : List Char}
    (hfirst : lines.find? (fun l => !l.isEmpty) = some (c :: rest)) (hspace : c ≠ ' ') (hbreak : isBreak c = false)
    (least column : Nat) (q : Position) (hq : q.column = 0) (tail : List Char) :
    firstColumn? least 0 (q.cells (lines.flatMap (fun l => padded column l ++ ['\n']) ++ tail)) =
      if c = '\t' then none else some (max column least) := by
  induction lines generalizing q with
  | nil => cases hfirst
  | cons l lines ih =>
    cases l with
    | nil =>
      have hnext : (q.next '\n').column = 0 := by rw [next_of_break q '\n' rfl]
      have hskip (cs : List Char) :
          firstColumn? least 0 (q.cells ('\n' :: cs)) = firstColumn? least 0 ((q.next '\n').cells cs) := by
        have hfeed : (q.cell '\n').char = '\n' := rfl
        have hend : (q.cell '\n').isLineEnd = true := rfl
        rw [cells_cons q '\n' cs (by decide), firstColumn?, hfeed, if_neg (by decide), if_neg (by decide), if_pos hend,
          cell_column, hq, Nat.max_self]
      rw [← ih (by simpa using hfirst) (q.next '\n') hnext, ← hskip]
      rfl
    | cons d l =>
      obtain ⟨rfl, rfl⟩ : d = c ∧ l = rest := by simpa using hfirst
      have hline := firstColumn_padded hspace hbreak least 0 column q
        (l ++ '\n' :: (lines.flatMap (fun l => padded column l ++ ['\n']) ++ tail))
      rw [hq, Nat.zero_add, Nat.zero_max] at hline
      simpa [padded] using hline

/-! ## Scripts -/

theorem isBreak_of_isBlockSafe {script : String} (h : isBlockSafe script = true) {c : Char} (hc : c ∈ script.toList)
    (hfeed : c ≠ '\n') : isBreak c = false := by
  simp only [isBlockSafe, Bool.and_eq_true, List.all_eq_true] at h
  have hchar := h.1.2 c hc
  refine Bool.eq_false_iff.mpr fun hb => ?_
  simp only [isBreak, Bool.or_eq_true, decide_eq_true_eq] at hb
  rcases hb with (((rfl | rfl) | rfl) | rfl) | rfl
  · exact absurd hchar (by decide)
  · exact hfeed rfl
  all_goals exact absurd hchar (by decide)

theorem exists_find_of_isBlockSafe {script : String} (h : isBlockSafe script = true) :
    ∃ c, script.toList.find? (· ≠ '\n') = some c ∧ isBreak c = false := by
  have hblank : script.toList.all isBlank = false := by
    simp only [isBlockSafe, Bool.and_eq_true, Bool.not_eq_true'] at h
    exact h.1.1
  obtain ⟨x, hx, hxblank⟩ : ∃ x ∈ script.toList, ¬ isBlank x = true := by simpa using hblank
  have hfound : (script.toList.find? (· ≠ '\n')).isSome = true := by
    refine List.find?_isSome.mpr ⟨x, hx, ?_⟩
    have hfeed : x ≠ '\n' := by
      rintro rfl
      exact hxblank rfl
    simpa using hfeed
  obtain ⟨c, hc⟩ := Option.isSome_iff_exists.mp hfound
  have hfeed : c ≠ '\n' := by simpa using List.find?_some hc
  exact ⟨c, hc, isBreak_of_isBlockSafe h (List.mem_of_find?_eq_some hc) hfeed⟩

theorem exists_firstLine {body : List Char} {n : Nat} {c : Char}
    (h : (body ++ List.replicate n '\n').find? (· ≠ '\n') = some c) :
    ∃ rest, (splitAt '\n' body).find? (fun l => !l.isEmpty) = some (c :: rest) := by
  have hbody : body.find? (· ≠ '\n') = some c := by simpa [List.find?_append] using h
  rw [← find?_splitAt, Option.bind_eq_some_iff] at hbody
  obtain ⟨l, hl, hc⟩ := hbody
  cases l with
  | nil => cases hc
  | cons d rest =>
    cases hc
    exact ⟨rest, hl⟩

theorem indentSign_eq {width : Nat} {lines : List (List Char)} {c : Char} {rest : List Char}
    (h : lines.find? (fun l => !l.isEmpty) = some (c :: rest)) :
    indentSign width lines = if c = ' ' then Nat.toDigits 10 width else [] := by
  rw [indentSign, h]
  by_cases hc : c = ' '
  · simp [hc]
  · simp [hc]

theorem toDigits_of_digit {n : Nat} (hn : n < 10) (hpos : 0 < n) :
    ∃ d : Char, Nat.toDigits 10 n = [d] ∧ d.isDigit = true ∧ d ≠ '0' ∧ d.toNat - '0'.toNat = n := by
  have hdigit : ∀ n < 10, 0 < n → (Nat.digitChar n).isDigit = true ∧ Nat.digitChar n ≠ '0' ∧
      (Nat.digitChar n).toNat - '0'.toNat = n := by decide
  exact ⟨Nat.digitChar n, Nat.toDigits_of_lt_base hn, hdigit n hn hpos⟩

theorem exists_toDigits {n : Nat} (hn : 10 ≤ n) :
    ∃ a b rest, Nat.toDigits 10 n = a :: b :: rest ∧ a.isDigit = true ∧ b.isDigit = true := by
  have hdigit : ∀ d ∈ Nat.toDigits 10 n, d.isDigit = true :=
    fun d hd => Nat.isDigit_of_mem_toDigits (by decide) (by decide) hd
  obtain ⟨a, front, hfront⟩ := List.exists_cons_of_ne_nil (Nat.toDigits_ne_nil (b := 10) (n := n / 10))
  obtain ⟨b, rest, hrest⟩ : ∃ b rest, front ++ [Nat.digitChar (n % 10)] = b :: rest := by cases front <;> simp
  have hdigits : Nat.toDigits 10 n = a :: b :: rest := by
    rw [Nat.toDigits_of_base_le (by decide) hn, hfront, List.cons_append, hrest]
  exact ⟨a, b, rest, hdigits, hdigit a (by simp [hdigits]), hdigit b (by simp [hdigits])⟩

/-- The column that is read behind the `|` of a block with these lines, by the first character of its script. -/
theorem contentColumn_block {lines : List (List Char)} {c : Char} {rest : List Char}
    (hfirst : lines.find? (fun l => !l.isEmpty) = some (c :: rest)) (hbreak : isBreak c = false)
    (key : Nat) {width : Nat} (hwidth : 0 < width) (chomp : Chomp) (tail : List Char) (q : Position) :
    contentColumn? (some key) (q.cells (indentSign width lines ++ (chompText chomp ++ '\n' ::
        (lines.flatMap (fun l => padded (key + width) l ++ ['\n']) ++ tail)))) =
      if c = '\t' ∨ (c = ' ' ∧ 9 < width) then none else some (key + width) := by
  rw [indentSign_eq hfirst, contentColumn?]
  by_cases hspace : c = ' '
  · have htab : c ≠ '\t' := by simp [hspace]
    rw [if_pos hspace]
    by_cases hwide : 9 < width
    · obtain ⟨a, b, digits, hdigits, ha, hb⟩ := exists_toDigits hwide
      rw [hdigits, List.cons_append, List.cons_append, readHeader_digits q _ ha hb]
      simp [hspace, hwide]
    · obtain ⟨d, hdigits, hd, hzero, hvalue⟩ := toDigits_of_digit (show width < 10 by omega) hwidth
      rw [hdigits, List.singleton_append, readHeader_digit q chomp _ hd hzero]
      simpa [htab, hwide] using hvalue
  · have hcolumn := firstColumn_lines hfirst hspace hbreak (leastColumn (some key)) (key + width)
      ((q.after (chompText chomp)).next '\n') (by rw [next_of_break _ '\n' rfl]) tail
    have hleast : max (key + width) (leastColumn (some key)) = key + width := by
      simp only [leastColumn, Option.map_some, Option.getD_some]
      omega
    rw [if_neg hspace, List.nil_append, readHeader_unindented]
    simp only [Option.bind_eq_bind, Option.bind_some, hcolumn, hleast, hspace, false_and, or_false]

theorem contentColumn_literalEntry (index line lead dashes indent : Nat) {script : String} {c : Char}
    (hc : script.toList.find? (· ≠ '\n') = some c) (hbreak : isBreak c = false) :
    contentColumn? (some (keyColumn lead dashes))
        ((cellsFrom index line 0 (literalEntry lead dashes indent script)).drop (entryStart lead dashes).length) =
      if c = '\t' ∨ (c = ' ' ∧ 9 < max indent 1) then none else some (keyColumn lead dashes + max indent 1) := by
  obtain ⟨body, n, hsplit, hscript, hlast⟩ := splitTrailing_eq script.toList
  obtain ⟨chomp, hsign, -⟩ := exists_chomp hlast n
  obtain ⟨rest, hfirst⟩ := exists_firstLine (hscript ▸ hc)
  have hcr : '\r' ∉ entryStart lead dashes := fun hmem => absurd (mem_entryStart hmem) (by decide)
  have hlines : (blockLines (keyColumn lead dashes + max indent 1) body n).flatMap (· ++ ['\n']) =
      (splitAt '\n' body).flatMap (fun l => padded (keyColumn lead dashes + max indent 1) l ++ ['\n']) ++
        (List.replicate (n - 1) []).flatMap (· ++ ['\n']) := by
    rw [blockLines, List.flatMap_append, List.flatMap_map]
  have hblock := contentColumn_block hfirst hbreak (keyColumn lead dashes) (show 0 < max indent 1 by omega) chomp
    ((List.replicate (n - 1) []).flatMap (· ++ ['\n'])) (Position.after ⟨index, line, 0⟩ (entryStart lead dashes))
  rw [← drop_cells ⟨index, line, 0⟩ hcr, cells] at hblock
  rw [literalEntry_eq lead dashes indent hsplit, hsign, hlines, List.append_assoc, List.append_assoc, hblock]

/-- A reader finds the column that the lines of a block are padded to exactly if its script starts with no tab,
line feeds aside, and with a space only where one digit can tell the padding. -/
theorem contentColumn_literalEntry_iff (index line lead dashes indent : Nat) {script : String}
    (h : isBlockSafe script = true) :
    contentColumn? (some (keyColumn lead dashes))
        ((cellsFrom index line 0 (literalEntry lead dashes indent script)).drop (entryStart lead dashes).length) =
        some (keyColumn lead dashes + max indent 1) ↔
      script.toList.find? (· ≠ '\n') ≠ some '\t' ∧
        (script.toList.find? (· ≠ '\n') = some ' ' → max indent 1 ≤ 9) := by
  obtain ⟨c, hc, hbreak⟩ := exists_find_of_isBlockSafe h
  rw [contentColumn_literalEntry index line lead dashes indent hc hbreak, hc]
  by_cases htab : c = '\t'
  · rw [if_pos (.inl htab), htab]
    exact iff_of_false (by simp) fun hfit => hfit.1 rfl
  by_cases hwide : c = ' ' ∧ 9 < max indent 1
  · rw [if_pos (.inr hwide), hwide.1]
    exact iff_of_false (by simp) fun hfit => absurd (hfit.2 rfl) (Nat.not_le_of_lt hwide.2)
  · have hnarrow : c = ' ' → max indent 1 ≤ 9 := fun hspace => Nat.le_of_not_lt fun hlt => hwide ⟨hspace, hlt⟩
    rw [if_neg fun hbad => hbad.elim htab hwide]
    exact iff_of_true rfl ⟨by simpa using htab, fun hspace => hnarrow (Option.some.inj hspace)⟩

/-- The column of a script that starts with a space is given in the header. -/
theorem contentColumn_literalEntry_space : isBlockSafe " a\nb" = true ∧
    contentColumn? (some (keyColumn 4 1))
      ((cellsFrom 0 0 0 (literalEntry 4 1 2 " a\nb")).drop (entryStart 4 1).length) = some (keyColumn 4 1 + max 2 1) :=
  ⟨by decide +kernel, (contentColumn_literalEntry_iff 0 0 4 1 2 (by decide +kernel)).mpr ⟨by decide, by decide⟩⟩

/-- Ten spaces of padding are read as one, with a digit too many. -/
theorem contentColumn_literalEntry_ten : ¬ ∀ (script : String) (lead dashes indent : Nat),
    isBlockSafe script = true → '\n' ∈ script.toList →
      contentColumn? (some (keyColumn lead dashes))
        ((cellsFrom 0 0 0 (literalEntry lead dashes indent script)).drop (entryStart lead dashes).length) =
        some (keyColumn lead dashes + max indent 1) := by
  intro h
  have hclaim := h " a\nb" 0 0 10 (by decide +kernel) (by decide)
  have hread : contentColumn? (some (keyColumn 0 0))
      ((cellsFrom 0 0 0 (literalEntry 0 0 10 " a\nb")).drop (entryStart 0 0).length) = none := by decide +kernel
  rw [hread] at hclaim
  cases hclaim

end CiWorkflow.Render
