import Mathlib.Data.List.Basic
import CiWorkflow.Proofs.Render.LiteralColumn
import CiWorkflow.Proofs.Yaml.QuotedLine
import CiWorkflow.Yaml.Quoted

set_option autoImplicit false

namespace CiWorkflow.Yaml

open Position

/-- Characters that a block gives back: the reader turns the other line ends into line feeds. -/
def keepsChar (c : Char) : Bool := c ≠ '\r' && c ≠ '\u0085'

theorem char_of_keepsChar {c : Char} (h : keepsChar c = true) (q : Position) : (q.cell c).char = c := by
  simp only [keepsChar, Bool.and_eq_true, decide_eq_true_eq] at h
  simp [cell, normalBreak, h]

theorem not_cr_of_keepsChar {c : Char} (h : keepsChar c = true) : c ≠ '\r' := by
  rintro rfl
  cases h

theorem keepsChar_of_printable {c : Char} (h : isPrintable c = true) : keepsChar c = true := by
  have hnext : c ≠ '\u0085' := by
    rintro rfl
    cases h
  simp [keepsChar, not_cr_of_printable h, hnext]

theorem indentHint_cases (cs : List Char) : indentHint cs = [] ∨ indentHint cs = ['2'] := by
  unfold indentHint
  split
  · exact .inl rfl
  · split
    · exact .inr rfl
    · exact .inl rfl

def Block.text (b : Block) : List Char := b.out.reverse ++ (b.lineEnd ++ b.emptyLines)

section Lines

variable {chomp : Chomp} {least column : Nat}

structure AtLine (inLine : Bool) (q : Position) (b : Block) (text : List Char) : Prop where
  text : b.text = text
  start : inLine = false → q.column = 0
  within : inLine = true → b.lineEnd = [] ∧ b.emptyLines = []

theorem AtLine.start_nil {q : Position} (hq : q.column = 0) : AtLine false q ⟨[], [], [], false⟩ [] :=
  ⟨rfl, fun _ => hq, by simp⟩

theorem AtLine.out_eq {q : Position} {b : Block} {text : List Char} (h : AtLine true q b text) :
    b.out.reverse = text := by
  obtain ⟨hend, hempty⟩ := h.within rfl
  rw [← h.text, Block.text, hend, hempty, List.append_nil, List.append_nil]

theorem readBlock_spaces (seen : Nat) (b : Block) {q : Position} {k : Nat} (hk : q.column + k ≤ column)
    (cs : List Char) : readBlock false chomp least (some column) seen false b (q.cells (spaces k ++ cs)) =
      readBlock false chomp least (some column) 0 false b ((q.after (spaces k)).cells cs) := by
  induction k generalizing q seen with
  | zero => exact readBlock_seen ..
  | succ k ih =>
    have hspaces : spaces (k + 1) = ' ' :: spaces k := rfl
    have hlt : q.column < column := by omega
    have hnext : (q.next ' ').column = q.column + 1 := by rw [next_of_not_break q ' ' rfl]
    rw [hspaces, List.cons_append, cells_cons q ' ' _ (by decide), readBlock, after_cons]
    simp only [cell_column, cell_char q ' ' rfl, Option.all_some, hlt, decide_true, Bool.and_self, if_true,
      Bool.false_eq_true, if_false]
    exact ih _ (by omega)

theorem readBlock_lineEnd {c : Char} (hc : keepsChar c = true) (hb : isBreak c = true) (q : Position) (b : Block)
    (X : List Char) : readBlock false chomp least (some column) 0 true b (q.cells (c :: X)) =
      readBlock false chomp least (some column) 0 false { b with lineEnd := [c] } ((q.next c).cells X) := by
  rw [cells_cons q c X (not_cr_of_keepsChar hc), readBlock]
  simp [hb, char_of_keepsChar hc]

theorem readBlock_break (hcolumn : 0 < column) {c : Char} (hc : keepsChar c = true) (hb : isBreak c = true)
    {inLine : Bool} {q : Position} {b : Block} {text : List Char} (h : AtLine inLine q b text) (X : List Char) :
    ∃ b', readBlock false chomp least (some column) 0 inLine b (q.cells (c :: X)) =
        readBlock false chomp least (some column) 0 false b' ((q.next c).cells X) ∧
      AtLine false (q.next c) b' (text ++ [c]) := by
  have hnext : (q.next c).column = 0 := by rw [next_of_break q c hb]
  cases inLine with
  | true =>
    obtain ⟨hend, hempty⟩ := h.within rfl
    refine ⟨{ b with lineEnd := [c] }, readBlock_lineEnd hc hb q b X, ?_, fun _ => hnext, by simp⟩
    simp [Block.text, hempty, h.out_eq]
  | false =>
    rw [cells_cons q c X (not_cr_of_keepsChar hc), readBlock]
    have hzero : (q.cell c).column < column := by rw [cell_column, h.start rfl]; exact hcolumn
    have hblank : c ≠ ' ' ∧ c ≠ '\t' := by
      constructor <;> · rintro rfl; cases hb
    refine ⟨{ b with emptyLines := b.emptyLines ++ [c] }, ?_, ?_, fun _ => hnext, by simp⟩
    · simp only [Bool.false_eq_true, if_false, char_of_keepsChar hc, hblank, decide_false, Bool.and_false,
        isLineEnd_cell, hb, if_true]
      exact readBlock_seen ..
    · simp [Block.text, ← h.text]

/-- Another character stands in its line, behind the spaces of the column if it is the first one. -/
theorem readBlock_content {c : Char} (hc : keepsChar c = true) (hb : isBreak c = false) {inLine : Bool} {q : Position}
    {b : Block} {text : List Char} (h : AtLine inLine q b text) (X : List Char) :
    ∃ b', readBlock false chomp least (some column) 0 inLine b
        (q.cells (indentLines column (!inLine) [c] ++ X)) =
          readBlock false chomp least (some column) 0 true b'
            ((q.after (indentLines column (!inLine) [c])).cells X) ∧
      AtLine true (q.after (indentLines column (!inLine) [c])) b' (text ++ [c]) := by
  have hcr := not_cr_of_keepsChar hc
  have hchar := char_of_keepsChar hc
  cases inLine with
  | true =>
    have hline : indentLines column (!true) [c] = [c] := by simp [indentLines, hb]
    obtain ⟨hend, hempty⟩ := h.within rfl
    rw [hline, List.singleton_append, cells_cons q c X hcr, readBlock]
    refine ⟨{ b with out := c :: b.out }, by simp [hb, hchar], ?_, by simp, fun _ => ⟨hend, hempty⟩⟩
    simp [Block.text, hend, hempty, h.out_eq]
  | false =>
    have hline : indentLines column (!false) [c] = spaces column ++ [c] := by simp [indentLines, hb]
    have hbehind : (q.after (spaces column)).column = column := by
      rw [after_spaces, h.start rfl]
      exact Nat.zero_add column
    rw [hline, List.append_assoc, readBlock_spaces 0 b (Nat.le_of_eq (by rw [h.start rfl, Nat.zero_add])),
      List.singleton_append, cells_cons _ c X hcr, readBlock]
    refine ⟨⟨c :: (b.lineEnd ++ b.emptyLines).reverse ++ b.out, [], [], isSpaceOrTab c⟩, ?_, ?_, by simp,
      fun _ => ⟨rfl, rfl⟩⟩
    · simp only [Bool.false_eq_true, if_false, cell_column, hbehind, Option.all_some, Nat.lt_irrefl, decide_false,
        Bool.false_and, isLineEnd_cell, hb, Option.getD_some, if_true, hchar, Block.join, isBlank_cell, after_append,
        after_cons, after_nil]
      exact readBlock_seen ..
    · simp [Block.text, ← h.text]

theorem readBlock_step (hcolumn : 0 < column) {c : Char} (hc : keepsChar c = true) {inLine : Bool} {q : Position}
    {b : Block} {text : List Char} (h : AtLine inLine q b text) (X : List Char) :
    ∃ b', readBlock false chomp least (some column) 0 inLine b
        (q.cells (indentLines column (!inLine) [c] ++ X)) =
          readBlock false chomp least (some column) 0 (!isBreak c) b'
            ((q.after (indentLines column (!inLine) [c])).cells X) ∧
      AtLine (!isBreak c) (q.after (indentLines column (!inLine) [c])) b' (text ++ [c]) := by
  cases hb : isBreak c with
  | true =>
    have hline : indentLines column (!inLine) [c] = [c] := by simp [indentLines, hb]
    rw [hline, List.singleton_append, after_cons, after_nil]
    exact readBlock_break hcolumn hc hb h X
  | false => exact readBlock_content hc hb h X

theorem indentLines_cons (fresh : Bool) (c : Char) (cs : List Char) :
    indentLines column fresh (c :: cs) = indentLines column fresh [c] ++ indentLines column (isBreak c) cs := by
  by_cases hb : isBreak c = true
  · simp [indentLines, hb]
  · simp [indentLines, hb]

theorem indentLines_concat (fresh : Bool) (cs : List Char) {d : Char} (hb : isBreak d = true) :
    indentLines column fresh (cs ++ [d]) = indentLines column fresh cs ++ [d] := by
  induction cs generalizing fresh with
  | nil => simp [indentLines, hb]
  | cons c cs ih => rw [List.cons_append, indentLines_cons, ih, indentLines_cons fresh c cs, List.append_assoc]

theorem readBlock_indentLines (chomp : Chomp) (least : Nat) (hcolumn : 0 < column) {cs : List Char}
    (hcs : ∀ c ∈ cs, keepsChar c = true)
    {inLine : Bool} {q : Position} {b : Block} {text : List Char} (h : AtLine inLine q b text) (X : List Char) :
    ∃ b', readBlock false chomp least (some column) 0 inLine b (q.cells (indentLines column (!inLine) cs ++ X)) =
        readBlock false chomp least (some column) 0 (if cs = [] then inLine else !endsIn isBreak cs) b'
          ((q.after (indentLines column (!inLine) cs)).cells X) ∧
      AtLine (if cs = [] then inLine else !endsIn isBreak cs) (q.after (indentLines column (!inLine) cs)) b'
        (text ++ cs) := by
  induction cs generalizing inLine q b text with
  | nil => exact ⟨b, rfl, by simpa [indentLines] using h⟩
  | cons c cs ih =>
    obtain ⟨b', hstep, hline⟩ := readBlock_step hcolumn (hcs c (by simp)) h (indentLines column (isBreak c) cs ++ X)
    obtain ⟨b'', hrest, hline'⟩ := ih (fun d hd => hcs d (by simp [hd])) hline
    have hend : (if cs = [] then !isBreak c else !endsIn isBreak cs) = !endsIn isBreak (c :: cs) := by
      cases cs <;> simp [endsIn]
    rw [hend, Bool.not_not, ← after_append, ← indentLines_cons] at hrest hline'
    rw [if_neg (List.cons_ne_nil c cs)]
    refine ⟨b'', ?_, by simpa using hline'⟩
    rw [indentLines_cons, List.append_assoc, hstep, hrest, indentLines_cons]

/-! ## Behind the lines -/

/-- What is read of a block is `cs`, and what is left of the text scans like `rest`. -/
def BlockGives (r : Option (List Char × List Cell)) (cs : List Char) (q : Position) (rest : List Char) : Prop :=
  ∃ (q' : Position) (cs' : List Char), r = some (cs, q'.cells cs') ∧
    Scanner.skipToToken false true false (q'.cells cs') = Scanner.skipToToken false true false (q.cells rest) ∧
    (q'.cells cs').length ≤ (q.cells rest).length

theorem readBlock_follows (least : Nat) {bound : Option Nat} {rest : List Char} (h : Scanner.Follows bound rest)
    (hbound : ∀ n ∈ bound, n < column) (hfeed : chomp = .keep → rest ≠ ['\n']) (b : Block) {q : Position}
    (hq : q.column = 0) :
    BlockGives (readBlock false chomp least (some column) 0 false b (q.cells rest)) (b.finish chomp) q rest := by
  cases h with
  | done => exact ⟨q, [], rfl, rfl, Nat.le_refl _⟩
  | feed =>
    refine ⟨q, [], ?_, rfl, Nat.zero_le _⟩
    have hchar : (q.cell '\n').char = '\n' := rfl
    have hend : isBreak '\n' = true := rfl
    rw [cells_cons q '\n' [] (by decide), readBlock]
    cases chomp with
    | keep => exact absurd rfl (hfeed rfl)
    | strip | clip => simp [hchar, hend, readBlock, Block.finish]
  | @token n k c cs hn hk hc =>
    have hb := isBreak_of_opensToken c hc
    have hblank : c ≠ ' ' ∧ c ≠ '\t' := by
      constructor <;> · rintro rfl; cases hc
    have hlt : k < column := Nat.lt_of_le_of_lt hk (hbound n hn)
    have hbehind : (q.after (spaces k)).column = k := by
      rw [after_spaces, hq]
      exact Nat.zero_add k
    refine ⟨q.after (spaces k), c :: cs, ?_, (Scanner.skipToToken_spaces ..).symm,
      length_cells_after_le _ _ _ (cr_not_mem_spaces k)⟩
    rw [readBlock_spaces 0 b (by omega), cells_cons _ c cs (not_cr_of_not_break c hb), readBlock]
    simp [cell_char _ c hb, hblank, hb, hbehind, Nat.ne_of_lt hlt]

/-- What is left of a text when its block is chomped: the sign tells the line ends it ends in. -/
def Chomps (cs : List Char) : Chomp → Prop
  | .strip => cs ≠ [] ∧ endsIn isBreak cs = false
  | .clip => ∃ front c, cs = front ++ [c] ∧ isBreak c = true ∧ front ≠ [] ∧ endsIn isBreak front = false
  | .keep => ∃ front c, cs = front ++ [c] ∧ isBreak c = true ∧ (front = [] ∨ endsIn isBreak front = true)

/-- The lines of a block: without a line end of its own the text gets one. -/
def blockText (column : Nat) (chomp : Chomp) (cs : List Char) : List Char :=
  indentLines column true cs ++ (if chomp = .strip then ['\n'] else [])

section Whole

variable {cs front rest : List Char} {bound : Option Nat} {q : Position} (hcolumn : 0 < column)
  (hrest : Scanner.Follows bound rest) (hbound : ∀ n ∈ bound, n < column) (hfeed : chomp = .keep → rest ≠ ['\n'])
  (hq : q.column = 0)

include hcolumn hrest hbound hfeed hq

/-- A text that ends in one line end, its own or the one that it is given. -/
theorem readBlock_ended {d : Char} (hfront : ∀ c ∈ front, keepsChar c = true) (hd : keepsChar d = true)
    (hb : isBreak d = true) (hne : front ≠ []) (hlast : endsIn isBreak front = false)
    (hfinish : ∀ b : Block, b.out.reverse = front → b.emptyLines = [] → { b with lineEnd := [d] }.finish chomp = cs) :
    BlockGives (readBlock false chomp least (some column) 0 false ⟨[], [], [], false⟩
      (q.cells (indentLines column true front ++ [d] ++ rest))) cs
        (q.after (indentLines column true front ++ [d])) rest := by
  obtain ⟨b, hread, hline⟩ := readBlock_indentLines chomp least hcolumn hfront (.start_nil hq) (d :: rest)
  rw [if_neg hne, hlast, Bool.not_false] at hread hline
  have hnext : ((q.after (indentLines column true front)).next d).column = 0 := by rw [next_of_break _ d hb]
  have hend := readBlock_follows least hrest hbound hfeed { b with lineEnd := [d] } hnext
  rw [hfinish b hline.out_eq (hline.within rfl).2] at hend
  rwa [List.append_assoc, List.singleton_append, hread, readBlock_lineEnd hd hb, after_append, after_cons, after_nil]

/-- A block in a column is read as the text whose lines were indented to the column. -/
theorem readBlock_blockText (hcs : ∀ c ∈ cs, keepsChar c = true) (hchomp : Chomps cs chomp) :
    BlockGives (readBlock false chomp least (some column) 0 false ⟨[], [], [], false⟩
      (q.cells (blockText column chomp cs ++ rest))) cs (q.after (blockText column chomp cs)) rest := by
  cases chomp with
  | strip =>
    exact readBlock_ended hcolumn hrest hbound hfeed hq hcs rfl rfl hchomp.1 hchomp.2 fun b hout _ => by
      simp [Block.finish, hout]
  | clip =>
    obtain ⟨front, d, rfl, hb, hne, hlast⟩ := hchomp
    have htext : blockText column .clip (front ++ [d]) = indentLines column true front ++ [d] := by
      simp [blockText, indentLines_concat _ _ hb]
    rw [htext]
    exact readBlock_ended hcolumn hrest hbound hfeed hq (fun c hc => hcs c (by simp [hc])) (hcs d (by simp)) hb hne
      hlast fun b hout _ => by simp [Block.finish, hout]
  | keep =>
    obtain ⟨front, d, rfl, hb, -⟩ := hchomp
    have hne : front ++ [d] ≠ [] := by simp
    have hlast : endsIn isBreak (front ++ [d]) = true := by simpa [endsIn] using hb
    have htext : blockText column .keep (front ++ [d]) = indentLines column true (front ++ [d]) := by simp [blockText]
    obtain ⟨b, hread, hline⟩ := readBlock_indentLines .keep least hcolumn hcs (.start_nil hq) rest
    rw [if_neg hne, hlast, Bool.not_true, Bool.not_false] at hread
    rw [if_neg hne, hlast, Bool.not_true, Bool.not_false] at hline
    have hend := readBlock_follows least hrest hbound hfeed b (hline.start rfl)
    have hfinish : b.finish .keep = front ++ [d] := hline.text
    rw [hfinish] at hend
    rwa [htext, hread]

end Whole

end Lines

/-! ## Headers -/

open Render

/-- The header of a block up to its first line; the indentation in it is one digit or left to the lines. -/
theorem readHeader_hint {hint : List Char} (hhint : hint = [] ∨ ∃ d : Char, hint = [d] ∧ d.isDigit = true ∧ d ≠ '0')
    (chomp : Chomp) (q : Position) (X : List Char) : ∃ increment,
      readHeader? (q.cells (hint ++ (chompText chomp ++ '\n' :: X))) =
        some (⟨chomp, increment⟩, (q.after (hint ++ (chompText chomp ++ ['\n']))).cells X) := by
  obtain rfl | ⟨d, rfl, hd, hzero⟩ := hhint
  · refine ⟨none, ?_⟩
    rw [List.nil_append, List.nil_append, readHeader_unindented, after_append]
    rfl
  · refine ⟨some (d.toNat - '0'.toNat), ?_⟩
    rw [List.singleton_append, readHeader_digit q chomp X hd hzero, after_append, after_append]
    rfl

/-- A block whose column is told by its header or by its first line is read as its text. -/
theorem readBlockScalar_blockText {parent : Option Nat} {column : Nat} {chomp : Chomp} {hint cs rest : List Char}
    {q : Position} (hhint : hint = [] ∨ ∃ d : Char, hint = [d] ∧ d.isDigit = true ∧ d ≠ '0')
    (hcontent : contentColumn? parent
      (q.cells (hint ++ (chompText chomp ++ '\n' :: (blockText column chomp cs ++ rest)))) = some column)
    (hcolumn : 0 < column) (hcs : ∀ c ∈ cs, keepsChar c = true) (hchomp : Chomps cs chomp)
    (hrest : Scanner.Follows parent rest) (hbound : ∀ n ∈ parent, n < column)
    (hfeed : chomp = .keep → rest ≠ ['\n']) :
    BlockGives (readBlockScalar? false parent
        (q.cells (hint ++ (chompText chomp ++ '\n' :: (blockText column chomp cs ++ rest))))) cs
      (q.after (hint ++ (chompText chomp ++ '\n' :: blockText column chomp cs))) rest := by
  obtain ⟨increment, hheader⟩ := readHeader_hint hhint chomp q (blockText column chomp cs ++ rest)
  have hfront : hint ++ (chompText chomp ++ '\n' :: blockText column chomp cs) =
      (hint ++ (chompText chomp ++ ['\n'])) ++ blockText column chomp cs := by simp
  have hzero : (q.after (hint ++ (chompText chomp ++ ['\n']))).column = 0 := by
    rw [← List.append_assoc, after_concat_break _ _ '\n' rfl]
  rw [readBlockScalar_eq, hcontent, Option.bind_some, hheader, Option.bind_some, hfront,
    after_append q (hint ++ (chompText chomp ++ ['\n']))]
  exact readBlock_blockText hcolumn hrest hbound hfeed hzero hcs hchomp

theorem exists_chomping {cs : List Char} (h : cs ≠ []) :
    ∃ chomp, chomping cs = chompText chomp ∧ Chomps cs chomp ∧
      (chomp = .strip ↔ endsIn isBreak cs = false) := by
  obtain ⟨front, d, rfl⟩ := (List.eq_nil_or_concat' cs).resolve_left h
  have hlast : endsIn isBreak (front ++ [d]) = isBreak d := by simp [endsIn]
  have hfront : startsWith isBreak front.reverse = endsIn isBreak front := by simp [startsWith, endsIn]
  have hchomping : chomping (front ++ [d]) = if !isBreak d then ['-'] else
      if front.isEmpty || endsIn isBreak front then ['+'] else [] := by
    simp [chomping, ← hfront]
  rw [hchomping, hlast]
  by_cases hb : isBreak d = true
  · by_cases hkeep : (front.isEmpty || endsIn isBreak front) = true
    · exact ⟨.keep, by simp [hb, hkeep, chompText], ⟨front, d, rfl, hb, by simpa using hkeep⟩, by simp [hb]⟩
    · have hkeep : (front.isEmpty || endsIn isBreak front) = false := by simpa using hkeep
      simp only [Bool.or_eq_false_iff, List.isEmpty_eq_false_iff] at hkeep
      exact ⟨.clip, by simp [hb, hkeep, chompText], ⟨front, d, rfl, hb, hkeep.1, hkeep.2⟩, by simp [hb]⟩
  · have hb : isBreak d = false := by simpa using hb
    exact ⟨.strip, by simp [hb, chompText], ⟨h, by rw [hlast, hb]⟩, by simp [hb]⟩

structure IsLiteral (cs : List Char) : Prop where
  nonempty : cs ≠ []
  printable : ∀ c ∈ cs, isPrintable c = true

theorem isLiteral_of_allowsLiteral {cs : List Char} (h : allowsLiteral cs = true) : IsLiteral cs := by
  simp only [allowsLiteral, needsEscapes, Bool.and_eq_true, Bool.not_eq_true', Bool.or_eq_false_iff,
    List.any_eq_false, List.isEmpty_eq_false_iff] at h
  exact ⟨h.1.1, fun c hc => by simpa using h.1.2.1 c hc⟩

theorem closed_literalBlock {cs : List Char} (h : cs ≠ []) (w : Nat) :
    ∃ chomp, Chomps cs chomp ∧ literalBlock w cs ++ (if endsIn isBreak cs then [] else ['\n']) =
      '|' :: (indentHint cs ++ (chompText chomp ++ '\n' :: blockText w chomp cs)) := by
  obtain ⟨chomp, hsign, hchomp, hstrip⟩ := exists_chomping h
  refine ⟨chomp, hchomp, ?_⟩
  have hend : (if endsIn isBreak cs then ([] : List Char) else ['\n']) = if chomp = .strip then ['\n'] else [] := by
    cases hlast : endsIn isBreak cs with
    | true => simp [show chomp ≠ .strip from fun hc => by simp [hstrip.mp hc] at hlast]
    | false => simp [hstrip.mpr hlast]
  simp [literalBlock, blockText, hsign, hend]

theorem contentColumn_literalBlock {cs : List Char} (h : IsLiteral cs) {parent : Option Nat} {w : Nat}
    (hw : w = parent.getD 0 + 2) (chomp : Chomp) (X : List Char) (q : Position) :
    contentColumn? parent (q.cells (indentHint cs ++ (chompText chomp ++ '\n' :: (blockText w chomp cs ++ X)))) =
      some w := by
  obtain ⟨c, cs, rfl⟩ := List.exists_cons_of_ne_nil h.nonempty
  by_cases hhint : (isSpace c || isBreak c) = true
  · have hdigit : indentHint (c :: cs) = ['2'] := by rw [indentHint, if_pos hhint]
    rw [hdigit, List.singleton_append, contentColumn?, readHeader_digit q chomp _ rfl (by decide)]
    exact congrArg some hw.symm
  · have hnone : indentHint (c :: cs) = [] := by rw [indentHint, if_neg hhint]
    have hhint : (isSpace c || isBreak c) = false := by simpa using hhint
    simp only [Bool.or_eq_false_iff, isSpace, decide_eq_false_iff_not] at hhint
    have hline : blockText w chomp (c :: cs) ++ X =
        spaces w ++ c :: (indentLines w false cs ++ ((if chomp = .strip then ['\n'] else []) ++ X)) := by
      simp [blockText, indentLines, hhint.2]
    have hfirst := firstColumn_padded hhint.1 hhint.2 (leastColumn parent) 0 w ((q.after (chompText chomp)).next '\n')
      (indentLines w false cs ++ ((if chomp = .strip then ['\n'] else []) ++ X))
    have htab : c ≠ '\t' := not_tab_of_printable (h.printable c (by simp))
    have hzero : ((q.after (chompText chomp)).next '\n').column = 0 := by rw [next_of_break _ '\n' rfl]
    have hleast : max (max 0 (0 + w)) (leastColumn parent) = w := by
      cases parent with
      | none => simp [leastColumn, hw]
      | some n =>
        simp only [leastColumn, hw, Option.map_some, Option.getD_some]
        omega
    rw [hzero, hleast, if_neg htab] at hfirst
    rw [hnone, List.nil_append, contentColumn?, readHeader_unindented, hline]
    exact hfirst

namespace Scanner

variable {cols : List Nat} {key : Option PossibleKey} {allowed : Bool} {ts : List Token} {q : Position}
  {hint cs rest : List Char} {k column : Nat} {chomp : Chomp}

theorem leads_blockText (allowed : Bool) (ts : List Token) (hl : EndsLine cols key q k)
    (hhint : hint = [] ∨ ∃ d : Char, hint = [d] ∧ d.isDigit = true ∧ d ≠ '0')
    (hcontent : contentColumn? cols.head? (((q.after (spaces k)).next '|').cells
      (hint ++ (chompText chomp ++ '\n' :: (blockText column chomp cs ++ rest)))) = some column)
    (hcolumn : ∀ n ∈ cols.head?, n < column) (hpos : 0 < column) (hcs : ∀ c ∈ cs, keepsChar c = true)
    (hchomp : Chomps cs chomp) (hrest : Follows cols.head? rest) (hfeed : chomp = .keep → rest ≠ ['\n']) :
    Leads (outside cols key allowed ts q
        (spaces k ++ ('|' :: (hint ++ (chompText chomp ++ '\n' :: blockText column chomp cs)) ++ rest)))
      (outside cols none true (.scalar .literal (String.ofList cs) :: ts)
        ((q.after (spaces k)).after ('|' :: (hint ++ (chompText chomp ++ '\n' :: blockText column chomp cs))))
        rest) := by
  obtain ⟨q', cs', hread, hskip, hlength⟩ :=
    readBlockScalar_blockText hhint hcontent hpos hcs hchomp hrest hcolumn hfeed
  have htext : '|' :: (hint ++ (chompText chomp ++ '\n' :: blockText column chomp cs)) ++ rest =
      '|' :: (hint ++ (chompText chomp ++ '\n' :: (blockText column chomp cs ++ rest))) := by simp
  rw [htext]
  refine leads_block (fun m hm => Nat.le_of_lt (hl.inside m hm)) hl.optional hread (fun n => ?_) ?_
  · refine run_eq_of_ready ?_ n
    simp only [ready, outside, inFlow, List.isEmpty_nil, Bool.not_true, hskip]
    rfl
  · have hcr : '\r' ∉ hint ++ (chompText chomp ++ '\n' :: blockText column chomp cs) := by
      have hlines : '\r' ∉ indentLines column true cs :=
        cr_not_mem_indentLines fun hmem => not_cr_of_keepsChar (hcs _ hmem) rfl
      have hblock : '\r' ∉ blockText column chomp cs := by
        unfold blockText
        split <;> simp [hlines]
      have hsign : '\r' ∉ chompText chomp := by cases chomp <;> decide
      have hdigit : '\r' ∉ hint := by
        obtain rfl | ⟨d, rfl, hd, -⟩ := hhint
        · exact List.not_mem_nil
        · rw [List.mem_singleton]
          rintro rfl
          cases hd
      simp [hdigit, hsign, hblock]
    have hlength := length_cells_after_le ((q.after (spaces k)).next '|') _ rest hcr
    simpa [outside] using hlength

end Scanner

end CiWorkflow.Yaml
