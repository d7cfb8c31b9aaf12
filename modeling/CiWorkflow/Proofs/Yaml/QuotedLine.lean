import CiWorkflow.Proofs.Yaml.DoubleQuoted
import CiWorkflow.Proofs.Yaml.PlainLine
import CiWorkflow.Proofs.Json.Quoted
import Mathlib.Algebra.Group.Nat.Defs

/-!
# Texts in quotes

A text that is written between quotes is read as it was, wherever it stands on a line. Between apostrophes the line
ends that a text may hold are separators, which stay as they are; the spaces that the next line starts with are no
part of the text.
-/
set_option autoImplicit false

namespace CiWorkflow.Yaml

open Position

def IsQuoted (A s : List Char) : Prop :=
  ∃ (c : Char) (tail : List Char) (read : List Cell → Option (Token × List Cell)), A = c :: tail ∧
    opensToken c = true ∧ '\r' ∉ tail ∧
    (∀ (u : Scanner) (q : Position) (rest : List Cell), u.token? (q.cell c) rest = u.leaf? read) ∧
    ∀ (q : Position) (rest : List Char), rest.head? ≠ some '\'' →
      read (q.cells (A ++ rest)) = some (.scalar .quoted (String.ofList s), (q.after A).cells rest)

theorem Scanner.token_singleQuote (u : Scanner) (q : Position) (rest : List Cell) : u.token? (q.cell '\'') rest =
    u.leaf? fun cs => scalarToken .quoted (readSingle false [] .none (cs.drop 1)) := by
  simp [token?, cell_char q '\'' rfl, not_isMarker _ q '\'' rest rfl]

/-! ## Escapes -/

theorem digitValue_hexDigit {n : Nat} (h : n < 16) : digitValue? 16 (hexDigit n) = some n := by
  have hall : ∀ k : Fin 16, digitValue? 16 (hexDigit k.val) = some k.val := by decide
  exact hall ⟨n, h⟩

theorem isSome_of_mem_hexDigits {places n : Nat} {d : Char} (h : d ∈ hexDigits places n) :
    (digitValue? 16 d).isSome = true := by
  induction places generalizing n with
  | zero => cases h
  | succ places ih =>
    obtain h | h := List.mem_append.mp h
    · exact ih h
    · rw [List.mem_singleton.mp h, digitValue_hexDigit (Nat.mod_lt n (by decide))]
      rfl

theorem length_hexDigits (places n : Nat) : (hexDigits places n).length = places := by
  induction places generalizing n with
  | zero => rfl
  | succ places ih => rw [hexDigits, List.length_append, ih, List.length_singleton]

theorem hexFold_hexDigits (places n : Nat) : hexFold 0 (hexDigits places n) = n % 16 ^ places := by
  induction places generalizing n with
  | zero => simp [hexDigits, hexFold, Nat.mod_one]
  | succ places ih =>
    have hlast : hexFold 0 (hexDigits places (n / 16) ++ [hexDigit (n % 16)]) =
        16 * hexFold 0 (hexDigits places (n / 16)) + n % 16 := by
      simp [hexFold, digitValue_hexDigit (Nat.mod_lt n (by decide : 0 < 16))]
    rw [hexDigits, hlast, ih, Nat.pow_succ', Nat.mod_mul]
    omega

theorem escapes_hexDigits {letter c : Char} {places : Nat} (hb : isBreak letter = false)
    (hl : escapeLength? letter = some places) (hpos : 0 < places) (hlt : c.toNat < 16 ^ places) :
    Escapes (letter :: hexDigits places c.toNat) c := by
  refine escapes_digits letter c _ hb (by rw [length_hexDigits, hl]) ?_ (fun d hd => isSome_of_mem_hexDigits hd) ?_
  · rw [← List.length_pos_iff, length_hexDigits]
    exact hpos
  · rw [hexFold_hexDigits, Nat.mod_eq_of_lt hlt, charOf_toNat]

theorem escapes_escapeName {c name : Char} (h : escapeName? c = some name) : Escapes [name] c := by
  have hchar : ∀ n, c.toNat = n → c = Char.ofNat n := fun n hn => by rw [← hn, Char.ofNat_toNat]
  unfold escapeName? at h
  split at h <;> cases h <;> rename_i heq <;> rw [hchar _ heq] <;> exact escapes_name _ _ rfl rfl rfl

theorem spells_yamlEscape (c : Char) : Spells (escape c) c := by
  unfold escape
  split
  · rename_i hneeds
    refine .inl ⟨rfl, ?_⟩
    simp only [needsEscape, Bool.not_eq_true', Bool.or_eq_false_iff, decide_eq_false_iff_not] at hneeds
    simp [isVerbatim, hneeds]
  · split
    · rename_i name hname
      exact .inr ⟨[name], rfl, escapes_escapeName hname⟩
    · have hvalid : c.toNat < 16 ^ 8 := by
        exact c.val.toNat_lt
      refine .inr ?_
      simp only
      split
      · exact ⟨_, rfl, escapes_hexDigits rfl rfl (by decide) (by omega)⟩
      · split
        · exact ⟨_, rfl, escapes_hexDigits rfl rfl (by decide) (by omega)⟩
        · exact ⟨_, rfl, escapes_hexDigits rfl rfl (by decide) hvalid⟩

/-- A text between double quotes, with every character spelled in a way that is read as the character. -/
theorem isQuoted_spelled {spell : Char → List Char} {cs : List Char} (h : ∀ c ∈ cs, Spells (spell c) c) :
    IsQuoted ('"' :: cs.flatMap spell ++ ['"']) cs := by
  refine ⟨'"', cs.flatMap spell ++ ['"'], _, rfl, rfl, ?_, fun u q rest => Scanner.token_doubleQuote u q rest,
    fun q rest _ => ?_⟩
  · simp only [List.mem_append, List.mem_flatMap, List.mem_singleton]
    rintro (⟨c, hc, hmem⟩ | hmem)
    · exact absurd (not_break_of_spells _ _ (h c hc) _ hmem) (by decide)
    · cases hmem
  · have hcolumn : (q.next '"').column ≠ 0 := by
      rw [next_of_not_break q '"' rfl]
      exact Nat.succ_ne_zero _
    have hread := readDouble_spelled spell cs h [] [] (q.next '"') hcolumn rest
    have hcells : q.cells ('"' :: cs.flatMap spell ++ ['"'] ++ rest) =
        q.cell '"' :: (q.next '"').cells (cs.flatMap spell ++ '"' :: rest) := by
      rw [List.cons_append, List.cons_append, cells_cons q '"' _ (by decide), List.append_assoc]
      rfl
    simp only [hcells, List.drop_one, List.tail_cons, Gap.none, hread, Scanner.scalarToken]
    rfl

theorem isQuoted_doubleQuoted (cs : List Char) : IsQuoted (doubleQuoted cs) cs :=
  isQuoted_spelled fun c _ => spells_yamlEscape c

theorem isQuoted_quoted {cs : List Char} (h : ∀ c ∈ cs, Json.isRawBreak c = false) : IsQuoted (Json.quoted cs) cs :=
  isQuoted_spelled fun c hc => Json.spells_escape c (h c hc)

/-! ## Apostrophes -/

theorem readSingle_spaces (out others : List Char) (first : Option Char) (q : Position) (k : Nat) (cs : List Char) :
    readSingle false out (.newLines first others) (q.cells (spaces k ++ cs)) =
      readSingle false out (.newLines first others) ((q.after (spaces k)).cells cs) := by
  induction k generalizing q with
  | zero => rfl
  | succ k ih =>
    have hspaces : spaces (k + 1) = ' ' :: spaces k := rfl
    have hpush : (Gap.newLines first others).push (q.cell ' ') = .newLines first others := by simp [Gap.push, isBreak]
    rw [hspaces, List.cons_append, cells_cons q ' ' _ (by decide), readSingle, hpush, after_cons, ← ih]
    simp [isSpaceOrTab]

/-- What has been read in front of the rest of a text between apostrophes: blanks on the same line, or line ends. -/
inductive Before (fresh : Bool) (q : Position) (cs : List Char) : Gap → Prop
  | blanks {bs : List Char} : fresh = false → q.column ≠ 0 → (bs ≠ [] → startsWith isBreak cs = false) →
    Before fresh q cs (.sameLine bs)
  | breaks {first : Char} {others : List Char} : fresh = true → first ≠ '\n' → startsWith isSpace cs = false →
    Before fresh q cs (.newLines (some first) others)

/-- Whether a text that ends a line is behind, if nothing or something more is read. -/
def endsFresh (fresh : Bool) (cs : List Char) : Bool := if cs.isEmpty then fresh else endsIn isBreak cs

theorem endsFresh_cons (fresh : Bool) (c : Char) (cs : List Char) :
    endsFresh fresh (c :: cs) = endsFresh (isBreak c) cs := by
  cases cs with
  | nil => rfl
  | cons d cs => simp [endsFresh, endsIn]

theorem readSingle_char {c : Char} (hs : isSpaceOrTab c = false) (hb : isBreak c = false) (out : List Char) (gap : Gap)
    {q : Position} (hq : q.column ≠ 0) (cs : List Char) :
    readSingle false out gap (q.cells (doubleApostrophes [c] ++ cs)) =
      readSingle false (c :: settle out gap) .none ((q.after (doubleApostrophes [c])).cells cs) := by
  by_cases hc : c = '\''
  · subst hc
    have hmark := atDocumentMarker_of_column q ('\'' :: '\'' :: cs) hq
    rw [cells_cons q '\'' _ (by decide)] at hmark
    have hdoubled : doubleApostrophes ['\''] = ['\'', '\''] := rfl
    rw [hdoubled, List.cons_append, List.cons_append, List.nil_append, cells_cons q '\'' _ (by decide), readSingle]
    simp only [isBlank_cell, isLineEnd_cell, hs, hb, hmark, cell_char q '\'' hb, Bool.or_self, Bool.false_eq_true,
      if_false, if_true]
    rw [cells_cons _ '\'' cs (by decide), readSingle]
    simp [cell_char _ '\'' hb]
  · have hmark := atDocumentMarker_of_column q (c :: cs) hq
    rw [cells_cons q c cs (not_cr_of_not_break c hb)] at hmark
    have hdoubled : doubleApostrophes [c] = [c] := by simp [doubleApostrophes, hc]
    rw [hdoubled, List.singleton_append, cells_cons q c cs (not_cr_of_not_break c hb), readSingle]
    simp [hs, hb, hmark, cell_char q c hb, hc]

theorem readSingle_close (out : List Char) (gap : Gap) {q : Position} (hq : q.column ≠ 0) {rest : List Char}
    (hrest : rest.head? ≠ some '\'') :
    readSingle false out gap (q.cells ('\'' :: rest)) =
      some ((settle out gap).reverse, (q.next '\'').cells rest) := by
  have hmark := atDocumentMarker_of_column q ('\'' :: rest) hq
  rw [cells_cons q '\'' _ (by decide)] at hmark
  have hs : isSpaceOrTab '\'' = false := rfl
  have hb : isBreak '\'' = false := rfl
  have hfinish : ∀ cells : List Cell, finish out gap cells = some ((settle out gap).reverse, cells) := by
    intro cells
    simp [finish, settle]
  rw [cells_cons q '\'' _ (by decide), readSingle]
  simp only [isBlank_cell, isLineEnd_cell, hs, hb, hmark, cell_char q '\'' hb, Bool.or_self, Bool.false_eq_true,
    if_false, if_true]
  cases rest with
  | nil => exact hfinish []
  | cons c rest =>
    obtain ⟨tail, htail⟩ := cells_eq_cons (q.next '\'') c rest
    have hc : ((q.next '\'').cell c).char ≠ '\'' := by
      intro hchar
      have hchar : normalBreak c = '\'' := hchar
      unfold normalBreak at hchar
      split at hchar
      · cases hchar
      · exact hrest (by simp [hchar])
    rw [htail, readSingle]
    simp only [hc, if_false, if_true]
    exact hfinish _

theorem startsWith_of_adjacent {p r : Char → Bool} {c : Char} {cs : List Char} (h : adjacent p r (c :: cs) = false)
    (hc : p c = true) : startsWith r cs = false ∧ adjacent p r cs = false := by
  cases cs with
  | nil => exact ⟨rfl, rfl⟩
  | cons d cs => simpa [adjacent, hc, startsWith] using h

theorem adjacent_of_cons {p r : Char → Bool} {c : Char} {cs : List Char} (h : adjacent p r (c :: cs) = false) :
    adjacent p r cs = false := by
  cases cs with
  | nil => rfl
  | cons d cs => exact (Bool.or_eq_false_iff.mp h).2

/-- How one character is written between apostrophes: behind the spaces of its line if it starts one. -/
def singleFront (w : Nat) (fresh : Bool) (c : Char) : List Char :=
  if isBreak c then [c] else (if fresh then spaces w else []) ++ doubleApostrophes [c]

theorem indentLines_doubleApostrophes (w : Nat) (fresh : Bool) (c : Char) (cs : List Char) :
    indentLines w fresh (doubleApostrophes (c :: cs)) =
      singleFront w fresh c ++ indentLines w (isBreak c) (doubleApostrophes cs) := by
  unfold singleFront
  by_cases hc : c = '\''
  · subst hc
    have hb : isBreak '\'' = false := rfl
    simp [doubleApostrophes, indentLines, hb]
  · by_cases hb : isBreak c = true
    · simp [doubleApostrophes, hc, indentLines, hb]
    · simp [doubleApostrophes, hc, indentLines, hb]

section Step

variable {w : Nat} {c : Char} {cs out : List Char} {fresh : Bool} {gap : Gap} {q : Position}

theorem readSingle_break (hc : isPrintable c = true) (hb : isBreak c = true) (hfeed : c ≠ '\n')
    (hspace : startsWith isSpace cs = false) (hbefore : Before fresh q (c :: cs) gap) (X : List Char) :
    ∃ gap', readSingle false out gap (q.cells (c :: X)) = readSingle false out gap' ((q.next c).cells X) ∧
      Before true (q.next c) cs gap' ∧ settle out gap' = c :: settle out gap := by
  have hcr := not_cr_of_printable hc
  have hchar : (q.cell c).char = c := by
    have hnext : c ≠ '\u0085' := by
      rintro rfl
      cases hc
    simp [cell, normalBreak, hcr, hnext]
  have hpush : readSingle false out gap (q.cells (c :: X)) =
      readSingle false out (gap.push (q.cell c)) ((q.next c).cells X) := by
    rw [cells_cons q c _ hcr, readSingle]
    simp [hb]
  cases hbefore with
  | @blanks bs _ _ hbs =>
    have hnone : bs = [] := by
      cases bs with
      | nil => rfl
      | cons b bs =>
        have hstart := hbs (List.cons_ne_nil b bs)
        simp [startsWith, hb] at hstart
    subst hnone
    have hgap : (Gap.sameLine []).push (q.cell c) = .newLines (some c) [] := by simp [Gap.push, hb, hchar]
    exact ⟨_, hpush.trans (by rw [hgap]), .breaks rfl hfeed hspace, by rw [settle, Json.text_newLines c [] hfeed]; rfl⟩
  | @breaks first others _ hfirst =>
    have hgap : (Gap.newLines (some first) others).push (q.cell c) = .newLines (some first) (others ++ [c]) := by
      simp [Gap.push, hb, hchar]
    refine ⟨_, hpush.trans (by rw [hgap]), .breaks rfl hfirst hspace, ?_⟩
    simp [settle, Json.text_newLines first _ hfirst]

/-- Spaces in front of a line change nothing, and behind them no document can start. -/
theorem readSingle_indent (out : List Char) (hw : fresh = true → w ≠ 0) (hbefore : Before fresh q cs gap)
    (X : List Char) :
    readSingle false out gap (q.cells ((if fresh then spaces w else []) ++ X)) =
        readSingle false out gap ((q.after (if fresh then spaces w else [])).cells X) ∧
      (q.after (if fresh then spaces w else [])).column ≠ 0 := by
  cases hbefore with
  | blanks hfalse hq =>
    subst hfalse
    exact ⟨rfl, hq⟩
  | breaks htrue =>
    subst htrue
    refine ⟨readSingle_spaces _ _ _ _ _ _, ?_⟩
    rw [if_pos rfl, after_spaces]
    exact Nat.ne_of_gt (Nat.add_pos_right _ (Nat.pos_of_ne_zero (hw rfl)))

/-- One character of a text between apostrophes is read behind what has been read in front of it. -/
theorem readSingle_step (out : List Char) (hc : isPrintable c = true) (hfeed : c ≠ '\n')
    (hbreak : adjacent isSpace isBreak (c :: cs) = false) (hspace : adjacent isBreak isSpace (c :: cs) = false)
    (hw : fresh = true → w ≠ 0) (hbefore : Before fresh q (c :: cs) gap) (X : List Char) :
    ∃ out' gap', readSingle false out gap (q.cells (singleFront w fresh c ++ X)) =
        readSingle false out' gap' ((q.after (singleFront w fresh c)).cells X) ∧
      Before (isBreak c) (q.after (singleFront w fresh c)) cs gap' ∧ settle out' gap' = c :: settle out gap := by
  unfold singleFront
  by_cases hb : isBreak c = true
  · rw [if_pos hb, hb]
    obtain ⟨gap', hread⟩ := readSingle_break hc hb hfeed (startsWith_of_adjacent hspace hb).1 hbefore X
    exact ⟨out, gap', hread⟩
  have hb : isBreak c = false := by simpa using hb
  have hdoubled : ∀ d ∈ doubleApostrophes [c], isBreak d = false := by
    intro d hd
    obtain rfl : d = c := by
      by_cases hc' : c = '\''
      · subst hc'
        simpa [doubleApostrophes] using hd
      · simpa [doubleApostrophes, hc'] using hd
    exact hb
  have hpos : 0 < (doubleApostrophes [c]).length := by
    by_cases hc' : c = '\'' <;> simp [doubleApostrophes, hc']
  obtain ⟨hfront, hcolumn⟩ := readSingle_indent out hw hbefore (doubleApostrophes [c] ++ X)
  have hbehind : ((q.after (if fresh then spaces w else [])).after (doubleApostrophes [c])).column ≠ 0 := by
    rw [after_of_no_break _ _ hdoubled]
    exact Nat.ne_of_gt (Nat.add_pos_right _ hpos)
  rw [if_neg (by simp [hb]), hb, List.append_assoc, hfront, after_append]
  by_cases hs : c = ' '
  · subst hs
    cases hbefore with
    | @blanks bs hfalse =>
      subst hfalse
      have hpush : (Gap.sameLine bs).push (q.cell ' ') = .sameLine (bs ++ [' ']) := by
        simp [Gap.push, hb, cell_char q ' ' hb]
      have hblank : isSpaceOrTab ' ' = true := rfl
      have hone : doubleApostrophes [' '] = [' '] := rfl
      refine ⟨out, .sameLine (bs ++ [' ']), ?_, ?_, by simp [settle, Gap.text]⟩
      · simp only [hone, Bool.false_eq_true, if_false, List.singleton_append, after_nil, after_cons]
        rw [cells_cons q ' ' _ (by decide), readSingle]
        simp [hblank, hpush]
      · exact .blanks rfl hbehind fun _ => (startsWith_of_adjacent hbreak rfl).1
    | breaks _ _ hstart => simp [startsWith, isSpace] at hstart
  · have hs : isSpaceOrTab c = false := by simp [isSpaceOrTab, hs, not_tab_of_printable hc]
    exact ⟨_, _, readSingle_char hs hb out gap hcolumn X, .blanks rfl hbehind fun h => absurd rfl h,
      rfl⟩

end Step

/-- The lines of a text between apostrophes are read as the text, up to the closing apostrophe. -/
theorem readSingle_lines {w : Nat} {rest : List Char} (hrest : rest.head? ≠ some '\'') {cs : List Char} {fresh : Bool}
    {gap : Gap} {out : List Char} {q : Position} (hprintable : ∀ c ∈ cs, isPrintable c = true) (hfeed : '\n' ∉ cs)
    (hbreak : adjacent isSpace isBreak cs = false) (hspace : adjacent isBreak isSpace cs = false)
    (hw : fresh = true ∨ cs.any isBreak = true → w ≠ 0) (hbefore : Before fresh q cs gap) :
    readSingle false out gap (q.cells (indentLines w fresh (doubleApostrophes cs) ++
        ((if endsFresh fresh cs then spaces w else []) ++ '\'' :: rest))) =
      some ((settle out gap).reverse ++ cs, (q.after (indentLines w fresh (doubleApostrophes cs) ++
        ((if endsFresh fresh cs then spaces w else []) ++ ['\'']))).cells rest) := by
  induction cs generalizing fresh gap out q with
  | nil =>
    obtain ⟨hfront, hcolumn⟩ := readSingle_indent out (fun h => hw (.inl h)) hbefore ('\'' :: rest)
    have hnone : indentLines w fresh (doubleApostrophes []) = [] := rfl
    have hfresh : endsFresh fresh [] = fresh := rfl
    rw [hnone, hfresh, List.nil_append, List.nil_append, List.append_nil, hfront,
      readSingle_close out gap hcolumn hrest, after_append]
    rfl
  | cons c cs ih =>
    obtain ⟨out', gap', hstep, hbehind, hsettle⟩ := readSingle_step out (hprintable c (by simp))
      (fun h => hfeed (by simp [h])) hbreak hspace (fun h => hw (.inl h)) hbefore
      (indentLines w (isBreak c) (doubleApostrophes cs) ++
        ((if endsFresh (isBreak c) cs then spaces w else []) ++ '\'' :: rest))
    have hw' : isBreak c = true ∨ cs.any isBreak = true → w ≠ 0 := fun h => hw (.inr (by simpa using h))
    rw [endsFresh_cons, indentLines_doubleApostrophes, List.append_assoc, hstep,
      ih (fun d hd => hprintable d (by simp [hd])) (fun h => hfeed (by simp [h])) (adjacent_of_cons hbreak)
        (adjacent_of_cons hspace) hw' hbehind, hsettle, List.append_assoc, after_append]
    simp

theorem mem_indentLines {w : Nat} {fresh : Bool} {cs : List Char} {c : Char} (h : c ∈ indentLines w fresh cs) :
    c = ' ' ∨ c ∈ cs := by
  induction cs generalizing fresh with
  | nil => cases h
  | cons d cs ih =>
    rw [indentLines] at h
    split at h
    · obtain rfl | h := List.mem_cons.mp h
      · exact .inr (List.mem_cons_self ..)
      · exact (ih h).imp_right (List.mem_cons_of_mem d)
    · obtain h | h := List.mem_append.mp h
      · split at h
        · exact .inl (List.eq_of_mem_replicate h)
        · cases h
      · obtain rfl | h := List.mem_cons.mp h
        · exact .inr (List.mem_cons_self ..)
        · exact (ih h).imp_right (List.mem_cons_of_mem d)

theorem cr_not_mem_indentLines {w : Nat} {fresh : Bool} {cs : List Char} (h : '\r' ∉ cs) :
    '\r' ∉ indentLines w fresh cs := fun hmem => (mem_indentLines hmem).elim (by decide) h

theorem isQuoted_singleQuoted {w : Nat} {cs : List Char} (h : allowsSingle cs = true) (hfeed : '\n' ∉ cs)
    (hw : cs.any isBreak = true → w ≠ 0) : IsQuoted (singleQuoted w cs) cs := by
  simp only [allowsSingle, needsEscapes, Bool.and_eq_true, Bool.not_eq_true', Bool.or_eq_false_iff,
    List.any_eq_false] at h
  obtain ⟨⟨hprintable, hbreak⟩, hspace⟩ := h
  have hprintable : ∀ c ∈ cs, isPrintable c = true := fun c hc => by simpa using hprintable c hc
  have hends : endsFresh false cs = endsIn isBreak cs := by
    cases cs <;> rfl
  have hcr : '\r' ∉ indentLines w false (doubleApostrophes cs) := by
    refine cr_not_mem_indentLines fun hmem => ?_
    obtain ⟨d, hd, hmem⟩ := List.mem_flatMap.mp hmem
    split at hmem
    · exact absurd hmem (by decide)
    · exact not_cr_of_printable (hprintable d hd) (List.mem_singleton.mp hmem).symm
  have htext : singleQuoted w cs = '\'' :: (indentLines w false (doubleApostrophes cs) ++
      ((if endsFresh false cs then spaces w else []) ++ ['\''])) := by
    rw [hends, singleQuoted, List.cons_append, List.cons_append, List.append_assoc]
  refine ⟨'\'', _, _, htext, rfl, ?_, fun u q rest => Scanner.token_singleQuote u q rest, fun q rest hrest => ?_⟩
  · have hspaces : '\r' ∉ (if endsFresh false cs then spaces w else []) := by
      split
      · exact cr_not_mem_spaces w
      · exact List.not_mem_nil
    simp [hcr, hspaces]
  · have hcolumn : (q.next '\'').column ≠ 0 := by
      rw [next_of_not_break q '\'' rfl]
      exact Nat.succ_ne_zero _
    have hread := @readSingle_lines w rest hrest cs false .none [] (q.next '\'') hprintable hfeed hbreak hspace
      (fun h => hw (h.resolve_left Bool.false_ne_true)) (.blanks rfl hcolumn fun h => absurd rfl h)
    have hcells : q.cells (singleQuoted w cs ++ rest) = q.cell '\'' ::
        (q.next '\'').cells (indentLines w false (doubleApostrophes cs) ++
          ((if endsFresh false cs then spaces w else []) ++ '\'' :: rest)) := by
      rw [htext, List.cons_append, cells_cons q '\'' _ (by decide)]
      simp
    rw [htext] at hcells ⊢
    simp only [hcells, List.drop_one, List.tail_cons, hread, Scanner.scalarToken]
    rfl

namespace Scanner

variable {cols : List Nat} {key : Option PossibleKey} {allowed : Bool} {ts : List Token} {q : Position}
  {rest A s : List Char} {k : Nat}

theorem leads_quotedLine (h : IsQuoted A s) (hl : EndsLine cols key q k) :
    Leads (outside cols key allowed ts q (spaces k ++ (A ++ '\n' :: rest)))
      (outside cols none true (.scalar .quoted (String.ofList s) :: ts)
        (((q.after (spaces k)).after A).next '\n') rest) := by
  obtain ⟨c, A, read, rfl, hopens, hcr, htoken, hread⟩ := h
  have hline : q.line ≤ ((q.after (spaces k)).after (c :: A)).line := by
    rw [← after_append]
    exact after_line_le q _
  refine ((hl.mayStart hopens).leads_leaf (fun u _ => htoken u _ _) (hread _ ('\n' :: rest) (by simp)) ?_).trans
    (leads_newLine fun x hx => ?_)
  · exact length_cells_after_le _ _ _ hcr
  · obtain ⟨hrequired, hearly⟩ := hl.saved x hx
    exact ⟨hrequired, Nat.le_trans hearly hline⟩

theorem leads_quotedKey (h : IsQuoted A s) (hk : InKey cols key allowed q k A.length)
    (hrest : rest.head? ≠ some '\'') :
    Leads (outside cols key allowed ts q (spaces k ++ (A ++ rest)))
      (outside cols (saved cols key allowed ts (q.after (spaces k))) false
        (.scalar .quoted (String.ofList s) :: ts) ((q.after (spaces k)).after A) rest) := by
  obtain ⟨c, A, read, rfl, hopens, hcr, htoken, hread⟩ := h
  have hleads : Leads (outside cols key allowed ts q (spaces k ++ c :: (A ++ rest))) _ :=
    (hk.mayStart hopens).leads_leaf (fun u _ => htoken u _ _) (hread _ rest hrest) (length_cells_after_le _ _ _ hcr)
  rwa [hk.keepFresh] at hleads

end Scanner

end CiWorkflow.Yaml
