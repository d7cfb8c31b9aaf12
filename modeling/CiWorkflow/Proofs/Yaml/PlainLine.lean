import CiWorkflow.Proofs.Yaml.Outside
import CiWorkflow.Proofs.Text.Every
import CiWorkflow.Yaml.Style

set_option autoImplicit false

namespace CiWorkflow.Yaml

open Position

theorem not_tab_of_printable {c : Char} (h : isPrintable c = true) : c ≠ '\t' := by
  rintro rfl
  cases h

theorem not_cr_of_printable {c : Char} (h : isPrintable c = true) : c ≠ '\r' := by
  rintro rfl
  cases h

theorem isSpaceOrTab_of_printable {c : Char} (h : isPrintable c = true) : isSpaceOrTab c = isSpace c := by
  simp [isSpaceOrTab, isSpace, not_tab_of_printable h]

structure IsPlain (cs : List Char) : Prop where
  nonempty : cs ≠ []
  printable : ∀ c ∈ cs, isPrintable c = true
  oneLine : ∀ c ∈ cs, isBreak c = false
  start : startsWith isSpace cs = false
  stop : endsIn isSpace cs = false
  opens : opensSyntax cs = false
  holds : hasSyntax false (cs.drop 1) = false

theorem isPlain_of_allowsPlain {cs : List Char} (h : allowsPlain cs = true) : IsPlain cs := by
  simp only [allowsPlain, needsEscapes, Bool.and_eq_true, Bool.not_eq_true', Bool.or_eq_false_iff,
    List.any_eq_false, List.isEmpty_eq_false_iff] at h
  obtain ⟨⟨⟨⟨⟨⟨hne, hprintable, -⟩, hbreak⟩, hstart⟩, hstop⟩, hopens⟩, hholds⟩ := h
  exact ⟨hne, fun c hc => by simpa using hprintable c hc, fun c hc => by simpa using hbreak c hc, hstart, hstop, hopens,
    hholds⟩

theorem endsWord_append {cs : List Char} (h : cs ≠ []) (tail : List Char) : endsWord (cs ++ tail) = endsWord cs := by
  cases cs with
  | nil => exact absurd rfl h
  | cons => rfl

theorem readPlain_space (indent : Nat) (out blanks : List Char) {c : Char} {q : Position}
    (hc : isPrintable c = true) (hb : isBreak c = false) (hs : isSpace c = true) (X : List Char) :
    readPlain false indent out (.sameLine blanks) (q.cells (c :: X)) =
      readPlain false indent out (.sameLine (blanks ++ [c])) ((q.next c).cells X) := by
  have hpush : (Gap.sameLine blanks).push (q.cell c) = .sameLine (blanks ++ [c]) := by
    simp [Gap.push, hb, cell_char q c hb]
  rw [cells_cons q c _ (not_cr_of_printable hc), readPlain]
  simp only [isBlank_cell, isSpaceOrTab_of_printable hc, hs, Bool.true_or, if_true, cell_char q c hb,
    not_tab_of_printable hc, decide_false, Bool.and_false, Bool.false_eq_true, if_false, hpush]

/-- Any other character is taken with the spaces in front of it, unless it is a colon at the end of a word or a hash
behind a space. -/
theorem readPlain_char (indent : Nat) (out blanks : List Char) {c : Char} {q : Position} (hq : 0 < q.column)
    (hindent : indent ≤ q.column) (hc : isPrintable c = true) (hb : isBreak c = false) (hs : isSpace c = false)
    {X : List Char} (hcolon : c = ':' → endsWord X = false) (hhash : c = '#' → blanks = []) :
    readPlain false indent out (.sameLine blanks) (q.cells (c :: X)) =
      readPlain false indent (c :: (blanks.reverse ++ out)) (.sameLine []) ((q.next c).cells X) := by
  have hmark := atDocumentMarker_of_column q (c :: X) (Nat.ne_of_gt hq)
  rw [cells_cons q c _ (not_cr_of_printable hc)] at hmark ⊢
  have hends : (decide (c = ':') && endsWord X) = false := by
    rwa [Bool.and_eq_false_imp, decide_eq_true_eq]
  have hlt : ¬ q.column < indent := Nat.not_lt.mpr hindent
  have htext : (Gap.sameLine blanks).text = blanks := rfl
  rw [readPlain]
  simp only [isBlank_cell, isLineEnd_cell, isSpaceOrTab_of_printable hc, hs, hb, cell_column, cell_char q c hb, hmark,
    atWordEnd_cells, hends, Bool.false_and, Bool.or_self, Bool.false_eq_true, if_false, htext]
  rw [if_neg]
  · rfl
  · simp only [Bool.and_eq_true, Bool.not_eq_true', Bool.or_eq_true, decide_eq_true_eq, Bool.not_false,
      Bool.true_and]
    rintro ⟨hnone, hor⟩
    rw [hhash (by simpa [hlt] using hor)] at hnone
    cases hnone

theorem readPlain_further (indent : Nat) (tail : List Char) {cs out blanks : List Char} {q : Position}
    (hq : 0 < q.column) (hindent : indent ≤ q.column) (hprintable : ∀ c ∈ cs, isPrintable c = true)
    (hbreak : ∀ c ∈ cs, isBreak c = false) (hquiet : hasSyntax (!blanks.isEmpty) cs = false)
    (hstop : endsIn isSpace cs = false) (hblanks : cs = [] → blanks = []) :
    readPlain false indent out (.sameLine blanks) (q.cells (cs ++ tail)) =
      readPlain false indent (cs.reverse ++ (blanks.reverse ++ out)) .none ((q.after cs).cells tail) := by
  induction cs generalizing out blanks q with
  | nil =>
    rw [hblanks rfl]
    rfl
  | cons c cs ih =>
    have hc := hprintable c (by simp)
    have hb := hbreak c (by simp)
    have hspace := isSpaceOrTab_of_printable hc
    have hnext : (q.next c).column = q.column + 1 := by rw [next_of_not_break q c hb]
    simp only [hasSyntax, Bool.or_eq_false_iff, Bool.and_eq_false_imp, decide_eq_true_eq, hb, Bool.or_false] at hquiet
    obtain ⟨⟨hcolon, hhash⟩, hquiet⟩ := hquiet
    have hrest (out blanks : List Char) := @ih out blanks (q.next c) (by omega) (by omega)
      (fun d hd => hprintable d (by simp [hd])) (fun d hd => hbreak d (by simp [hd]))
    rw [List.cons_append]
    cases hs : isSpace c with
    | true =>
      have hne : cs ≠ [] := by
        rintro rfl
        simp [endsIn, hs] at hstop
      have hstop' : endsIn isSpace cs = false := by
        simpa [endsIn, List.getLast?_cons_of_ne_nil hne] using hstop
      have hempty : (blanks ++ [c]).isEmpty = false := by simp
      rw [readPlain_space indent out blanks hc hb hs, hrest out (blanks ++ [c])
        (by rwa [hempty, Bool.not_false, ← hs, ← hspace]) hstop' (fun h => absurd h hne)]
      simp
    | false =>
      have hcolon' : c = ':' → endsWord (cs ++ tail) = false := fun hc => by
        have hend := hcolon hc
        have hne : cs ≠ [] := by
          rintro rfl
          cases hend
        rwa [endsWord_append hne]
      have hstop' : endsIn isSpace cs = false := by
        cases hcs : cs with
        | nil => rfl
        | cons d ds => simpa [endsIn, hcs] using hstop
      rw [readPlain_char indent out blanks hq hindent hc hb hs hcolon' (fun hc => by simpa using hhash hc),
        hrest (c :: (blanks.reverse ++ out)) [] (by simpa [hspace, hs] using hquiet) hstop' (fun _ => rfl),
        List.reverse_nil, List.nil_append, List.reverse_cons, List.append_assoc, after_cons]
      rfl

theorem IsPlain.first {c : Char} {cs : List Char} (h : IsPlain (c :: cs)) :
    indicators.contains c = false ∧ (c = '?' ∨ c = ':' ∨ c = '-' → endsWord cs = false) := by
  have hopens := h.opens
  unfold opensSyntax at hopens
  split at hopens
  · cases hopens
  · cases hopens
  · rename_i heq
    cases heq
    simp only [Bool.or_eq_false_iff, Bool.and_eq_false_imp, Bool.or_eq_true, decide_eq_true_eq] at hopens
    exact ⟨hopens.1, fun hc => hopens.2 (by rcases hc with hc | hc | hc <;> simp [hc])⟩
  · rename_i heq
    cases heq

theorem IsPlain.not_atDocumentMarker {cs : List Char} (h : IsPlain cs) {tail : List Char}
    (htail : endsWord tail = true ∨ tail.head? = some ':') (q : Position) :
    atDocumentMarker (q.cells (cs ++ tail)) = false := by
  by_cases hq : q.column = 0
  · have hspells (mark : Char) (hm : mark = '-' ∨ mark = '.') : spellsMarker mark (cs ++ tail) = false := by
      have htail' : tail.head? ≠ some mark := by
        intro hhead
        obtain ⟨d, tail', rfl⟩ : ∃ d tail', tail = d :: tail' := by
          cases tail with
          | nil => cases hhead
          | cons d tail' => exact ⟨d, tail', rfl⟩
        obtain rfl : d = mark := by simpa using hhead
        obtain rfl | rfl := hm
        · exact absurd htail (by simp [endsWord, isSpaceOrTab, isBreak])
        · exact absurd htail (by simp [endsWord, isSpaceOrTab, isBreak])
      have hopens := h.opens
      obtain ⟨a, cs, rfl⟩ := List.exists_cons_of_ne_nil h.nonempty
      obtain _ | ⟨b, _ | ⟨c, cs⟩⟩ := cs
      · cases tail with
        | nil => rfl
        | cons b tail =>
          have hb : b ≠ mark := by simpa using htail'
          cases tail <;> simp [spellsMarker, hb]
      · cases tail with
        | nil => rfl
        | cons c tail =>
          have hc : c ≠ mark := by simpa using htail'
          simp [spellsMarker, hc]
      · refine Bool.eq_false_iff.mpr fun hspells => ?_
        simp only [List.cons_append, spellsMarker, Bool.and_eq_true, decide_eq_true_eq] at hspells
        obtain ⟨⟨⟨rfl, rfl⟩, rfl⟩, -⟩ := hspells
        obtain rfl | rfl := hm <;> simp [opensSyntax] at hopens
    rw [atDocumentMarker, isMarker_cells '-' rfl q hq, isMarker_cells '.' rfl q hq, hspells '-' (.inl rfl),
      hspells '.' (.inr rfl)]
    rfl
  · exact atDocumentMarker_of_column q _ hq

theorem readPlain_whole (indent : Nat) {cs : List Char} {q : Position} (h : IsPlain cs) (tail : List Char)
    (htail : endsWord tail = true ∨ tail.head? = some ':') (hindent : indent ≤ q.column + 1) :
    readPlain false indent [] .none (q.cells (cs ++ tail)) =
      readPlain false indent cs.reverse .none ((q.after cs).cells tail) := by
  have hmark := h.not_atDocumentMarker htail q
  obtain ⟨c, cs, rfl⟩ := List.exists_cons_of_ne_nil h.nonempty
  have hfirst := h.first.2
  have hc := h.printable c (by simp)
  have hb := h.oneLine c (by simp)
  have hs : isSpaceOrTab c = false := by
    rw [isSpaceOrTab_of_printable hc]
    simpa [startsWith] using h.start
  have hnext : (q.next c).column = q.column + 1 := by rw [next_of_not_break q c hb]
  have hcolon : (decide (c = ':') && endsWord (cs ++ tail)) = false := by
    by_cases hc : c = ':'
    · have hend := hfirst (.inr (.inl hc))
      have hne : cs ≠ [] := by
        rintro rfl
        cases hend
      rw [endsWord_append hne, hend, Bool.and_false]
    · simp [hc]
  have hstop : endsIn isSpace cs = false := by
    have hstop := h.stop
    cases hcs : cs with
    | nil => rfl
    | cons d ds => simpa [endsIn, hcs] using hstop
  have hholds : hasSyntax false cs = false := h.holds
  have hrest : readPlain false indent [c] (.sameLine []) ((q.next c).cells (cs ++ tail)) =
      readPlain false indent (cs.reverse ++ ([].reverse ++ [c])) .none (((q.next c).after cs).cells tail) :=
    readPlain_further indent tail (by omega) (by omega) (fun d hd => h.printable d (by simp [hd]))
      (fun d hd => h.oneLine d (by simp [hd])) hholds hstop (fun _ => rfl)
  rw [List.cons_append, cells_cons q c _ (not_cr_of_printable hc)] at hmark ⊢
  rw [readPlain]
  simp only [isBlank_cell, isLineEnd_cell, hs, hb, cell_char q c hb, hmark, atWordEnd_cells, hcolon, Gap.isNone,
    decide_true, Bool.not_true, Bool.false_and, Bool.or_self, Bool.false_eq_true, if_false]
  simpa [Gap.none, Gap.text] using hrest

theorem readPlain_colon (indent : Nat) (out cs : List Char) {q : Position} (hq : 0 < q.column)
    (hcs : endsWord cs = true) :
    readPlain false indent out .none (q.cells (':' :: cs)) = some (out.reverse, false, q.cells (':' :: cs)) := by
  have hmark := atDocumentMarker_of_column q (':' :: cs) (Nat.ne_of_gt hq)
  rw [cells_cons q ':' cs (by decide)] at hmark ⊢
  rw [readPlain]
  simp only [isBlank_cell, isLineEnd_cell, hmark, cell_char q ':' rfl, atWordEnd_cells, hcs]
  simp [isSpaceOrTab, isBreak, Gap.isNone, Gap.none, Gap.crossesLines]

theorem readPlain_spaces (inFlow : Bool) (indent : Nat) (out others : List Char) (first : Option Char) (q : Position)
    (k : Nat) (cs : List Char) : readPlain inFlow indent out (.newLines first others) (q.cells (spaces k ++ cs)) =
      readPlain inFlow indent out (.newLines first others) ((q.after (spaces k)).cells cs) := by
  induction k generalizing q with
  | zero => rfl
  | succ k ih =>
    have hspaces : spaces (k + 1) = ' ' :: spaces k := rfl
    have hpush : (Gap.newLines first others).push (q.cell ' ') = .newLines first others := by simp [Gap.push, isBreak]
    rw [hspaces, List.cons_append, cells_cons q ' ' _ (by decide), readPlain]
    simp only [isBlank_cell, isLineEnd_cell, cell_char q ' ' rfl, hpush, ih]
    simp [isSpaceOrTab]

/-- The end of its line ends the text, if what follows stands further left. -/
theorem exists_readPlain_lineEnd {bound : Option Nat} {rest : List Char} (h : Scanner.Follows bound rest)
    (out : List Char) (q : Position) : ∃ (q' : Position) (cs : List Char),
      readPlain false ((bound.map (· + 1)).getD 0) out .none (q.cells ('\n' :: rest)) =
        some (out.reverse, true, q'.cells cs) ∧
      Scanner.skipToToken false true false (q'.cells cs) =
        Scanner.skipToToken false true false ((q.next '\n').cells rest) ∧
      (q'.cells cs).length ≤ ((q.next '\n').cells rest).length := by
  have hfirst : ∀ indent, readPlain false indent out .none (q.cells ('\n' :: rest)) =
      readPlain false indent out (.newLines (some '\n') []) ((q.next '\n').cells rest) := by
    intro indent
    have hpush : (Gap.sameLine []).push (q.cell '\n') = .newLines (some '\n') [] := rfl
    have hend : isBreak '\n' = true := rfl
    rw [cells_cons q '\n' rest (by decide), readPlain]
    simp [hpush, hend, Gap.none, Gap.crossesLines]
  have hcolumn : (q.next '\n').column = 0 := by rw [next_of_break q '\n' rfl]
  rw [hfirst]
  cases h with
  | done => exact ⟨q.next '\n', [], rfl, rfl, Nat.le_refl _⟩
  | feed =>
    have hend : isBreak '\n' = true := rfl
    have hfeed : ((q.next '\n').cell '\n').char = '\n' := rfl
    refine ⟨q.next '\n', [], ?_, rfl, Nat.zero_le _⟩
    rw [cells_cons _ '\n' [] (by decide), readPlain]
    simp [hend, hfeed, readPlain, Gap.push, Gap.crossesLines]
  | @token n k c cs hn hk hc =>
    have hb := isBreak_of_opensToken c hc
    have hs : isSpaceOrTab c = false := by
      simp only [opensToken, Bool.and_eq_true, Bool.not_eq_true'] at hc
      exact hc.1.1.1
    have hbehind : ((q.next '\n').after (spaces k)).column = k := by
      rw [after_spaces, hcolumn]
      exact Nat.zero_add k
    obtain rfl : bound = some n := hn
    refine ⟨(q.next '\n').after (spaces k), c :: cs, ?_, ?_, ?_⟩
    · rw [readPlain_spaces, cells_cons _ c cs (not_cr_of_not_break c hb), readPlain]
      simp only [isBlank_cell, isLineEnd_cell, hs, hb, cell_column, hbehind]
      simp [Gap.isNone, Gap.none, Gap.crossesLines, show k < n + 1 by omega]
    · rw [Scanner.skipToToken_spaces]
    · exact length_cells_after_le _ _ _ (cr_not_mem_spaces k)

theorem IsPlain.opensToken {c : Char} {cs : List Char} (h : IsPlain (c :: cs)) : opensToken c = true := by
  have hprintable := h.printable c (by simp)
  have hs : isSpaceOrTab c = false := by
    rw [isSpaceOrTab_of_printable hprintable]
    simpa [startsWith] using h.start
  have hhash : c ≠ '#' := by
    rintro rfl
    exact absurd h.first.1 (by decide)
  have hmark : c ≠ '\ufeff' := by
    rintro rfl
    cases hprintable
  simp [Yaml.opensToken, hs, h.oneLine c (by simp), hhash, hmark]

namespace Scanner

variable {cols : List Nat} {key : Option PossibleKey} {allowed : Bool} {ts : List Token} {q : Position}
  {cs rest : List Char} {k : Nat}

theorem token_plain {c : Char} (h : IsPlain (c :: cs)) (u : Scanner) (hu : u.brackets = []) (q : Position)
    {tail : List Char} (htail : endsWord tail = true ∨ tail.head? = some ':') :
    u.token? (q.cell c) ((q.next c).cells (cs ++ tail)) = u.plain? := by
  obtain ⟨hindicator, hmark⟩ := h.first
  have hb := h.oneLine c (by simp)
  have hs : isSpaceOrTab c = false := by
    rw [isSpaceOrTab_of_printable (h.printable c (by simp))]
    simpa [startsWith] using h.start
  have hmarkers := h.not_atDocumentMarker htail q
  rw [List.cons_append, cells_cons q c _ (not_cr_of_not_break c hb), atDocumentMarker, Bool.or_eq_false_iff] at hmarkers
  have hflow : u.inFlow = false := by simp [inFlow, hu]
  by_cases hc : c = '?' ∨ c = ':' ∨ c = '-'
  · have hne : cs ≠ [] := by
      rintro rfl
      cases hmark hc
    have hend : atWordEnd ((q.next c).cells (cs ++ tail)) = false := by
      rw [atWordEnd_cells, endsWord_append hne, hmark hc]
    have hblank : nextIs isSpaceOrTab ((q.next c).cells (cs ++ tail)) = false := by
      generalize (q.next c).cells (cs ++ tail) = cells at hend ⊢
      cases cells with
      | nil => rfl
      | cons d cells => exact (Bool.or_eq_false_iff.mp hend).1
    unfold token?
    obtain rfl | rfl | rfl := hc <;>
      simp [cell_char q _ hb, hmarkers.1, hmarkers.2, hend, hblank, startsPlain, hflow]
  · refine token_word u q _ ?_ hmarkers.2
    simp only [opensWord, hs, hb, Bool.false_or, Bool.not_eq_true', List.contains_eq_mem, decide_eq_false_iff_not]
    intro hmem
    have hcases : ∀ d ∈ "-?:,[]\x7b\x7d#&*!|>'\"%@\x60".toList, d = '-' ∨ d = '?' ∨ d = ':' ∨ d ∈ indicators :=
      Text.forall_mem_of_all (by decide)
    obtain hc' | hc' | hc' | hc' := hcases c hmem
    · exact hc (.inr (.inr hc'))
    · exact hc (.inl hc')
    · exact hc (.inr (.inl hc'))
    · simp [hc'] at hindicator

theorem leads_plainLine {A : List Char} (h : IsPlain A) (hl : EndsLine cols key q k) (hrest : Follows cols.head? rest) :
    Leads (outside cols key allowed ts q (spaces k ++ (A ++ '\n' :: rest)))
      (outside cols none true (.scalar .plain (String.ofList A) :: ts)
        (((q.after (spaces k)).after A).next '\n') rest) := by
  obtain ⟨q', cs, hend, hskip, hlength⟩ := exists_readPlain_lineEnd hrest A.reverse ((q.after (spaces k)).after A)
  have hindent : (cols.head?.map (· + 1)).getD 0 ≤ (q.after (spaces k)).column + 1 := by
    cases hhead : cols.head? with
    | none => exact Nat.zero_le _
    | some m => exact Nat.succ_le_succ (Nat.le_of_lt (hl.inside m hhead))
  have hread := readPlain_whole ((cols.head?.map (· + 1)).getD 0) h ('\n' :: rest) (.inl rfl) hindent
  rw [hend, List.reverse_reverse] at hread
  have hline : q.line ≤ ((q.after (spaces k)).after A).line := by
    rw [← after_append]
    exact after_line_le q _
  have hnext : (((q.after (spaces k)).after A).next '\n').line = ((q.after (spaces k)).after A).line + 1 := by
    rw [next_of_break _ '\n' rfl]
  have hcr : '\r' ∉ A := fun hmem => absurd (h.oneLine _ hmem) (by decide)
  obtain ⟨c, A, rfl⟩ := List.exists_cons_of_ne_nil h.nonempty
  refine (hl.mayStart h.opensToken).leads_plain (fun u hu => token_plain h u hu _ (.inl rfl)) hread ?_ ?_
  · refine run_newLine rfl (fun x hx => ?_) hskip
    obtain ⟨hrequired, hearly⟩ := hl.saved x hx
    exact ⟨hrequired, by omega⟩
  · have hbehind := length_cells_after_le ((q.after (spaces k)).next c) (A ++ ['\n']) rest (by
      simp only [List.mem_cons, not_or] at hcr
      simp [hcr.2])
    simpa [outside] using hbehind

theorem leads_plainKey {A : List Char} (h : IsPlain A) (hk : InKey cols key allowed q k A.length)
    (hrest : endsWord rest = true) :
    Leads (outside cols key allowed ts q (spaces k ++ (A ++ ':' :: rest)))
      (outside cols (saved cols key allowed ts (q.after (spaces k))) false
        (.scalar .plain (String.ofList A) :: ts) ((q.after (spaces k)).after A) (':' :: rest)) := by
  have hcr : '\r' ∉ A := fun hmem => absurd (h.oneLine _ hmem) (by decide)
  have hindent : (cols.head?.map (· + 1)).getD 0 ≤ (q.after (spaces k)).column + 1 := by
    cases hhead : cols.head? with
    | none => exact Nat.zero_le _
    | some m => exact Nat.succ_le_succ (hk.inside m hhead)
  have hread := readPlain_whole ((cols.head?.map (· + 1)).getD 0) h (':' :: rest) (.inr rfl) hindent
  have hcolumn : 0 < ((q.after (spaces k)).after A).column := by
    rw [after_of_no_break _ A h.oneLine]
    exact Nat.add_pos_right _ (List.length_pos_iff.mpr h.nonempty)
  rw [readPlain_colon _ _ _ hcolumn hrest, List.reverse_reverse] at hread
  obtain ⟨c, A, rfl⟩ := List.exists_cons_of_ne_nil h.nonempty
  refine (hk.mayStart h.opensToken).leads_plain (fun u hu => token_plain h u hu _ (.inr rfl)) hread (fun n => ?_) ?_
  · rw [hk.keepFresh]
  · exact length_cells_after_le ((q.after (spaces k)).next c) A (':' :: rest) (fun hmem => hcr (by simp [hmem]))

end Scanner

end CiWorkflow.Yaml
