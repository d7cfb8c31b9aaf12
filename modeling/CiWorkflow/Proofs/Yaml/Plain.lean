import CiWorkflow.Proofs.Text.Every
import CiWorkflow.Proofs.Yaml.Flow

set_option autoImplicit false

namespace CiWorkflow.Yaml

open Position

/-- Characters of a plain scalar that need no look at their surroundings. -/
def isWordy (c : Char) : Bool :=
  !isSpaceOrTab c && !isBreak c && !isFlowEnd c && c ≠ ':' && c ≠ '#'

theorem readPlain_wordy (inFlow : Bool) (indent : Nat) (out : List Char) (p : Position) (c : Char)
    (cs : List Char) (hc : isWordy c = true) (hm : atDocumentMarker (p.cells (c :: cs)) = false) :
    readPlain inFlow indent out .none (p.cells (c :: cs)) =
      readPlain inFlow indent (c :: out) .none ((p.next c).cells cs) := by
  simp only [isWordy, Bool.and_eq_true, Bool.not_eq_true', decide_eq_true_eq] at hc
  obtain ⟨⟨⟨⟨hs, hb⟩, hf⟩, hcolon⟩, hhash⟩ := hc
  rw [cells_cons p c cs (not_cr_of_not_break c hb)] at hm ⊢
  rw [readPlain]
  simp [hs, hb, hm, cell_char p c hb, hcolon, hf, Gap.isNone, Gap.none, Gap.text]

theorem readPlain_word (inFlow : Bool) (indent : Nat) (w : List Char) (hw : ∀ c ∈ w, isWordy c = true)
    (out : List Char) (p : Position) (hp : p.column ≠ 0) (rest : List Char) :
    readPlain inFlow indent out .none (p.cells (w ++ rest)) =
      readPlain inFlow indent (w.reverse ++ out) .none ((p.after w).cells rest) := by
  induction w generalizing out p with
  | nil => rfl
  | cons c others ih =>
    have hc := hw c (by simp)
    have hb : isBreak c = false := by
      simp only [isWordy, Bool.and_eq_true, Bool.not_eq_true'] at hc
      exact hc.1.1.1.2
    have hcol : (p.next c).column ≠ 0 := by
      rw [next_of_not_break p c hb]
      simp
    rw [List.cons_append, readPlain_wordy inFlow indent out p c _ hc (atDocumentMarker_of_column p _ hp),
      ih (fun d hd => hw d (by simp [hd])) (c :: out) (p.next c) hcol]
    simp

theorem readPlain_stop (indent : Nat) (ws : List Char) (hws : ∀ w ∈ ws, isFlowBlank w = true) (c : Char)
    (hc : isFlowEnd c = true) (cs out : List Char) (gap : Gap) (p : Position) :
    ∃ crossed, readPlain true indent out gap (p.cells (ws ++ c :: cs)) =
      some (out.reverse, crossed, (p.after ws).cells (c :: cs)) := by
  induction ws generalizing gap p with
  | nil =>
    have hc' : c = ',' ∨ c = '[' ∨ c = ']' ∨ c = '\x7b' ∨ c = '\x7d' := by
      simpa [isFlowEnd, or_assoc] using hc
    have hb : isBreak c = false := by
      rcases hc' with rfl | rfl | rfl | rfl | rfl <;> rfl
    have hs : isSpaceOrTab c = false := by
      rcases hc' with rfl | rfl | rfl | rfl | rfl <;> rfl
    have hne : c ≠ '#' ∧ c ≠ ':' ∧ c ≠ '-' ∧ c ≠ '.' := by
      rcases hc' with rfl | rfl | rfl | rfl | rfl <;> decide
    have hm : ∀ rest, atDocumentMarker (p.cell c :: rest) = false := by
      intro rest
      simp [atDocumentMarker, Scanner.not_isMarker _ p c rest hb, hne]
    refine ⟨gap.crossesLines, ?_⟩
    rw [List.nil_append, after_nil, cells_cons p c cs (not_cr_of_not_break c hb), readPlain]
    simp [hs, hb, hm, cell_char p c hb, hne, hc]
  | cons w others ih =>
    have hw := hws w (by simp)
    have hcr : w ≠ '\r' := by
      rintro rfl
      cases hw
    have hchar : (p.cell w).char ≠ '\t' := by
      simp only [isFlowBlank, Bool.or_eq_true, decide_eq_true_eq] at hw
      rcases hw with rfl | rfl <;> simp [Position.cell, normalBreak]
    have hblank : (isSpaceOrTab w || isBreak w) = true := by
      simp only [isFlowBlank, Bool.or_eq_true, decide_eq_true_eq] at hw
      rcases hw with rfl | rfl <;> rfl
    obtain ⟨crossed, ih⟩ := ih (fun x hx => hws x (by simp [hx])) (gap.push (p.cell w)) (p.next w)
    refine ⟨crossed, ?_⟩
    rw [List.cons_append, cells_cons p w _ hcr, readPlain]
    simp only [isBlank_cell, isLineEnd_cell, hblank, ↓reduceIte, hchar, decide_false, Bool.and_false,
      Bool.false_eq_true]
    exact ih

/-- What a word starts with: a letter, a digit or a point, or a minus in front of one of them. -/
def startsWord : List Char → Bool
  | '-' :: d :: _ => d.isDigit || d = '.'
  | c :: _ => c.isAlphanum || c = '.'
  | [] => false

theorem opensWord_of_alphanum (c : Char) (h : c.isAlphanum = true ∨ c = '.') : Scanner.opensWord c = true := by
  rcases h with h | rfl
  · have hne : ∀ x : Char, x.isAlphanum = false → c ≠ x := by
      rintro x hx rfl
      rw [hx] at h
      cases h
    have hspecial : "-?:,[]\x7b\x7d#&*!|>'\"%@\x60".toList.contains c = false := by
      rw [List.contains_eq_mem, decide_eq_false_iff_not]
      intro hmem
      have hall : ∀ x ∈ "-?:,[]\x7b\x7d#&*!|>'\"%@\x60".toList, x.isAlphanum = false :=
        Text.forall_mem_of_all (by decide)
      rw [hall c hmem] at h
      cases h
    unfold Scanner.opensWord
    rw [hspecial]
    simp [isSpaceOrTab, isBreak, hne ' ' rfl, hne '\t' rfl, hne '\r' rfl, hne '\n' rfl, hne '\u0085' rfl,
      hne '\u2028' rfl, hne '\u2029' rfl]
  · decide

theorem opensToken_of_alphanum (c : Char) (h : c.isAlphanum = true ∨ c = '.') : opensToken c = true := by
  rcases h with h | rfl
  · have hne : ∀ x : Char, x.isAlphanum = false → c ≠ x := by
      rintro x hx rfl
      rw [hx] at h
      cases h
    simp [opensToken, isSpaceOrTab, isBreak, hne ' ' rfl, hne '\t' rfl, hne '\r' rfl, hne '\n' rfl,
      hne '\u0085' rfl, hne '\u2028' rfl, hne '\u2029' rfl, hne '#' rfl, hne '\ufeff' rfl]
  · decide

namespace Scanner

theorem isMarker_of_column (mark : Char) (q : Position) (c : Char) (rest : List Cell) (h : q.column ≠ 0) :
    isMarker mark (q.cell c :: rest) = false := by
  match rest with
  | [] | [_] => rfl
  | _ :: _ :: _ => simp [isMarker, h]

variable {s : Scanner} {d : Nat} {cols : List Nat} {ts : List Token} {p : Position}

theorem FlowAt.plain (ws w ws' cs : List Char) (c : Char)
    (h : FlowAt s d cols ts p (ws ++ (w ++ (ws' ++ c :: cs)))) (hws : ∀ x ∈ ws, isFlowBlank x = true)
    (hp : (p.after ws).column ≠ 0) (hw : ∀ x ∈ w, isWordy x = true) (hstart : startsWord w = true)
    (hws' : ∀ x ∈ ws', isFlowBlank x = true) (hc : isFlowEnd c = true) :
    ∃ v, Leads s v ∧
      FlowAt v d cols (.scalar .plain (String.ofList w) :: ts) ((p.after ws).after w) (ws' ++ c :: cs) := by
  obtain ⟨x, w, rfl⟩ : ∃ x tail, w = x :: tail := by
    cases w with
    | nil => cases hstart
    | cons x tail => exact ⟨x, tail, rfl⟩
  rw [List.cons_append] at h
  have hx := hw x (by simp)
  have hb : isBreak x = false := by
    simp only [isWordy, Bool.and_eq_true, Bool.not_eq_true'] at hx
    exact hx.1.1.1.2
  have hfirst : opensToken x = true ∧ ∀ u : Scanner,
      u.token? ((p.after ws).cell x) (((p.after ws).next x).cells (w ++ (ws' ++ c :: cs))) = u.plain? := by
    by_cases hminus : x = '-'
    · subst hminus
      refine ⟨rfl, fun u => ?_⟩
      match w with
      | [] => cases hstart
      | e :: tail =>
        have he : e.isDigit = true ∨ e = '.' := by simpa [startsWord] using hstart
        have hw' := hw e (by simp)
        simp only [isWordy, Bool.and_eq_true, Bool.not_eq_true'] at hw'
        rw [List.cons_append, cells_cons _ e _ (not_cr_of_not_break e hw'.1.1.1.2)]
        exact token_minus u _ _ e (isMarker_of_column _ _ _ _ hp) hw'.1.1.1.1 hw'.1.1.1.2
    · have hword : x.isAlphanum = true ∨ x = '.' := by
        cases w <;> simpa [startsWord, hminus] using hstart
      exact ⟨opensToken_of_alphanum x hword, fun u =>
        token_word u _ _ (opensWord_of_alphanum x hword) (isMarker_of_column _ _ _ _ hp)⟩
  obtain ⟨u, hr, hd, hcol, ho, htok, -, -, hleads, -⟩ := h.round hws hfirst.1
  have hcells := cells_cons (p.after ws) x (w ++ (ws' ++ c :: cs)) (not_cr_of_not_break x hb)
  have hr' := hr
  rw [hcells] at hr
  obtain ⟨v, hv, hvr, hvt, hvc, hvb, hvo, -, -⟩ := ho.saveKey_spec (inFlow_of_brackets hd) _ x _ hr
  have hvflow : v.inFlow = true := inFlow_of_brackets (hvb.trans hd)
  obtain ⟨crossed, hstop⟩ := readPlain_stop ((v.parent.map (· + 1)).getD 0) ws' hws' c hc cs (x :: w).reverse .none
    ((p.after ws).after (x :: w))
  have hread := readPlain_word true ((v.parent.map (· + 1)).getD 0) (x :: w) hw [] (p.after ws) hp (ws' ++ c :: cs)
  rw [List.append_nil, hstop, List.reverse_reverse] at hread
  have hskip : flowRest ((((p.after ws).after (x :: w)).after ws').cells (c :: cs)) =
      flowRest (((p.after ws).after (x :: w)).cells (ws' ++ c :: cs)) :=
    (flowRest_blanks _ ws' _ hws').symm
  refine ⟨_, hleads { (v.emit (.scalar .plain (String.ofList (x :: w)))).allowKey crossed with
      rest := (((p.after ws).after (x :: w)).after ws').cells (c :: cs) } ?_ ?_,
    ⟨?_, ?_, ⟨hvo.block, hvo.brackets⟩, ?_, hskip⟩⟩
  · rw [hfirst.2 u, plain?, hv]
    simp only [Option.bind_eq_bind, Option.bind_some, hvr, hr', hvflow]
    rw [← List.cons_append, hread]
    rfl
  · have hcr : '\r' ∉ w ++ ws' := by
      intro hmem
      rcases List.mem_append.mp hmem with hmem | hmem
      · exact absurd (hw _ (List.mem_cons_of_mem x hmem)) (by decide)
      · exact absurd (hws' _ hmem) (by decide)
    rw [after_cons, ← after_append, ← List.append_assoc]
    exact length_cells_after_le _ _ _ hcr
  · simp [emit, allowKey, hvb, hd]
  · exact hvc.trans hcol
  · simp [emit, allowKey, hvt, htok]

end Scanner

end CiWorkflow.Yaml
