import CiWorkflow.Json.Quoted
import CiWorkflow.Proofs.Yaml.DoubleQuoted
import CiWorkflow.Yaml.Style

set_option autoImplicit false

namespace CiWorkflow.Json

open Yaml Position

/-- Characters that end a line in YAML and stand for themselves in JSON. -/
def isRawBreak (c : Char) : Bool := c = '\u0085' || c = '\u2028' || c = '\u2029'

theorem isBreak_of_rawBreak (c : Char) (h : isRawBreak c = true) : isBreak c = true := by
  simp only [isRawBreak, Bool.or_eq_true, decide_eq_true_eq] at h
  rcases h with (rfl | rfl) | rfl <;> decide

theorem escape_rawBreak (c : Char) (h : isRawBreak c = true) : escape c = [c] := by
  simp only [isRawBreak, Bool.or_eq_true, decide_eq_true_eq] at h
  rcases h with (rfl | rfl) | rfl <;> decide

theorem hexFold_control (n : Nat) (h : n < 32) :
    hexFold 0 ['0', '0', hexDigit (n / 16), hexDigit (n % 16)] = n ∧
      ∀ d ∈ ['0', '0', hexDigit (n / 16), hexDigit (n % 16)], (digitValue? 16 d).isSome = true := by
  have hvalue : ∀ k : Fin 32, hexFold 0 ['0', '0', hexDigit (k / 16), hexDigit (k % 16)] = k := by decide
  have hdigits : ∀ k : Fin 32, (['0', '0', hexDigit (k / 16), hexDigit (k % 16)].all fun d =>
      (digitValue? 16 d).isSome) = true := by decide
  exact ⟨hvalue ⟨n, h⟩, List.all_eq_true.mp (hdigits ⟨n, h⟩)⟩

/-- Every other character is spelled in a way that YAML reads as that character. -/
theorem spells_escape (c : Char) (h : isRawBreak c = false) : Spells (escape c) c := by
  by_cases hnamed : c ∈ ['"', '\\', '\x08', '\t', '\n', '\x0c', '\r']
  · have hname : ∀ name : Char, isBreak name = false → escapeLength? name = none → escape c = ['\\', name] →
        unescape? name = some c → Spells (escape c) c := by
      intro name hb hl he hu
      exact .inr ⟨[name], he, escapes_name name c hb hl hu⟩
    simp only [List.mem_cons, List.not_mem_nil, or_false] at hnamed
    rcases hnamed with rfl | rfl | rfl | rfl | rfl | rfl | rfl
    · exact hname '"' rfl rfl rfl rfl
    · exact hname '\\' rfl rfl rfl rfl
    · exact hname 'b' rfl rfl rfl rfl
    · exact hname 't' rfl rfl rfl rfl
    · exact hname 'n' rfl rfl rfl rfl
    · exact hname 'f' rfl rfl rfl rfl
    · exact hname 'r' rfl rfl rfl rfl
  · have hne : c.toNat ∉ [0x22, 0x5C, 0x08, 0x09, 0x0A, 0x0C, 0x0D] := by
      intro hmem
      have hmem : c.toNat ∈ ['"', '\\', '\x08', '\t', '\n', '\x0c', '\r'].map Char.toNat := hmem
      obtain ⟨d, hd, he⟩ := List.mem_map.mp hmem
      rw [Char.toNat_inj.mp he] at hd
      exact hnamed hd
    simp only [List.mem_cons, List.not_mem_nil, or_false, not_or] at hne
    have hescape : escape c =
        if c.toNat < 0x20 then ['\\', 'u', '0', '0', hexDigit (c.toNat / 16), hexDigit (c.toNat % 16)] else [c] := by
      unfold escape
      split <;> first | rfl | omega
    rw [hescape]
    split
    · rename_i hlt
      obtain ⟨hfold, hdigits⟩ := hexFold_control c.toNat hlt
      refine .inr ⟨_, rfl, escapes_digits 'u' c _ rfl rfl (by simp) hdigits ?_⟩
      rw [hfold, charOf_toNat]
    · refine .inl ⟨rfl, ?_⟩
      simp only [isRawBreak, Bool.or_eq_false_iff, decide_eq_false_iff_not] at h
      simp only [List.mem_cons, List.not_mem_nil, or_false, not_or] at hnamed
      simp [isVerbatim, isBreak, h, hnamed]

theorem escape_cases (c : Char) :
    escape c = [c] ∧ 0x20 ≤ c.toNat ∧ c ≠ '"' ∧ c ≠ '\\' ∨
      ∃ tail, escape c = '\\' :: tail ∧ (c.toNat < 0x20 ∨ c = '"' ∨ c = '\\') := by
  by_cases hq : c = '"' ∨ c = '\\'
  · right
    rcases hq with rfl | rfl
    · exact ⟨_, rfl, .inr (.inl rfl)⟩
    · exact ⟨_, rfl, .inr (.inr rfl)⟩
  · have hne : c.toNat ≠ 0x22 ∧ c.toNat ≠ 0x5C := by
      refine ⟨fun h => hq (.inl ?_), fun h => hq (.inr ?_)⟩
      · exact Char.toNat_inj.mp h
      · exact Char.toNat_inj.mp h
    rw [not_or] at hq
    unfold escape
    split <;> first
      | exact .inr ⟨_, rfl, .inl (by omega)⟩
      | omega
      | skip
    split
    · exact .inr ⟨_, rfl, .inl ‹_›⟩
    · exact .inl ⟨rfl, by omega, hq⟩

def opensMarker (mark : Char) : List Char → Bool
  | a :: b :: c :: d :: _ => a = mark && b = mark && c = mark && (d = ' ' || isRawBreak d)
  | _ => false

/-- What starts or ends a document when it stands at the start of a line. -/
def opensDocument (cs : List Char) : Bool := opensMarker '-' cs || opensMarker '.' cs

/-- What is read of a string, from a place that may be the start of a line. -/
def reread (lineStart : Bool) (out : List Char) (gap : Gap) : List Char → Option (List Char)
  | [] => some (out.reverse ++ gap.text)
  | c :: rest =>
    if c = ' ' || isRawBreak c then reread (isRawBreak c) out (gap.push (start.cell c)) rest
    else if lineStart && opensDocument (c :: rest) then none
    else reread false (c :: settle out gap) .none rest

theorem isSpaceOrTab_iff (c : Char) (h : 0x20 ≤ c.toNat) : isSpaceOrTab c = decide (c = ' ') := by
  have htab : c ≠ '\t' := by
    rintro rfl
    exact absurd h (by decide)
  simp [isSpaceOrTab, htab]

theorem isBreak_iff (c : Char) (h : 0x20 ≤ c.toNat) : isBreak c = isRawBreak c := by
  have hcr : c ≠ '\r' := by
    rintro rfl
    exact absurd h (by decide)
  have hlf : c ≠ '\n' := by
    rintro rfl
    exact absurd h (by decide)
  simp [isBreak, isRawBreak, hcr, hlf]

/-- The first character of the spelling of a string tells its first character where it counts. -/
theorem head_escape (d : Char) : ∃ e tail, escape d = e :: tail ∧
    (e = '-' ↔ d = '-') ∧ (e = '.' ↔ d = '.') ∧
      (isSpaceOrTab e || isBreak e) = (d = ' ' || isRawBreak d) := by
  rcases escape_cases d with ⟨he, hd, -⟩ | ⟨tail, he, hd⟩
  · refine ⟨d, [], he, Iff.rfl, Iff.rfl, ?_⟩
    rw [isSpaceOrTab_iff d hd, isBreak_iff d hd]
  · have hlow : ∀ x : Char, 0x20 ≤ x.toNat → x ≠ '"' → x ≠ '\\' → d ≠ x := by
      rintro x hx hq hb rfl
      rcases hd with hd | hd | hd
      · omega
      · exact hq hd
      · exact hb hd
    refine ⟨'\\', tail, he, ?_, ?_, ?_⟩
    · simp [hlow '-' (by decide) (by decide) (by decide)]
    · simp [hlow '.' (by decide) (by decide) (by decide)]
    · have hspace := hlow ' ' (by decide) (by decide) (by decide)
      have hbreak : isRawBreak d = false := by
        simp [isRawBreak, hlow '\u0085' (by decide) (by decide) (by decide),
          hlow '\u2028' (by decide) (by decide) (by decide), hlow '\u2029' (by decide) (by decide) (by decide)]
      simp [hspace, hbreak, isSpaceOrTab, isBreak]

theorem spellsMarker_escape (mark : Char) (hm : mark = '-' ∨ mark = '.') (cs rest : List Char) :
    spellsMarker mark (cs.flatMap escape ++ '"' :: rest) = opensMarker mark cs := by
  have hself : escape mark = [mark] := by
    rcases hm with rfl | rfl <;> rfl
  have hquote : mark ≠ '"' := by
    rcases hm with rfl | rfl <;> decide
  have hhead : ∀ d, ∃ e tail, escape d = e :: tail ∧ (e = mark ↔ d = mark) ∧
      (isSpaceOrTab e || isBreak e) = (d = ' ' || isRawBreak d) := by
    intro d
    obtain ⟨e, tail, he, hdash, hpoint, hword⟩ := head_escape d
    rcases hm with rfl | rfl
    · exact ⟨e, tail, he, hdash, hword⟩
    · exact ⟨e, tail, he, hpoint, hword⟩
  have hnot : ∀ (a : Char) (others : List Char), a ≠ mark → spellsMarker mark (a :: others) = false := by
    intro a others ha
    rcases others with _ | ⟨_, _ | _⟩ <;> simp [spellsMarker, ha]
  have hnot₂ : ∀ (a b : Char) (others : List Char), b ≠ mark → spellsMarker mark (a :: b :: others) = false := by
    intro a b others hb
    cases others <;> simp [spellsMarker, hb]
  cases cs with
  | nil => exact hnot _ _ (Ne.symm hquote)
  | cons a as =>
    obtain ⟨e, tail, he, hiff, -⟩ := hhead a
    by_cases ha : a = mark
    · subst ha
      cases as with
      | nil =>
        rw [List.flatMap_cons, hself]
        exact hnot₂ _ _ _ (Ne.symm hquote)
      | cons b bs =>
        obtain ⟨e, tail, he, hiff, -⟩ := hhead b
        by_cases hb : b = a
        · subst hb
          cases bs with
          | nil =>
            rw [List.flatMap_cons, List.flatMap_cons, hself]
            simp [spellsMarker, Ne.symm hquote, opensMarker]
          | cons c more =>
            obtain ⟨e, tail, he, hiff, -⟩ := hhead c
            by_cases hc : c = b
            · subst hc
              rw [List.flatMap_cons, List.flatMap_cons, List.flatMap_cons, hself]
              cases more with
              | nil => simp [spellsMarker, opensMarker, endsWord, isSpaceOrTab, isBreak]
              | cons d others =>
                obtain ⟨e, tail, he, -, hword⟩ := hhead d
                rw [List.flatMap_cons, he]
                simp [spellsMarker, opensMarker, endsWord, hword]
            · have hc' : e ≠ b := fun h => hc (hiff.mp h)
              rw [List.flatMap_cons, List.flatMap_cons, List.flatMap_cons, hself, he]
              cases more <;> simp [spellsMarker, opensMarker, hc, hc']
        · have hb' : e ≠ a := fun h => hb (hiff.mp h)
          rw [List.flatMap_cons, List.flatMap_cons, hself, he]
          refine (hnot₂ _ _ _ hb').trans ?_
          rcases bs with _ | ⟨_, _ | _⟩ <;> simp [opensMarker, hb]
    · have ha' : e ≠ mark := fun h => ha (hiff.mp h)
      rw [List.flatMap_cons, he]
      refine (hnot _ _ ha').trans ?_
      rcases as with _ | ⟨_, _ | ⟨_, _ | _⟩⟩ <;> simp [opensMarker, ha]

theorem atDocumentMarker_escape (p : Position) (cs rest : List Char) :
    atDocumentMarker (p.cells (cs.flatMap escape ++ '"' :: rest)) =
      (decide (p.column = 0) && opensDocument cs) := by
  by_cases hp : p.column = 0
  · unfold atDocumentMarker opensDocument
    rw [isMarker_cells '-' rfl p hp, isMarker_cells '.' rfl p hp, spellsMarker_escape '-' (.inl rfl),
      spellsMarker_escape '.' (.inr rfl)]
    simp [hp]
  · rw [atDocumentMarker_of_column p _ hp]
    simp [hp]

theorem push_cell (gap : Gap) (p q : Position) (c : Char) : gap.push (p.cell c) = gap.push (q.cell c) := by
  cases gap <;> rfl

theorem column_next (p : Position) (c : Char) : decide ((p.next c).column = 0) = isBreak c := by
  unfold Position.next
  split
  · simp [*]
  · simp_all

theorem head_of_opensDocument (c : Char) (cs : List Char) (h : opensDocument (c :: cs) = true) :
    c = '-' ∨ c = '.' := by
  match cs with
  | [] | [_] | [_, _] => cases h
  | _ :: _ :: _ :: _ =>
    simp only [opensDocument, opensMarker, Bool.or_eq_true, Bool.and_eq_true, decide_eq_true_eq] at h
    rcases h with h | h
    · exact .inl h.1.1.1
    · exact .inr h.1.1.1

theorem readDouble_escape (cs : List Char) (out : List Char) (gap : Gap) (p : Position) (rest : List Char) :
    readDouble .no out gap (p.cells (cs.flatMap escape ++ '"' :: rest)) =
      (reread (decide (p.column = 0)) out gap cs).map
        (·, (p.after (cs.flatMap escape ++ ['"'])).cells rest) := by
  induction cs generalizing out gap p with
  | nil =>
    rw [List.flatMap_nil, List.nil_append, readDouble_quote]
    rfl
  | cons c others ih =>
    by_cases hgap : c = ' ' ∨ isRawBreak c = true
    · have hescape : escape c = [c] := by
        rcases hgap with rfl | h
        · rfl
        · exact escape_rawBreak c h
      have hcr : c ≠ '\r' := by
        rintro rfl
        rcases hgap with h | h <;> exact absurd h (by decide)
      have hblank : (isSpaceOrTab c || isBreak c) = true := by
        rcases hgap with rfl | h
        · rfl
        · simp [isBreak_of_rawBreak c h]
      have hbreak : isBreak c = isRawBreak c := by
        rcases hgap with rfl | h
        · rfl
        · rw [h, isBreak_of_rawBreak c h]
      rw [List.flatMap_cons, hescape, List.append_assoc, List.singleton_append,
        readDouble_gap out gap p c _ hcr hblank, ih, column_next, hbreak, push_cell gap p start c, reread,
        if_pos (by simpa using hgap)]
      rfl
    · rw [not_or] at hgap
      have hraw : isRawBreak c = false := by simpa using hgap.2
      have hif : ¬ (decide (c = ' ') || isRawBreak c) = true := by simp [hgap]
      rw [reread, if_neg hif]
      have hmarker := atDocumentMarker_escape p (c :: others) rest
      by_cases hdoc : (decide (p.column = 0) && opensDocument (c :: others)) = true
      · have hmark : c = '-' ∨ c = '.' := by
          rw [Bool.and_eq_true] at hdoc
          exact head_of_opensDocument c others hdoc.2
        have hescape : escape c = [c] := by
          rcases hmark with rfl | rfl <;> rfl
        have hblank : (isSpaceOrTab c || isBreak c) = false := by
          rcases hmark with rfl | rfl <;> rfl
        rw [if_pos hdoc, Option.map_none]
        rw [hdoc, List.flatMap_cons, hescape] at hmarker
        rw [List.flatMap_cons, hescape]
        exact readDouble_marker out gap p c _ hblank hmarker
      · rw [if_neg hdoc]
        rw [Bool.not_eq_true] at hdoc
        rw [hdoc] at hmarker
        rw [List.flatMap_cons, List.append_assoc] at hmarker ⊢
        rcases spells_escape c hraw with ⟨he, hv⟩ | ⟨tail, he, hbreaks, hread⟩
        · have hbreak : isBreak c = false := by
            simp only [isVerbatim, Bool.and_eq_true, Bool.not_eq_true'] at hv
            exact hv.1.1
          have hblank : isSpaceOrTab c = false := by
            have htab : c ≠ '\t' := by
              rintro rfl
              exact absurd he (by decide)
            simp [isSpaceOrTab, hgap.1, htab]
          rw [he, List.singleton_append] at hmarker ⊢
          rw [readDouble_char out gap p c _ hv hblank hmarker, ih, column_next, hbreak]
          rfl
        · have hcol : ((p.next '\\').after tail).column ≠ 0 := by
            rw [after_of_no_break _ tail hbreaks, next_of_not_break p '\\' (by decide)]
            simp
          rw [he, List.cons_append, readDouble_backslash, hread, ih, decide_eq_false hcol]
          simp

theorem text_newLines (c : Char) (others : List Char) (h : c ≠ '\n') :
    (Gap.newLines (some c) others).text = c :: others := by
  cases others <;> simp [Gap.text, h]

theorem length_push_le (gap : Gap) (c : Cell) : (gap.push c).text.length ≤ gap.text.length + 1 := by
  match gap with
  | .sameLine blanks =>
    simp only [Gap.push]
    split
    · by_cases hd : c.char = '\n'
      · simp [hd, Gap.text]
      · simp [text_newLines _ _ hd]
    · simp [Gap.text]
  | .newLines none others =>
    simp only [Gap.push]
    split <;> simp [Gap.text]
  | .newLines (some d) others =>
    simp only [Gap.push]
    split
    · by_cases hd : d = '\n'
      · subst hd
        cases others <;> simp [Gap.text]
      · cases others <;> simp [Gap.text, hd]
    · omega

theorem length_reread_le (lineStart : Bool) (out : List Char) (gap : Gap) (cs r : List Char)
    (h : reread lineStart out gap cs = some r) : r.length ≤ out.length + gap.text.length + cs.length := by
  induction cs generalizing lineStart out gap with
  | nil =>
    cases h
    simp
  | cons c rest ih =>
    rw [reread] at h
    split at h
    · have := ih _ _ _ h
      have := length_push_le gap (start.cell c)
      rw [List.length_cons]
      omega
    · split at h
      · cases h
      · have := ih _ _ _ h
        simp only [settle, List.length_cons, List.length_append, List.length_reverse, Gap.none, Gap.text,
          List.length_nil] at this ⊢
        omega

theorem not_mem_push (gap : Gap) (c : Cell) (x : Char) (hg : x ∉ gap.text) (hc : x ≠ c.char) (hx : x ≠ ' ') :
    x ∉ (gap.push c).text := by
  match gap with
  | .sameLine blanks =>
    simp only [Gap.text] at hg
    simp only [Gap.push]
    split
    · by_cases hd : c.char = '\n'
      · simp [hd, Gap.text, hx]
      · simp [text_newLines _ _ hd, hc]
    · simp [Gap.text, hg, hc]
  | .newLines none others =>
    simp only [Gap.text] at hg
    simp only [Gap.push]
    split <;> simp_all [Gap.text]
  | .newLines (some d) others =>
    simp only [Gap.push]
    split
    · by_cases hd : d = '\n'
      · subst hd
        cases others <;> simp_all [Gap.text]
      · cases others <;> simp_all [Gap.text]
    · exact hg

theorem not_mem_reread (lineStart : Bool) (out : List Char) (gap : Gap) (cs r : List Char)
    (h : reread lineStart out gap cs = some r) (hout : '\u0085' ∉ out) (hgap : '\u0085' ∉ gap.text) :
    '\u0085' ∉ r := by
  induction cs generalizing lineStart out gap with
  | nil =>
    cases h
    simp [hout, hgap]
  | cons c rest ih =>
    have hnormal : '\u0085' ≠ normalBreak c := by
      unfold normalBreak
      split
      · decide
      · rename_i hn
        simp only [Bool.or_eq_true, decide_eq_true_eq, not_or] at hn
        exact Ne.symm hn.2
    rw [reread] at h
    split at h
    · exact ih _ _ _ h hout (not_mem_push gap _ _ hgap hnormal (by decide))
    · rename_i hif
      split at h
      · cases h
      · have hc : '\u0085' ≠ c := by
          rintro rfl
          exact hif rfl
        exact ih _ _ _ h (by simp [settle, hout, hgap, hc]) (by simp [Gap.none, Gap.text])

def isSeparator (c : Char) : Bool := c = '\u2028' || c = '\u2029'

def holdsMarker (lineStart : Bool) : List Char → Bool
  | [] => false
  | c :: rest => (lineStart && opensDocument (c :: rest)) || holdsMarker (isSeparator c) rest

/-- Strings that YAML reads from JSON text as they are: no next line character, no space beside a line
or paragraph separator, and no document marker behind one. -/
structure ReadsBack (cs : List Char) : Prop where
  noNextLine : '\u0085' ∉ cs
  noSpaceBefore : adjacent isSpace isSeparator cs = false
  noSpaceBehind : adjacent isSeparator isSpace cs = false
  noMarker : holdsMarker false cs = false

def Leaves (last : Char) : Gap → Prop
  | .sameLine blanks => isSeparator last = false ∧ (isSpace last = true ↔ blanks ≠ [])
  | .newLines first _ => isSeparator last = true ∧ ∃ c, first = some c ∧ c ≠ '\n'

theorem not_opensDocument (c : Char) (cs : List Char) (h : c = ' ' ∨ isRawBreak c = true) :
    opensDocument (c :: cs) = false := by
  rw [Bool.eq_false_iff]
  intro hd
  rcases head_of_opensDocument c cs hd with rfl | rfl <;> rcases h with h | h <;> exact absurd h (by decide)

theorem leaves_char (c : Char) (h : ¬ (decide (c = ' ') || isRawBreak c) = true) : Leaves c .none := by
  simp only [Bool.or_eq_true, decide_eq_true_eq, isRawBreak, not_or] at h
  simp [Leaves, Gap.none, isSeparator, isSpace, h]

theorem isSeparator_of_rawBreak (c : Char) (h : isRawBreak c = true) (hn : '\u0085' ≠ c) : isSeparator c = true := by
  simp only [isRawBreak, Bool.or_eq_true, decide_eq_true_eq] at h
  rcases h with (rfl | rfl) | rfl
  · exact absurd rfl hn
  · rfl
  · rfl

theorem leaves_push (last c : Char) (gap : Gap) (hg : Leaves last gap) (hn : '\u0085' ≠ c)
    (hc : c = ' ' ∨ isRawBreak c = true) :
    (Leaves c (gap.push (start.cell c)) ∧ (gap.push (start.cell c)).text = gap.text ++ [c] ∧
        (isSpace last && isSeparator c) = false ∧ (isSeparator last && isSpace c) = false) ∨
      ((gap.push (start.cell c)).text.length ≤ gap.text.length ∧
        ((isSpace last && isSeparator c) = true ∨ (isSeparator last && isSpace c) = true)) := by
  rcases hc with rfl | hraw
  · have hline : (start.cell ' ').isLineEnd = false := rfl
    cases gap with
    | sameLine blanks =>
      obtain ⟨hs, -⟩ := hg
      left
      have hpush : (Gap.sameLine blanks).push (start.cell ' ') = .sameLine (blanks ++ [' ']) := rfl
      rw [hpush]
      simp [Leaves, isSeparator, isSpace, Gap.text]
      simpa [isSeparator] using hs
    | newLines first others =>
      right
      simp [Gap.push, hline, hg.1, isSpace]
  · have hsep := isSeparator_of_rawBreak c hraw hn
    have hline : (start.cell c).isLineEnd = true := by
      rw [isLineEnd_cell, isBreak_of_rawBreak c hraw]
    have hchar : (start.cell c).char = c := by
      simp only [isSeparator, Bool.or_eq_true, decide_eq_true_eq] at hsep
      rcases hsep with rfl | rfl <;> rfl
    have hlf : c ≠ '\n' := by
      rintro rfl
      cases hsep
    have hspace : isSpace c = false := by
      simp only [isSeparator, Bool.or_eq_true, decide_eq_true_eq] at hsep
      rcases hsep with rfl | rfl <;> rfl
    cases gap with
    | sameLine blanks =>
      simp only [Gap.push, hline, hchar, ↓reduceIte, text_newLines c [] hlf, hspace, hsep, Bool.and_true,
        Bool.and_false]
      by_cases hb : blanks = []
      · left
        have hlast : isSpace last = false := by
          rw [Bool.eq_false_iff]
          exact fun h => hg.2.mp h hb
        exact ⟨⟨hsep, c, rfl, hlf⟩, by simp [hb, Gap.text], hlast, trivial⟩
      · right
        refine ⟨?_, .inl (hg.2.mpr hb)⟩
        have := List.length_pos_iff.mpr hb
        simp only [List.length_singleton, Gap.text]
        omega
    | newLines first others =>
      obtain ⟨hlast, d, rfl, hd⟩ := hg
      have hnot : isSpace last = false := by
        simp only [isSeparator, Bool.or_eq_true, decide_eq_true_eq] at hlast
        rcases hlast with rfl | rfl <;> rfl
      left
      simp only [Gap.push, hline, hchar, ↓reduceIte, text_newLines d _ hd, hnot, hspace, Bool.false_and,
        Bool.and_false, List.cons_append, and_self, and_true]
      exact ⟨hsep, d, rfl, hd⟩

theorem reread_of_clean (last : Char) (out : List Char) (gap : Gap) (cs : List Char) (hg : Leaves last gap)
    (hn : '\u0085' ∉ cs) (hb : adjacent isSpace isSeparator (last :: cs) = false)
    (ha : adjacent isSeparator isSpace (last :: cs) = false)
    (hm : holdsMarker (isSeparator last) cs = false) :
    reread (isSeparator last) out gap cs = some (out.reverse ++ gap.text ++ cs) := by
  induction cs generalizing last out gap with
  | nil => simp [reread]
  | cons c rest ih =>
    have hnc : '\u0085' ≠ c := fun h => hn (h ▸ List.mem_cons_self)
    have hnr : '\u0085' ∉ rest := fun h => hn (by simp [h])
    rw [adjacent, Bool.or_eq_false_iff] at hb ha
    rw [holdsMarker, Bool.or_eq_false_iff] at hm
    rw [reread]
    by_cases hc : (decide (c = ' ') || isRawBreak c) = true
    · have hc' : c = ' ' ∨ isRawBreak c = true := by simpa using hc
      rw [if_pos hc]
      rcases leaves_push last c gap hg hnc hc' with ⟨hl, ht, -⟩ | ⟨-, h | h⟩
      · have hline : isRawBreak c = isSeparator c := by
          rcases hc' with rfl | hraw
          · rfl
          · rw [hraw, isSeparator_of_rawBreak c hraw hnc]
        rw [hline, ih c out _ hl hnr hb.2 ha.2 hm.2, ht]
        simp
      · rw [hb.1] at h
        cases h
      · rw [ha.1] at h
        cases h
    · have hsep : isSeparator c = false := by
        simp only [Bool.or_eq_true, decide_eq_true_eq, isRawBreak, not_or] at hc
        simp [isSeparator, hc]
      rw [if_neg hc, hm.1, if_neg (by simp), ← hsep, ih c _ _ (leaves_char c hc) hnr hb.2 ha.2 hm.2]
      simp [settle, Gap.none, Gap.text]

theorem clean_of_reread (last : Char) (out : List Char) (gap : Gap) (cs r : List Char) (hg : Leaves last gap)
    (hn : '\u0085' ∉ cs) (h : reread (isSeparator last) out gap cs = some r)
    (hlen : r.length = out.length + gap.text.length + cs.length) :
    adjacent isSpace isSeparator (last :: cs) = false ∧ adjacent isSeparator isSpace (last :: cs) = false ∧
      holdsMarker (isSeparator last) cs = false := by
  induction cs generalizing last out gap with
  | nil => exact ⟨rfl, rfl, rfl⟩
  | cons c rest ih =>
    have hnc : '\u0085' ≠ c := fun h => hn (h ▸ List.mem_cons_self)
    have hnr : '\u0085' ∉ rest := fun h => hn (by simp [h])
    rw [adjacent, Bool.or_eq_false_iff, adjacent, Bool.or_eq_false_iff, holdsMarker, Bool.or_eq_false_iff]
    rw [reread] at h
    rw [List.length_cons] at hlen
    by_cases hc : (decide (c = ' ') || isRawBreak c) = true
    · have hc' : c = ' ' ∨ isRawBreak c = true := by simpa using hc
      rw [if_pos hc] at h
      rcases leaves_push last c gap hg hnc hc' with ⟨hl, ht, hsb, hbs⟩ | ⟨hle, -⟩
      · have hline : isRawBreak c = isSeparator c := by
          rcases hc' with rfl | hraw
          · rfl
          · rw [hraw, isSeparator_of_rawBreak c hraw hnc]
        rw [hline] at h
        obtain ⟨h₁, h₂, h₃⟩ := ih c out _ hl hnr h (by rw [ht]; simp; omega)
        exact ⟨⟨hsb, h₁⟩, ⟨hbs, h₂⟩, by rw [not_opensDocument c rest hc', Bool.and_false], h₃⟩
      · have := length_reread_le _ _ _ _ _ h
        omega
    · rw [if_neg hc] at h
      split at h
      · cases h
      · rename_i hdoc
        have hsep : isSeparator c = false := by
          simp only [Bool.or_eq_true, decide_eq_true_eq, isRawBreak, not_or] at hc
          simp [isSeparator, hc]
        have hspace : isSpace c = false := by
          simp only [Bool.or_eq_true, decide_eq_true_eq, not_or] at hc
          simp [isSpace, hc]
        rw [← hsep] at h
        have htext : (Gap.none).text.length = 0 := rfl
        obtain ⟨h₁, h₂, h₃⟩ := ih c _ _ (leaves_char c hc) hnr h (by
          rw [htext]
          simp only [settle, List.length_cons, List.length_append, List.length_reverse]
          omega)
        exact ⟨⟨by rw [hsep, Bool.and_false], h₁⟩, ⟨by rw [hspace, Bool.and_false], h₂⟩,
          by simpa using hdoc, h₃⟩

/-- A string comes back from between its quotes just when nothing in it is lost. -/
theorem reread_iff (cs : List Char) : reread false [] .none cs = some cs ↔ ReadsBack cs := by
  have hleaves : Leaves '"' .none := by
    simp [Leaves, Gap.none, isSeparator, isSpace]
  have hquote : ∀ p q : Char → Bool, p '"' = false → adjacent p q ('"' :: cs) = adjacent p q cs := by
    intro p q hp
    cases cs <;> simp [adjacent, hp]
  constructor
  · intro h
    have hn : '\u0085' ∉ cs := not_mem_reread _ _ _ _ _ h (by simp) (by simp [Gap.none, Gap.text])
    obtain ⟨hb, ha, hm⟩ := clean_of_reread '"' [] .none cs cs hleaves hn h (by simp [Gap.none, Gap.text])
    rw [hquote _ _ rfl] at hb ha
    exact ⟨hn, hb, ha, hm⟩
  · intro h
    have hr := reread_of_clean '"' [] .none cs hleaves h.noNextLine (by rw [hquote _ _ rfl, h.noSpaceBefore])
      (by rw [hquote _ _ rfl, h.noSpaceBehind]) h.noMarker
    rw [show isSeparator '"' = false from rfl] at hr
    simpa [Gap.none, Gap.text] using hr

def isShown (c : Char) : Bool := c.toNat < 0x20 || isAllowed c

theorem all_isAllowed_escape (c : Char) : (escape c).all isAllowed = isShown c := by
  have hsmall : ∀ n < 0x20, (escape (Char.ofNat n)).all isAllowed = true := by decide
  rcases escape_cases c with ⟨hc, hle, -⟩ | ⟨tail, -, hlt | rfl | rfl⟩
  · have hnot : ¬ c.toNat < 0x20 := by omega
    simp [hc, isShown, hnot]
  · have := hsmall c.toNat hlt
    rw [Char.ofNat_toNat] at this
    simp [this, isShown, hlt]
  · decide
  · decide

theorem all_isAllowed_quoted (s : List Char) : (quoted s).all isAllowed = s.all isShown := by
  have hescape : (s.flatMap escape).all isAllowed = s.all isShown := by
    induction s with
    | nil => rfl
    | cons c s ih => rw [List.flatMap_cons, List.all_append, all_isAllowed_escape, ih, List.all_cons]
  have hquote : isAllowed '"' = true := by decide
  simp [quoted, hescape, hquote]

end CiWorkflow.Json
