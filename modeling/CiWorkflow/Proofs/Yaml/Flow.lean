import CiWorkflow.Proofs.Yaml.Scan

set_option autoImplicit false

namespace CiWorkflow.Yaml

open Position

def isFlowBlank (c : Char) : Bool := c = ' ' || c = '\n'

def opensToken (c : Char) : Bool :=
  !isSpaceOrTab c && !isBreak c && c ≠ '#' && c ≠ '\ufeff'

theorem isBreak_of_opensToken (c : Char) (h : opensToken c = true) : isBreak c = false := by
  simp only [opensToken, Bool.and_eq_true, Bool.not_eq_true'] at h
  exact h.1.1.2

theorem not_cr_of_not_break (c : Char) (h : isBreak c = false) : c ≠ '\r' := by
  rintro rfl
  cases h

namespace Scanner

def flowRest (cs : List Cell) : List Cell := (skipToToken true true false cs).2

theorem skipToToken_flow (k : Bool) (comment : Bool) (cs : List Cell) :
    skipToToken true k comment cs = (k, (skipToToken true true comment cs).2) := by
  induction cs generalizing comment with
  | nil => rfl
  | cons c rest ih =>
    rw [skipToToken.eq_def, skipToToken.eq_def true true]
    simp only [Bool.not_true, Bool.or_false, Bool.true_or, Bool.and_true]
    split
    · exact ih false
    · split
      · exact ih true
      · split
        · exact ih false
        · split
          · exact ih true
          · rfl

theorem length_skipToToken_le (inFlow k comment : Bool) (cs : List Cell) :
    (skipToToken inFlow k comment cs).2.length ≤ cs.length := by
  induction cs generalizing k comment with
  | nil => simp [skipToToken]
  | cons c rest ih =>
    rw [skipToToken.eq_def]
    simp only
    split
    · exact Nat.le_succ_of_le (ih _ _)
    · split
      · exact Nat.le_succ_of_le (ih _ _)
      · split
        · exact Nat.le_succ_of_le (ih _ _)
        · split
          · exact Nat.le_succ_of_le (ih _ _)
          · simp

theorem flowRest_blanks (p : Position) (ws cs : List Char) (hws : ∀ w ∈ ws, isFlowBlank w = true) :
    flowRest (p.cells (ws ++ cs)) = flowRest ((p.after ws).cells cs) := by
  induction ws generalizing p with
  | nil => rfl
  | cons w rest ih =>
    have hw := hws w (by simp)
    have hcr : w ≠ '\r' := by
      rintro rfl
      cases hw
    have hstep : flowRest (p.cell w :: (p.next w).cells (rest ++ cs)) =
        flowRest ((p.next w).cells (rest ++ cs)) := by
      simp only [isFlowBlank, Bool.or_eq_true, decide_eq_true_eq] at hw
      unfold flowRest
      rw [skipToToken.eq_def]
      rcases hw with rfl | rfl
      · simp [cell_char p ' ' rfl, isBreak]
      · simp [isBreak]
    rw [List.cons_append, cells_cons p w _ hcr, hstep, after_cons]
    exact ih _ fun x hx => hws x (by simp [hx])

theorem flowRest_token (p : Position) (c : Char) (cs : List Char) (hc : opensToken c = true) :
    flowRest (p.cells (c :: cs)) = p.cells (c :: cs) := by
  have hb := isBreak_of_opensToken c hc
  simp only [opensToken, Bool.and_eq_true, Bool.not_eq_true', decide_eq_true_eq] at hc
  obtain ⟨⟨⟨hblank, -⟩, hhash⟩, hmark⟩ := hc
  have hs : c ≠ ' ' := by
    rintro rfl
    cases hblank
  have ht : c ≠ '\t' := by
    rintro rfl
    cases hblank
  rw [cells_cons p c cs (not_cr_of_not_break c hb)]
  unfold flowRest
  rw [skipToToken.eq_def]
  simp [hb, cell_char p c hb, hs, ht, hhash, hmark]

structure Optional (s : Scanner) : Prop where
  block : ∀ k ∈ s.blockKey, k.required = false
  brackets : ∀ o ∈ s.brackets, ∀ k ∈ o, k.required = false

/-- Between `depth + 1` brackets, with these tokens in reverse, in front of this text. -/
structure FlowAt (s : Scanner) (depth : Nat) (columns : List Nat) (tokens : List Token) (p : Position)
    (cs : List Char) : Prop where
  deep : s.brackets.length = depth + 1
  columns : s.columns = columns
  optional : s.Optional
  tokens : s.tokens = tokens
  rest : flowRest s.rest = flowRest (p.cells cs)

theorem Optional.currentKey {s : Scanner} (h : s.Optional) : ∀ k ∈ s.currentKey, k.required = false := by
  intro k hk
  unfold Scanner.currentKey at hk
  split at hk
  · exact h.block k hk
  · rename_i heq
    exact h.brackets _ (by rw [heq]; simp) k hk

theorem Optional.dropKey {s : Scanner} (h : s.Optional) : s.dropKey? = some (s.setKey none) := by
  have hany : (s.currentKey.any fun k => k.required) = false := by
    cases hk : s.currentKey with
    | none => rfl
    | some k => simp [h.currentKey k hk]
  simp [dropKey?, hany]

theorem Optional.setKey {s : Scanner} (h : s.Optional) (k : Option PossibleKey)
    (hk : ∀ k' ∈ k, k'.required = false) : (s.setKey k).Optional := by
  unfold Scanner.setKey
  split
  · exact ⟨hk, h.brackets⟩
  · rename_i o others heq
    refine ⟨h.block, ?_⟩
    intro o' ho'
    rcases List.mem_cons.mp ho' with rfl | ho'
    · exact hk
    · exact h.brackets o' (by rw [heq]; simp [ho'])

@[simp] theorem setKey_rest (s : Scanner) (k : Option PossibleKey) : (s.setKey k).rest = s.rest := by
  unfold setKey
  split <;> rfl

@[simp] theorem setKey_tokens (s : Scanner) (k : Option PossibleKey) : (s.setKey k).tokens = s.tokens := by
  unfold setKey
  split <;> rfl

@[simp] theorem setKey_columns (s : Scanner) (k : Option PossibleKey) : (s.setKey k).columns = s.columns := by
  unfold setKey
  split <;> rfl

@[simp] theorem setKey_keyAllowed (s : Scanner) (k : Option PossibleKey) :
    (s.setKey k).keyAllowed = s.keyAllowed := by
  unfold setKey
  split <;> rfl

@[simp] theorem length_setKey_brackets (s : Scanner) (k : Option PossibleKey) :
    (s.setKey k).brackets.length = s.brackets.length := by
  unfold setKey
  split <;> simp [*]

theorem currentKey_setKey (s : Scanner) (k : Option PossibleKey) : (s.setKey k).currentKey = k := by
  unfold setKey
  split
  · rename_i h
    simp [currentKey, h]
  · rfl

theorem inFlow_of_brackets {s : Scanner} {n : Nat} (h : s.brackets.length = n + 1) : s.inFlow = true := by
  unfold inFlow
  cases hb : s.brackets with
  | nil =>
    rw [hb] at h
    cases h
  | cons => rfl

theorem Optional.saveKey {s : Scanner} (h : s.Optional) (hf : s.inFlow = true) (c : Cell) (rest : List Cell)
    (hr : s.rest = c :: rest) :
    s.saveKey? = some (if s.keyAllowed then
      s.setKey (some ⟨false, s.tokens.length, c.index, c.line, c.column⟩) else s) := by
  unfold saveKey?
  rw [hr]
  simp only
  split
  · simp only [hf, Bool.not_true, Bool.false_and, h.dropKey, Option.bind_eq_bind, Option.bind_some,
      Option.pure_def, setKey_tokens]
    congr 1
    unfold Scanner.setKey
    cases hb : s.brackets <;> simp
  · rfl

theorem FlowAt.round {s : Scanner} {d : Nat} {cols : List Nat} {ts : List Token} {p : Position}
    {ws cs : List Char} {c : Char} (h : FlowAt s d cols ts p (ws ++ c :: cs))
    (hws : ∀ w ∈ ws, isFlowBlank w = true) (hc : opensToken c = true) :
    ∃ u : Scanner, u.rest = (p.after ws).cells (c :: cs) ∧ u.brackets.length = d + 1 ∧ u.columns = cols ∧
      u.Optional ∧ u.tokens = ts ∧ u.keyAllowed = s.keyAllowed ∧
      u.currentKey = s.currentKey.filter (fun k => !isStale ((p.after ws).cell c) k) ∧
      (∀ t, u.token? ((p.after ws).cell c) (((p.after ws).next c).cells cs) = some t →
        t.rest.length ≤ (((p.after ws).next c).cells cs).length → Leads s t) ∧
      (u.token? ((p.after ws).cell c) (((p.after ws).next c).cells cs) = none → Fails s) := by
  have hcells : (p.after ws).cells (c :: cs) = (p.after ws).cell c :: ((p.after ws).next c).cells cs :=
    cells_cons _ c cs (not_cr_of_not_break c (isBreak_of_opensToken c hc))
  have hflow : s.inFlow = true := inFlow_of_brackets h.deep
  have hrest : s.ready.rest = (p.after ws).cell c :: ((p.after ws).next c).cells cs := by
    have := h.rest
    rw [flowRest_blanks p ws _ hws, flowRest_token _ c cs hc, hcells] at this
    unfold ready
    rw [hflow, skipToToken_flow]
    exact this
  have hallowed : s.ready.keyAllowed = s.keyAllowed := by
    unfold ready
    rw [hflow, skipToToken_flow]
  have hlen : s.ready.rest.length ≤ s.rest.length := length_skipToToken_le _ _ _ _
  have hinner : (s.ready.fresh ((p.after ws).cell c)).inFlow = true := by
    refine inFlow_of_brackets (n := d) ?_
    simp [fresh, ready, h.deep]
  have hclose : (s.ready.fresh ((p.after ws).cell c)).closeBlocks (some ((p.after ws).cell c).column) =
      s.ready.fresh ((p.after ws).cell c) := by
    rw [closeBlocks, if_pos hinner]
  refine ⟨s.ready.fresh ((p.after ws).cell c), by rw [hcells]; exact hrest, by simp [fresh, ready, h.deep],
    h.columns, ⟨?_, ?_⟩, h.tokens, hallowed, ?_, ?_, ?_⟩
  · intro k hk
    have hk' : k ∈ s.blockKey.filter fun k => !isStale ((p.after ws).cell c) k := hk
    rw [Option.mem_def, Option.filter_eq_some_iff] at hk'
    exact h.optional.block k hk'.1
  · intro o ho k hk
    obtain ⟨o', ho', rfl⟩ := List.mem_map.mp ho
    rw [Option.mem_def, Option.filter_eq_some_iff] at hk
    exact h.optional.brackets o' ho' k hk.1
  · have hdeep := h.deep
    unfold currentKey
    cases hb : s.brackets with
    | nil =>
      rw [hb] at hdeep
      cases hdeep
    | cons k others => simp [fresh, ready, hb]
  · intro t ht hle
    rw [← hclose] at ht
    refine leads_of_token hrest h.optional.block ht ?_
    rw [hrest, List.length_cons] at hlen
    omega
  · intro ht
    rw [← hclose] at ht
    exact fails_of_token hrest h.optional.block ht

theorem not_isMarker (mark : Char) (q : Position) (c : Char) (rest : List Cell) (hb : isBreak c = false)
    (h : c ≠ mark) : isMarker mark (q.cell c :: rest) = false := by
  match rest with
  | [] | [_] => rfl
  | _ :: _ :: _ => simp [isMarker, cell_char q c hb, h]

section Tokens

variable (u : Scanner) (q : Position) (rest : List Cell)

theorem token_openSequence : u.token? (q.cell '[') rest = u.openBracket? .flowSequence := by
  simp [token?, cell_char q '[' rfl, not_isMarker _ q '[' rest rfl]

theorem token_openMapping : u.token? (q.cell '\x7b') rest = u.openBracket? .flowMapping := by
  simp [token?, cell_char q '\x7b' rfl, not_isMarker _ q '\x7b' rest rfl]

theorem token_closeSequence : u.token? (q.cell ']') rest = u.closeBracket? .flowSequenceEnd := by
  simp [token?, cell_char q ']' rfl, not_isMarker _ q ']' rest rfl]

theorem token_closeMapping : u.token? (q.cell '\x7d') rest = u.closeBracket? .flowMappingEnd := by
  simp [token?, cell_char q '\x7d' rfl, not_isMarker _ q '\x7d' rest rfl]

theorem token_comma : u.token? (q.cell ',') rest = u.flowEntry? := by
  simp [token?, cell_char q ',' rfl, not_isMarker _ q ',' rest rfl]

theorem token_doubleQuote : u.token? (q.cell '"') rest =
    u.leaf? fun cs => scalarToken .quoted (readDouble .no [] .none (cs.drop 1)) := by
  simp [token?, cell_char q '"' rfl, not_isMarker _ q '"' rest rfl]

theorem token_colon (h : u.inFlow = true) : u.token? (q.cell ':') rest = u.value? := by
  simp [token?, cell_char q ':' rfl, not_isMarker _ q ':' rest rfl, h]

def opensWord (c : Char) : Bool :=
  !(isSpaceOrTab c || isBreak c || "-?:,[]\x7b\x7d#&*!|>'\"%@\x60".toList.contains c)

theorem token_word {c : Char} (hc : opensWord c = true) (hm : isMarker '.' (q.cell c :: rest) = false) :
    u.token? (q.cell c) rest = u.plain? := by
  have hstarts : startsPlain u.inFlow c rest = true := by
    unfold startsPlain
    unfold opensWord at hc
    rw [hc]
    rfl
  simp only [opensWord, Bool.not_eq_true', Bool.or_eq_false_iff, List.contains_eq_mem,
    decide_eq_false_iff_not] at hc
  obtain ⟨⟨hblank, hb⟩, hspecial⟩ := hc
  have hne : ∀ x ∈ "-?:,[]\x7b\x7d#&*!|>'\"%@\x60".toList, c ≠ x := by
    rintro x hx rfl
    exact hspecial hx
  unfold token?
  simp [cell_char q c hb, not_isMarker '-' q c rest hb (hne '-' (by decide)), hm, hstarts,
    hne '[' (by decide), hne ']' (by decide), hne '\x7b' (by decide), hne '\x7d' (by decide),
    hne ',' (by decide), hne '*' (by decide), hne '&' (by decide), hne '!' (by decide), hne '\'' (by decide),
    hne '"' (by decide), hne '-' (by decide), hne '?' (by decide), hne ':' (by decide), hne '|' (by decide),
    hne '>' (by decide), hne '%' (by decide)]

theorem token_minus (d : Char) (hm : isMarker '-' (q.cell '-' :: (q.next '-').cell d :: rest) = false)
    (hs : isSpaceOrTab d = false) (hb : isBreak d = false) :
    u.token? (q.cell '-') ((q.next '-').cell d :: rest) = u.plain? := by
  have hend : atWordEnd ((q.next '-').cell d :: rest) = false := by
    simp [atWordEnd, hs, hb]
  have hstarts : startsPlain u.inFlow '-' ((q.next '-').cell d :: rest) = true := by
    simp [startsPlain, nextIs, cell_char _ d hb, hs]
  unfold token?
  simp [cell_char q '-' rfl, hm, not_isMarker '.' q '-' _ rfl, hend, hstarts]

end Tokens

theorem Optional.saveKey_spec {u : Scanner} (h : u.Optional) (hf : u.inFlow = true) (q : Position)
    (c : Char) (rest : List Cell) (hr : u.rest = q.cell c :: rest) :
    ∃ v, u.saveKey? = some v ∧ v.rest = u.rest ∧ v.tokens = u.tokens ∧ v.columns = u.columns ∧
      v.brackets.length = u.brackets.length ∧ v.Optional ∧ v.keyAllowed = u.keyAllowed ∧
      v.currentKey = if u.keyAllowed then some ⟨false, u.tokens.length, q.index, q.line, q.column⟩
        else u.currentKey := by
  refine ⟨_, h.saveKey hf _ rest hr, ?_⟩
  split
  · refine ⟨by simp, by simp, by simp, by simp, h.setKey _ ?_, by simp, ?_⟩
    · rintro k ⟨⟩
      rfl
    · simp [currentKey_setKey]
  · simp [h]

section Steps

variable {s : Scanner} {d : Nat} {cols : List Nat} {ts : List Token} {p : Position} {ws cs : List Char}

theorem FlowAt.openBracket {c : Char} (t : Token) (h : FlowAt s d cols ts p (ws ++ c :: cs))
    (hws : ∀ w ∈ ws, isFlowBlank w = true) (hc : opensToken c = true)
    (ht : ∀ (u : Scanner) (q : Position) rest, u.token? (q.cell c) rest = u.openBracket? t) :
    ∃ v, Leads s v ∧ FlowAt v (d + 1) cols (t :: ts) ((p.after ws).next c) cs ∧ v.keyAllowed = true := by
  obtain ⟨u, hr, hd, hcol, ho, htok, -, -, hleads, -⟩ := h.round hws hc
  have hcells := cells_cons (p.after ws) c cs (not_cr_of_not_break c (isBreak_of_opensToken c hc))
  rw [hcells] at hr
  obtain ⟨v, hv, hvr, hvt, hvc, hvb, hvo, -, -⟩ := ho.saveKey_spec (inFlow_of_brackets hd) _ c _ hr
  refine ⟨_, hleads (({ v.emit t with brackets := none :: v.brackets }.allowKey true).skip 1) ?_ ?_,
    ⟨?_, ?_, ⟨hvo.block, ?_⟩, ?_, ?_⟩, rfl⟩
  · rw [ht, openBracket?, hv]
    rfl
  · simp [skip, emit, allowKey, hvr, hr]
  · simp [skip, emit, allowKey, hvb, hd]
  · exact hvc.trans hcol
  · intro o hmem k hk
    rcases List.mem_cons.mp hmem with rfl | hmem
    · cases hk
    · exact hvo.brackets o hmem k hk
  · simp [skip, emit, allowKey, hvt, htok]
  · simp [skip, emit, allowKey, hvr, hr]

theorem leads_of_firstBracket {c : Char} (t : Token) (hb : s.brackets = []) (hcol : s.columns = [])
    (hk : ∀ k ∈ s.blockKey, k.required = false) (hr : s.rest = p.cells (c :: cs)) (hc : opensToken c = true)
    (ht : ∀ (u : Scanner) (q : Position) rest, u.token? (q.cell c) rest = u.openBracket? t) :
    ∃ v, Leads s v ∧ FlowAt v 0 [] (t :: s.tokens) (p.next c) cs ∧ v.keyAllowed = true := by
  have hcells := cells_cons p c cs (not_cr_of_not_break c (isBreak_of_opensToken c hc))
  have hskip : skipToToken s.inFlow s.keyAllowed false s.rest = (s.keyAllowed, s.rest) := by
    have hbreak := isBreak_of_opensToken c hc
    simp only [opensToken, isSpaceOrTab, Bool.and_eq_true, Bool.not_eq_true', Bool.or_eq_false_iff,
      decide_eq_false_iff_not, decide_eq_true_eq] at hc
    obtain ⟨⟨⟨⟨hs, ht⟩, -⟩, hhash⟩, hmark⟩ := hc
    rw [hr, hcells, skipToToken.eq_def]
    simp [hbreak, cell_char p c hbreak, hs, ht, hhash, hmark]
  have hready : s.ready = s := by
    unfold ready
    rw [hskip]
  have hrest : s.ready.rest = p.cell c :: (p.next c).cells cs := by rw [hready, hr, hcells]
  have hclose : (s.ready.fresh (p.cell c)).closeBlocks (some (p.cell c).column) = s.fresh (p.cell c) := by
    simp [hready, closeBlocks, inFlow, fresh, hb, hcol, remaining]
  have hoptional : ∀ k ∈ (s.fresh (p.cell c)).blockKey, k.required = false := by
    intro k hk'
    have hk' : k ∈ s.blockKey.filter fun k => !isStale (p.cell c) k := hk'
    rw [Option.mem_def, Option.filter_eq_some_iff] at hk'
    exact hk k hk'.1
  have hsave : ∃ key, (∀ k ∈ key, k.required = false) ∧
      (s.fresh (p.cell c)).saveKey? = some { s.fresh (p.cell c) with blockKey := key } := by
    have hrest' : (s.fresh (p.cell c)).rest = p.cell c :: (p.next c).cells cs := by
      rw [← hcells, ← hr]
      rfl
    have ho : (s.fresh (p.cell c)).Optional := ⟨hoptional, by simp [fresh, hb]⟩
    unfold saveKey?
    rw [hrest']
    by_cases hallowed : (s.fresh (p.cell c)).keyAllowed = true
    · refine ⟨some ⟨false, s.tokens.length, p.index, p.line, p.column⟩, by rintro k ⟨⟩; rfl, ?_⟩
      simp only [hallowed, ↓reduceIte, ho.dropKey]
      simp [setKey, fresh, hb, parent, hcol, inFlow]
      simpa [fresh] using hallowed
    · exact ⟨_, hoptional, if_neg hallowed⟩
  obtain ⟨key, hkey, hsave⟩ := hsave
  refine ⟨_, leads_of_token hrest hk (t := ({ { s.fresh (p.cell c) with blockKey := key }.emit t with
    brackets := none :: s.brackets }.allowKey true).skip 1) ?_ ?_, ⟨?_, ?_, ⟨hkey, ?_⟩, ?_, ?_⟩, rfl⟩
  · rw [hclose, ht, openBracket?, hsave]
    simp [fresh, hb, emit]
  · simp [skip, emit, allowKey, fresh, hr, hcells]
  · simp [skip, emit, allowKey, hb]
  · simp [skip, emit, allowKey, fresh, hcol]
  · simp [skip, emit, allowKey, hb]
  · simp [skip, emit, allowKey, fresh]
  · simp [skip, emit, allowKey, fresh, hr, hcells]

theorem FlowAt.closeBracket {c : Char} (t : Token) (h : FlowAt s d cols ts p (ws ++ c :: cs))
    (hws : ∀ w ∈ ws, isFlowBlank w = true) (hc : opensToken c = true)
    (ht : ∀ (u : Scanner) (q : Position) rest, u.token? (q.cell c) rest = u.closeBracket? t) :
    ∃ v, Leads s v ∧ v.brackets.length = d ∧ v.columns = cols ∧ v.Optional ∧ v.tokens = t :: ts ∧
      v.rest = ((p.after ws).next c).cells cs ∧ v.keyAllowed = false := by
  obtain ⟨u, hr, hd, hcol, ho, htok, -, -, hleads, -⟩ := h.round hws hc
  have hcells := cells_cons (p.after ws) c cs (not_cr_of_not_break c (isBreak_of_opensToken c hc))
  rw [hcells] at hr
  have hvo : (u.setKey none).Optional := ho.setKey none (by rintro k ⟨⟩)
  refine ⟨_, hleads (({ (u.setKey none).emit t with brackets := (u.setKey none).brackets.drop 1 }.allowKey
    false).skip 1) ?_ ?_, ?_, ?_, ⟨hvo.block, ?_⟩, ?_, ?_, rfl⟩
  · rw [ht, closeBracket?, ho.dropKey]
    rfl
  · simp [skip, emit, allowKey, hr]
  · simp [skip, emit, allowKey, hd]
  · simp [skip, emit, allowKey, hcol]
  · intro o hmem k hk
    exact hvo.brackets o (List.mem_of_mem_drop hmem) k hk
  · simp [skip, emit, allowKey, htok]
  · simp [skip, emit, allowKey, hr]

theorem FlowAt.comma (h : FlowAt s d cols ts p (ws ++ ',' :: cs)) (hws : ∀ w ∈ ws, isFlowBlank w = true) :
    ∃ v, Leads s v ∧ FlowAt v d cols (.flowEntry :: ts) ((p.after ws).next ',') cs ∧ v.keyAllowed = true := by
  obtain ⟨u, hr, hd, hcol, ho, htok, -, -, hleads, -⟩ := h.round hws rfl
  rw [cells_cons (p.after ws) ',' cs (by decide)] at hr
  have hvo : (u.setKey none).Optional := ho.setKey none (by rintro k ⟨⟩)
  refine ⟨_, hleads ((((u.setKey none).emit .flowEntry).allowKey true).skip 1) ?_ ?_,
    ⟨?_, ?_, ⟨hvo.block, hvo.brackets⟩, ?_, ?_⟩, rfl⟩
  · rw [token_comma, flowEntry?, ho.dropKey]
    rfl
  · simp [skip, emit, allowKey, hr]
  · simp [skip, emit, allowKey, hd]
  · simp [skip, emit, allowKey, hcol]
  · simp [skip, emit, allowKey, htok]
  · simp [skip, emit, allowKey, hr]

theorem FlowAt.firstComma (h : FlowAt s d cols ts p (',' :: cs)) :
    ∃ v, Leads s v ∧ FlowAt v d cols (.flowEntry :: ts) (p.next ',') cs ∧ v.keyAllowed = true := by
  have hnil : FlowAt s d cols ts p ([] ++ ',' :: cs) := h
  simpa using hnil.comma (by simp)

theorem FlowAt.leaf {c : Char} (read : List Cell → Option (Token × List Cell)) (t : Token) (q : Position)
    (rest : List Char) (h : FlowAt s d cols ts p (ws ++ c :: cs)) (hws : ∀ w ∈ ws, isFlowBlank w = true)
    (hc : opensToken c = true)
    (ht : ∀ (u : Scanner), u.brackets.length = d + 1 →
      u.token? ((p.after ws).cell c) (((p.after ws).next c).cells cs) = u.leaf? read)
    (hread : read ((p.after ws).cells (c :: cs)) = some (t, q.cells rest))
    (hle : (q.cells rest).length ≤ (((p.after ws).next c).cells cs).length) :
    ∃ v, Leads s v ∧ FlowAt v d cols (t :: ts) q rest ∧ v.keyAllowed = false ∧
      (s.keyAllowed = true → v.currentKey =
        some ⟨false, ts.length, (p.after ws).index, (p.after ws).line, (p.after ws).column⟩) ∧
      v.rest = q.cells rest := by
  obtain ⟨u, hr, hd, hcol, ho, htok, hallow, -, hleads, -⟩ := h.round hws hc
  have hcells := cells_cons (p.after ws) c cs (not_cr_of_not_break c (isBreak_of_opensToken c hc))
  have hr' := hr
  rw [hcells] at hr
  obtain ⟨v, hv, hvr, hvt, hvc, hvb, hvo, -, hvk⟩ := ho.saveKey_spec (inFlow_of_brackets hd) _ c _ hr
  refine ⟨_, hleads { (v.emit t).allowKey false with rest := q.cells rest } ?_ hle,
    ⟨?_, ?_, ⟨hvo.block, hvo.brackets⟩, ?_, rfl⟩, rfl, ?_, rfl⟩
  · rw [ht u hd, leaf?, hv]
    simp only [Option.bind_eq_bind, Option.bind_some, hvr, hr', hread]
    rfl
  · simp [emit, allowKey, hvb, hd]
  · exact hvc.trans hcol
  · simp [emit, allowKey, hvt, htok]
  · intro hk
    rw [← hallow] at hk
    rw [hk, if_pos rfl, htok] at hvk
    exact hvk

theorem FlowAt.leaf_fails {c : Char} (read : List Cell → Option (Token × List Cell))
    (h : FlowAt s d cols ts p (ws ++ c :: cs)) (hws : ∀ w ∈ ws, isFlowBlank w = true)
    (hc : opensToken c = true)
    (ht : ∀ (u : Scanner), u.brackets.length = d + 1 →
      u.token? ((p.after ws).cell c) (((p.after ws).next c).cells cs) = u.leaf? read)
    (hread : read ((p.after ws).cells (c :: cs)) = none) : Fails s := by
  obtain ⟨u, hr, hd, -, ho, -, -, -, -, hfails⟩ := h.round hws hc
  have hcells := cells_cons (p.after ws) c cs (not_cr_of_not_break c (isBreak_of_opensToken c hc))
  have hr' := hr
  rw [hcells] at hr
  obtain ⟨v, hv, hvr, -⟩ := ho.saveKey_spec (inFlow_of_brackets hd) _ c _ hr
  refine hfails ?_
  rw [ht u hd, leaf?, hv]
  simp only [Option.bind_eq_bind, Option.bind_some, hvr, hr', hread]
  rfl

theorem FlowAt.colon {k : PossibleKey} (t : Token) (h : FlowAt s d cols (t :: ts) p (':' :: cs))
    (hk : s.currentKey = some k) (hp : k.position = ts.length) :
    ∃ v, Leads s v ∧ v.keyAllowed = false ∧
      FlowAt v d cols (if isStale (p.cell ':') k then .value :: t :: ts else .value :: t :: .key :: ts)
        (p.next ':') cs := by
  have hnil : FlowAt s d cols (t :: ts) p ([] ++ ':' :: cs) := h
  obtain ⟨u, hr, hd, hcol, ho, htok, -, hkey, hleads, -⟩ := hnil.round (by simp) rfl
  rw [after_nil, cells_cons p ':' cs (by decide)] at hr
  rw [after_nil, hk] at hkey
  have hflow : u.inFlow = true := inFlow_of_brackets hd
  by_cases hstale : isStale (p.cell ':') k = true
  · have hnone : u.currentKey = none := by
      rw [hkey]
      simp [hstale]
    refine ⟨_, hleads (((u.emit .value).allowKey false).skip 1) ?_ ?_, rfl,
      ⟨hd, hcol, ⟨ho.block, ho.brackets⟩, ?_, ?_⟩⟩
    · rw [after_nil, token_colon u p _ hflow, value?, hnone]
      simp [openBlock, hflow]
    · simp [skip, emit, allowKey, hr]
    · simp [skip, emit, allowKey, htok, hstale]
    · simp [skip, emit, allowKey, hr]
  · have hsome : u.currentKey = some k := by
      rw [hkey]
      simp [hstale]
    have hemit : (u.emitAt k.position .key).inFlow = true := hflow
    have hinsert : (u.emitAt k.position .key).tokens = t :: .key :: ts := by
      have hone : (t :: ts).length - k.position = 1 := by
        rw [hp, List.length_cons]
        omega
      simp only [emitAt, htok, hone]
      rfl
    have hemitted : (u.emitAt k.position .key).Optional := ⟨ho.block, ho.brackets⟩
    have hvo := hemitted.setKey none (by rintro k ⟨⟩)
    refine ⟨_, hleads (((((u.emitAt k.position .key).setKey none).emit .value).allowKey false).skip 1) ?_ ?_, rfl,
      ⟨?_, ?_, ⟨hvo.block, hvo.brackets⟩, ?_, ?_⟩⟩
    · rw [after_nil, token_colon u p _ hflow, value?, hsome]
      simp [openBlock, hemit]
    · simp [skip, emit, allowKey, emitAt, hr]
    · simp [skip, emit, allowKey, emitAt, hd]
    · simp [skip, emit, allowKey, emitAt, hcol]
    · simp [skip, emit, allowKey, hinsert, hstale]
    · simp [skip, emit, allowKey, emitAt, hr]

end Steps

end Scanner

end CiWorkflow.Yaml
