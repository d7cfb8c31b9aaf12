import CiWorkflow.Proofs.Yaml.LineFeed
import CiWorkflow.Proofs.Yaml.Progress

set_option autoImplicit false

namespace CiWorkflow.Yaml

/-- What a line feed at the end adds to the text of a block with these cells behind its sign. -/
def blockGrowth (cs : List Cell) (text : List Char) : List Char :=
  if cs.any Cell.isLineEnd then (readHeader? cs).elim [] fun h => growth h.1.chomp text else []

namespace Scanner

def feed (nl : Cell) (s : Scanner) : Scanner := { s with rest := s.rest ++ [nl] }

section Feed

variable (nl : Cell) (s : Scanner)

theorem feed_rest : (s.feed nl).rest = s.rest ++ [nl] := rfl

theorem feed_inFlow : (s.feed nl).inFlow = s.inFlow := rfl

theorem feed_parent : (s.feed nl).parent = s.parent := rfl

theorem feed_emit (t : Token) : (s.feed nl).emit t = (s.emit t).feed nl := rfl

theorem feed_emitAt (position : Nat) (t : Token) : (s.feed nl).emitAt position t = (s.emitAt position t).feed nl := rfl

theorem feed_allowKey (b : Bool) : (s.feed nl).allowKey b = (s.allowKey b).feed nl := rfl

theorem feed_currentKey : (s.feed nl).currentKey = s.currentKey := rfl

theorem feed_setKey (k : Option PossibleKey) : (s.feed nl).setKey k = (s.setKey k).feed nl := by
  unfold setKey
  have hbrackets : (s.feed nl).brackets = s.brackets := rfl
  rw [hbrackets]
  split <;> rfl

theorem feed_dropKey : (s.feed nl).dropKey? = s.dropKey?.map (feed nl) := by
  simp only [dropKey?, feed_currentKey, feed_setKey]
  split <;> rfl

theorem feed_openBlock (column position : Nat) (t : Token) :
    (s.feed nl).openBlock column position t = (s.openBlock column position t).feed nl := by
  rw [openBlock, openBlock, feed_inFlow, feed_parent]
  split <;> rfl

theorem feed_closeBlocks (column : Option Nat) : (s.feed nl).closeBlocks column = (s.closeBlocks column).feed nl := by
  rw [closeBlocks, closeBlocks, feed_inFlow]
  split <;> rfl

theorem feed_leaveBlocks : (s.feed nl).leaveBlocks? = s.leaveBlocks?.map (feed nl) := by
  simp only [leaveBlocks?, feed_closeBlocks, feed_dropKey]
  cases (s.closeBlocks none).dropKey? <;> rfl

variable {nl s}

theorem feed_skip {n : Nat} (h : n ≤ s.rest.length) : (s.feed nl).skip n = (s.skip n).feed nl := by
  simp only [skip, feed, List.drop_append_of_le_length h]

section Cons

variable {c : Cell} {rest : List Cell} (hr : s.rest = c :: rest)

include hr

theorem feed_column : (s.feed nl).column = s.column := by
  simp [column, feed_rest, hr]

theorem feed_skip_one : (s.feed nl).skip 1 = (s.skip 1).feed nl := feed_skip (by simp [hr])

theorem feed_dropStale : (s.feed nl).dropStale? = s.dropStale?.map (feed nl) := by
  have hr' : (s.feed nl).rest = c :: (rest ++ [nl]) := by rw [feed_rest, hr, List.cons_append]
  have hkey : (s.feed nl).blockKey = s.blockKey := rfl
  simp only [dropStale?, hr, hr', hkey]
  split <;> simp [feed, hr]

theorem feed_saveKey : (s.feed nl).saveKey? = s.saveKey?.map (feed nl) := by
  have hr' : (s.feed nl).rest = c :: (rest ++ [nl]) := by rw [feed_rest, hr, List.cons_append]
  have hallowed : (s.feed nl).keyAllowed = s.keyAllowed := rfl
  simp only [saveKey?, hr, hr', hallowed, feed_inFlow, feed_parent, feed_dropKey]
  split
  · cases s.dropKey? with
    | none => rfl
    | some u =>
      simp only [Option.map_some, Option.bind_eq_bind, Option.bind_some, feed_setKey]
      rfl
  · rfl

end Cons

end Feed

/-! ## The next token -/

/-- The text is over in both states, and they differ in nothing that matters then, tokens aside. -/
structure AtEnd (nl : Cell) (s s' : Scanner) : Prop where
  rest : s.rest = []
  rest' : s'.rest = [] ∨ s'.rest = [nl]
  columns : s'.columns = s.columns
  brackets : s'.brackets = s.brackets
  blockKey : s'.blockKey = s.blockKey

def startsBlock (c : Cell) : Bool := c.char = '|' || c.char = '>'

/-- The state behind the token that starts with `c`, and the same with a line feed at the end of the text. -/
inductive Fed (nl c : Cell) (rest : List Cell) : Scanner → Scanner → Prop
  | behind {s : Scanner} : (startsBlock c = true → s.rest ≠ []) → Fed nl c rest s (s.feed nl)
  | ended {s s' : Scanner} : startsBlock c = false → AtEnd nl s s' → s'.tokens = s.tokens → Fed nl c rest s s'
  | grown {s s' : Scanner} {form : ScalarForm} {text : List Char} {tokens : List Token} :
    startsBlock c = true → AtEnd nl s s' → form ≠ .plain →
      s.tokens = .scalar form (String.ofList text) :: tokens →
      s'.tokens = .scalar form (String.ofList (text ++ blockGrowth rest text)) :: tokens → Fed nl c rest s s'

section Token

variable {nl c : Cell} (hnl : nl.char = '\n') {s : Scanner} {rest : List Cell} (hr : s.rest = c :: rest)

theorem rel_feed (hc : startsBlock c = false) (t : Option Scanner) :
    Option.Rel (Fed nl c rest) t (t.map (feed nl)) := by
  cases t with
  | none => exact .none
  | some t => exact .some (.behind (by simp [hc]))

theorem feed_marker (t : Token) (hlong : 3 ≤ s.rest.length) :
    (s.feed nl).marker? t = (s.marker? t).map (feed nl) := by
  simp only [marker?, feed_leaveBlocks]
  cases hleave : s.leaveBlocks? with
  | none => rfl
  | some u =>
    have hu : 3 ≤ (u.emit t).rest.length := (rest_of_leaveBlocks hleave).symm ▸ hlong
    simp only [Option.map_some, Option.bind_eq_bind, Option.bind_some, feed_emit, feed_skip hu, Option.pure_def]

include hr

theorem feed_openBracket (t : Token) : (s.feed nl).openBracket? t = (s.openBracket? t).map (feed nl) := by
  simp only [openBracket?, feed_saveKey hr]
  cases hsave : s.saveKey? with
  | none => rfl
  | some u =>
    have hu : u.rest = c :: rest := (rest_of_saveKey hsave).trans hr
    simp [feed, skip, allowKey, emit, hu]

theorem feed_closeBracket (t : Token) : (s.feed nl).closeBracket? t = (s.closeBracket? t).map (feed nl) := by
  simp only [closeBracket?, feed_dropKey]
  cases hdrop : s.dropKey? with
  | none => rfl
  | some u =>
    have hu : u.rest = c :: rest := (rest_of_dropKey hdrop).trans hr
    simp [feed, skip, allowKey, emit, hu]

theorem feed_flowEntry : flowEntry? (s.feed nl) = s.flowEntry?.map (feed nl) := by
  simp only [feed_dropKey, flowEntry?]
  cases hdrop : s.dropKey? with
  | none => rfl
  | some u =>
    have hu : u.rest = c :: rest := (rest_of_dropKey hdrop).trans hr
    simp [feed, skip, allowKey, emit, hu]

theorem feed_opener (block t : Token) : (s.feed nl).opener? block t = (s.opener? block t).map (feed nl) := by
  have hallowed : (s.feed nl).keyAllowed = s.keyAllowed := rfl
  have htokens : (s.feed nl).tokens = s.tokens := rfl
  rw [opener?, opener?, feed_inFlow, hallowed, htokens, feed_column hr, feed_openBlock, feed_dropKey]
  split
  · rfl
  · cases hdrop : (s.openBlock s.column s.tokens.length block).dropKey? with
    | none => rfl
    | some u =>
      have hu : (u.emit t).rest = c :: rest := ((rest_of_dropKey hdrop).trans (openBlock_rest _ _ _ s)).trans hr
      have hskip : ((u.emit t).feed nl).skip 1 = ((u.emit t).skip 1).feed nl := feed_skip_one hu
      simp [feed_emit, hskip]

theorem feed_blockEntry : blockEntry? (s.feed nl) = s.blockEntry?.map (feed nl) := by
  simp only [feed_opener hr, blockEntry?]
  cases s.opener? .blockSequence .blockEntry <;> rfl

theorem feed_explicitKey : (s.feed nl).explicitKey? = s.explicitKey?.map (feed nl) := by
  simp only [explicitKey?, feed_opener hr]
  cases s.opener? .blockMapping .key <;> rfl

theorem feed_value : (s.feed nl).value? = s.value?.map (feed nl) := by
  have hallowed : (s.feed nl).keyAllowed = s.keyAllowed := rfl
  have htokens : (s.feed nl).tokens = s.tokens := rfl
  simp only [value?, feed_currentKey]
  cases s.currentKey with
  | none =>
    simp only
    rw [feed_inFlow, hallowed, htokens, feed_column hr, feed_openBlock]
    split
    · rfl
    · have hinFlow : ((s.openBlock s.column s.tokens.length .blockMapping).feed nl).inFlow =
          (s.openBlock s.column s.tokens.length .blockMapping).inFlow := rfl
      simp only [feed_emit, feed_allowKey, hinFlow, Option.map_some]
      have hu : (((s.openBlock s.column s.tokens.length .blockMapping).emit .value).allowKey !s.inFlow).rest =
          c :: rest := (openBlock_rest _ _ _ s).trans hr
      exact congrArg some (feed_skip_one hu)
  | some k =>
    simp only [feed_emitAt, feed_openBlock, feed_setKey, feed_emit, feed_allowKey, Option.map_some]
    let u := ((s.emitAt k.position .key).openBlock k.column k.position .blockMapping).setKey none
    have hu : ((u.emit .value).allowKey false).rest = c :: rest :=
      ((setKey_rest _ none).trans (openBlock_rest _ _ _ _)).trans hr
    exact congrArg some (feed_skip_one hu)

theorem feed_leaf {read : List Cell → Option (Token × List Cell)}
    (hread : read (c :: rest ++ [nl]) = (read (c :: rest)).map fun r => (r.1, r.2 ++ [nl])) :
    (s.feed nl).leaf? read = (s.leaf? read).map (feed nl) := by
  simp only [leaf?, feed_saveKey hr]
  cases hsave : s.saveKey? with
  | none => rfl
  | some u =>
    have hu : u.rest = c :: rest := (rest_of_saveKey hsave).trans hr
    have hu' : (u.feed nl).rest = c :: rest ++ [nl] := by rw [feed_rest, hu]
    simp only [Option.map_some, Option.bind_eq_bind, Option.bind_some, hu, hu', hread]
    cases read (c :: rest) <;> rfl

include hnl

theorem rel_directive (hc : startsBlock c = false) :
    Option.Rel (Fed nl c rest) s.directive? (s.feed nl).directive? := by
  simp only [directive?, feed_leaveBlocks]
  cases hleave : s.leaveBlocks? with
  | none => exact .none
  | some u =>
    have hu : u.rest = c :: rest := (rest_of_leaveBlocks hleave).trans hr
    have hu' : (u.feed nl).rest = c :: rest ++ [nl] := by rw [feed_rest, hu]
    have hread := readDirective_feed hnl rest
    simp only [Option.map_some, Option.bind_eq_bind, Option.bind_some, hu, hu', List.cons_append, List.drop_succ_cons,
      List.drop_zero]
    generalize readDirective? rest = r at hread ⊢
    generalize readDirective? (rest ++ [nl]) = r' at hread ⊢
    cases hread with
    | none => exact .none
    | @some r r' hfeeds =>
      obtain ⟨t, after⟩ := r
      obtain ⟨t', after'⟩ := r'
      obtain ⟨ht, hafter⟩ : t' = t ∧ Feeds nl after after' := hfeeds
      obtain rfl := ht
      obtain rfl | ⟨rfl, rfl⟩ := hafter
      · exact .some (.behind (by simp [hc]))
      · exact .some (.ended hc ⟨rfl, .inl rfl, rfl, rfl, rfl⟩ rfl)

theorem rel_plain (hc : startsBlock c = false) : Option.Rel (Fed nl c rest) s.plain? (s.feed nl).plain? := by
  simp only [plain?, feed_saveKey hr]
  cases hsave : s.saveKey? with
  | none => exact .none
  | some u =>
    simp only [Option.map_some, Option.bind_eq_bind, Option.bind_some, feed_inFlow, feed_parent, feed_rest,
      readPlain_feed hnl]
    cases readPlain u.inFlow ((u.parent.map (· + 1)).getD 0) [] .none u.rest with
    | none => exact .none
    | some r =>
      obtain ⟨text, crossed, after⟩ := r
      cases after with
      | nil => exact .some (.ended hc ⟨rfl, .inl rfl, rfl, rfl, rfl⟩ rfl)
      | cons d after => exact .some (.behind (by simp [hc]))

theorem rel_block (hc : startsBlock c = true) (folded : Bool) :
    Option.Rel (Fed nl c rest) (s.block? folded) ((s.feed nl).block? folded) := by
  simp only [block?, feed_dropKey]
  cases hdrop : s.dropKey? with
  | none => exact .none
  | some u =>
    have hu : u.rest = c :: rest := (rest_of_dropKey hdrop).trans hr
    have hu' : (u.feed nl).rest = c :: rest ++ [nl] := by rw [feed_rest, hu]
    simp only [Option.map_some, Option.bind_eq_bind, Option.bind_some, feed_parent, hu, hu', List.cons_append,
      List.drop_succ_cons, List.drop_zero, readBlockScalar_feed hnl]
    cases readBlockScalar? folded u.parent rest with
    | none => exact .none
    | some r =>
      obtain ⟨text, after⟩ := r
      cases after with
      | nil =>
        let form : ScalarForm := if folded then .folded else .literal
        have hform : form ≠ .plain := by cases folded <;> simp [form]
        refine .some (.grown hc ⟨rfl, .inl rfl, rfl, rfl, rfl⟩ hform ?_ rfl)
        exact (rfl : _ = Token.scalar form (String.ofList text) :: u.tokens)
      | cons d after => exact .some (.behind fun _ => by simp)

omit hr in
theorem readName_feed (make : String → Token) (c : Cell) (rest : List Cell) :
    readName make (c :: rest ++ [nl]) = (readName make (c :: rest)).map fun r => (r.1, r.2 ++ [nl]) := by
  simp only [readName, List.cons_append, List.drop_succ_cons, List.drop_zero, readAnchor_feed hnl]
  cases readAnchor? rest <;> rfl

omit hr hnl in
theorem scalarToken_feed (form : ScalarForm) (r : Option (List Char × List Cell)) :
    scalarToken form (r.map fun r => (r.1, r.2 ++ [nl])) =
      (scalarToken form r).map fun r => (r.1, r.2 ++ [nl]) := by
  cases r <;> rfl

theorem rel_token :
    Option.Rel (Fed nl c rest) (s.token? c rest) ((s.feed nl).token? c (rest ++ [nl])) := by
  have hdash : isMarker '-' (c :: (rest ++ [nl])) = isMarker '-' (c :: rest) :=
    isMarker_feed hnl '-' (by decide) (c :: rest)
  have hdot : isMarker '.' (c :: (rest ++ [nl])) = isMarker '.' (c :: rest) :=
    isMarker_feed hnl '.' (by decide) (c :: rest)
  have hstarts (x : Char) : startsPlain s.inFlow x (rest ++ [nl]) = startsPlain s.inFlow x rest := by
    simp only [startsPlain, nextIs_feed hnl isSpaceOrTab rfl, atWordEnd_feed hnl]
  have hother {x : Char} (hx : c.char = x) (hnot : x ≠ '|' ∧ x ≠ '>') : startsBlock c = false := by
    simp [startsBlock, hx, hnot]
  have hmark {mark : Char} (h : isMarker mark (c :: rest) = true) : c.char = mark ∧ 3 ≤ s.rest.length := by
    rw [hr]
    obtain _ | ⟨second, _ | ⟨third, behind⟩⟩ := rest
    · simp [isMarker] at h
    · simp [isMarker] at h
    · simp only [isMarker, Bool.and_eq_true, decide_eq_true_eq] at h
      exact ⟨h.1.1.1.2, by simp⟩
  unfold token?
  simp only [hdash, hdot, hstarts, atWordEnd_feed hnl, feed_inFlow]
  split
  · rename_i h
    simp only [Bool.and_eq_true, decide_eq_true_eq] at h
    exact rel_directive hnl hr (hother h.2 (by decide))
  split
  · rename_i h
    rw [feed_marker _ (hmark h).2]
    exact rel_feed (hother (hmark h).1 (by decide)) _
  split
  · rename_i h
    rw [feed_marker _ (hmark h).2]
    exact rel_feed (hother (hmark h).1 (by decide)) _
  split
  · rename_i hx
    rw [feed_openBracket hr]
    exact rel_feed (hother hx (by decide)) _
  · rename_i hx
    rw [feed_openBracket hr]
    exact rel_feed (hother hx (by decide)) _
  · rename_i hx
    rw [feed_closeBracket hr]
    exact rel_feed (hother hx (by decide)) _
  · rename_i hx
    rw [feed_closeBracket hr]
    exact rel_feed (hother hx (by decide)) _
  · rename_i hx
    rw [feed_flowEntry hr]
    exact rel_feed (hother hx (by decide)) _
  · rename_i hx
    rw [feed_leaf hr (readName_feed hnl _ c rest)]
    exact rel_feed (hother hx (by decide)) _
  · rename_i hx
    rw [feed_leaf hr (readName_feed hnl _ c rest)]
    exact rel_feed (hother hx (by decide)) _
  · rename_i hx
    rw [feed_leaf hr (readTag_feed hnl s.inFlow c rest)]
    exact rel_feed (hother hx (by decide)) _
  · rename_i hx
    rw [feed_leaf hr (by
      simp only [List.cons_append, List.drop_succ_cons, List.drop_zero, readSingle_feed hnl, scalarToken_feed])]
    exact rel_feed (hother hx (by decide)) _
  · rename_i hx
    rw [feed_leaf hr (by
      simp only [List.cons_append, List.drop_succ_cons, List.drop_zero, readDouble_feed hnl, scalarToken_feed])]
    exact rel_feed (hother hx (by decide)) _
  · split
    · rename_i hx
      simp only [Bool.and_eq_true, decide_eq_true_eq] at hx
      rw [feed_blockEntry hr]
      exact rel_feed (hother hx.1 (by decide)) _
    split
    · rename_i hx
      simp only [Bool.and_eq_true, decide_eq_true_eq] at hx
      rw [feed_explicitKey hr]
      exact rel_feed (hother hx.1 (by decide)) _
    split
    · rename_i hx
      simp only [Bool.and_eq_true, decide_eq_true_eq] at hx
      rw [feed_value hr]
      exact rel_feed (hother hx.1 (by decide)) _
    split
    · rename_i hx
      exact rel_block hnl hr (by simp at hx; simp [startsBlock, hx]) _
    split
    · rename_i hx
      exact rel_block hnl hr (by simp at hx; simp [startsBlock, hx]) _
    split
    · rename_i hbar hangle hstart
      refine rel_plain hnl hr (Bool.eq_false_iff.mpr fun hblock => ?_)
      simp only [startsBlock, Bool.or_eq_true, decide_eq_true_eq] at hblock
      rcases hblock with hx | hx
      · have hflow : s.inFlow = true := by simpa [hx] using hbar
        simp [startsPlain, hx, hflow] at hstart
      · have hflow : s.inFlow = true := by simpa [hx] using hangle
        simp [startsPlain, hx, hflow] at hstart
    · exact .none

end Token

/-! ## The end of the text -/

def ending (s : Scanner) : Option (List Token) :=
  if s.currentKey.any (·.required) then none
  else some (s.tokens.reverse ++ List.replicate (if s.inFlow then 0 else s.columns.length) .blockEnd)

theorem run_of_end {s : Scanner} (h : s.ready.rest = []) (n : Nat) : run (n + 1) s = s.ending := by
  have hstale : s.ready.dropStale? = some s.ready := by simp [dropStale?, h]
  rw [run_succ, hstale]
  simp only [h]
  have hkey : (s.ready.closeBlocks none).currentKey = s.currentKey := by
    unfold closeBlocks
    split <;> rfl
  have htokens : (s.ready.closeBlocks none).tokens.reverse =
      s.tokens.reverse ++ List.replicate (if s.inFlow then 0 else s.columns.length) .blockEnd := by
    have hflow : s.ready.inFlow = s.inFlow := rfl
    unfold closeBlocks
    rw [hflow]
    split
    · simp [ready]
    · simp [ready, remaining_none]
  unfold dropKey? ending
  rw [hkey]
  split
  · rfl
  · rw [Option.map_some, ← htokens]
    unfold setKey
    split <;> rfl

theorem ready_rest_of_nil {s : Scanner} (h : s.rest = []) : s.ready.rest = [] := by
  simp [ready, h, skipToToken]

theorem ready_rest_of_feed {nl : Cell} (hnl : nl.char = '\n') {s : Scanner} (h : s.rest = [] ∨ s.rest = [nl]) :
    s.ready.rest = [] := by
  obtain h | h := h
  · exact ready_rest_of_nil h
  · simp [ready, h, skipToToken, isLineEnd_feed hnl]

theorem AtEnd.ending_eq {nl : Cell} {s s' : Scanner} (h : AtEnd nl s s') (htokens : s'.tokens = s.tokens) :
    s'.ending = s.ending := by
  have hkey : s'.currentKey = s.currentKey := by rw [currentKey, currentKey, h.brackets, h.blockKey]
  have hflow : s'.inFlow = s.inFlow := by rw [inFlow, inFlow, h.brackets]
  rw [ending, ending, hkey, hflow, h.columns, htokens]

theorem skipToToken_feed {nl : Cell} (hnl : nl.char = '\n') (inFlow keyAllowed comment : Bool) (cs : List Cell) :
    ((skipToToken inFlow keyAllowed comment cs).2 = [] →
      (skipToToken inFlow keyAllowed comment (cs ++ [nl])).2 = []) ∧
    ((skipToToken inFlow keyAllowed comment cs).2 ≠ [] →
      skipToToken inFlow keyAllowed comment (cs ++ [nl]) =
        ((skipToToken inFlow keyAllowed comment cs).1, (skipToToken inFlow keyAllowed comment cs).2 ++ [nl])) := by
  induction cs generalizing keyAllowed comment with
  | nil => simp [skipToToken, isLineEnd_feed hnl]
  | cons c rest ih =>
    rw [List.cons_append, skipToToken, skipToToken]
    split
    · exact ih _ _
    · split
      · exact ih _ _
      · split
        · exact ih _ _
        · split
          · exact ih _ _
          · simp

/-! ## Growing tokens -/

def next? (s : Scanner) : Option Scanner := do
  let t ← s.ready.dropStale?
  match t.rest with
  | [] => none
  | c :: rest => (t.closeBlocks (some c.column)).token? c rest

/-- The last token of the text is a block that takes everything up to the end and would take a line feed more. -/
inductive EndsInBlock : Scanner → Prop
  | last {s t : Scanner} {c : Cell} {rest : List Cell} {form : ScalarForm} {text : List Char} {tokens : List Token} :
    s.ready.rest = c :: rest → startsBlock c = true → s.next? = some t → t.rest = [] →
      t.tokens = .scalar form (String.ofList text) :: tokens → blockGrowth rest text ≠ [] → EndsInBlock s
  | further {s t : Scanner} : s.next? = some t → EndsInBlock t → EndsInBlock s

/-- The tokens are the same but for the last scalar, which grows by a line feed. -/
def LastGrows (ts ts' : List Token) : Prop :=
  ∃ front form text back, form ≠ .plain ∧ ts = front ++ .scalar form (String.ofList text) :: back ∧
    ts' = front ++ .scalar form (String.ofList (text ++ ['\n'])) :: back

theorem blockGrowth_cases (cs : List Cell) (text : List Char) :
    blockGrowth cs text = [] ∨ blockGrowth cs text = ['\n'] := by
  unfold blockGrowth
  split
  · cases readHeader? cs with
    | none => exact .inl rfl
    | some r =>
      obtain ⟨⟨chomp, increment⟩, rest⟩ := r
      cases chomp with
      | strip => exact .inl rfl
      | clip =>
        simp only [Option.elim_some, growth]
        split
        · exact .inr rfl
        · exact .inl rfl
      | keep => exact .inr rfl
  · exact .inl rfl

theorem next_eq_none {s : Scanner} (h : s.ready.rest = []) : s.next? = none := by
  simp [next?, dropStale?, h]

theorem not_endsInBlock {s : Scanner} (h : s.ready.rest = []) : ¬ s.EndsInBlock := by
  intro hblock
  cases hblock with
  | last hr => simp [h] at hr
  | further hnext => simp [next_eq_none h] at hnext

theorem EndsInBlock.of_next {s t : Scanner} {c : Cell} {rest : List Cell} (h : s.EndsInBlock)
    (hr : s.ready.rest = c :: rest) (hnext : s.next? = some t) :
    EndsInBlock t ∨ startsBlock c = true ∧ t.rest = [] ∧ ∃ form text tokens,
      t.tokens = .scalar form (String.ofList text) :: tokens ∧ blockGrowth rest text ≠ [] := by
  cases h with
  | last hr' hc hnext' hnil htokens hgrowth =>
    rw [hr] at hr'
    rw [hnext] at hnext'
    cases hr'
    cases hnext'
    exact .inr ⟨hc, hnil, _, _, _, htokens, hgrowth⟩
  | further hnext' hblock =>
    rw [hnext] at hnext'
    cases hnext'
    exact .inl hblock

theorem AtEnd.rel_ending {nl : Cell} {s s' : Scanner} (h : AtEnd nl s s') {form : ScalarForm} {text : List Char}
    {tokens : List Token} (hform : form ≠ .plain) (htokens : s.tokens = .scalar form (String.ofList text) :: tokens)
    (htokens' : s'.tokens = .scalar form (String.ofList (text ++ ['\n'])) :: tokens) :
    Option.Rel LastGrows s.ending s'.ending := by
  have hkey : s'.currentKey = s.currentKey := by rw [currentKey, currentKey, h.brackets, h.blockKey]
  have hflow : s'.inFlow = s.inFlow := by rw [inFlow, inFlow, h.brackets]
  rw [ending, ending, hkey, hflow, h.columns, htokens, htokens']
  split
  · exact .none
  · exact .some ⟨tokens.reverse, form, text, List.replicate (if s.inFlow then 0 else s.columns.length) .blockEnd, hform,
      by simp, by simp⟩

theorem run_of_next {s : Scanner} (h : s.ready.rest ≠ []) (n : Nat) : run (n + 1) s = s.next?.bind (run n) := by
  rw [run_succ, next?]
  cases hstale : s.ready.dropStale? with
  | none => rfl
  | some t =>
    have hrest := rest_of_dropStale hstale
    cases hr : t.rest with
    | nil => exact absurd (hrest.symm.trans hr) h
    | cons c rest =>
      simp only [Option.bind_eq_bind, Option.bind_some, hr]
      cases (t.closeBlocks (some c.column)).token? c rest <;> rfl

theorem length_rest_of_next {s u : Scanner} (h : s.next? = some u) : u.rest.length < s.rest.length := by
  rw [next?] at h
  obtain ⟨t, hstale, h⟩ := Option.bind_eq_some_iff.mp h
  cases hr : t.rest with
  | nil => simp [hr] at h
  | cons c rest =>
    rw [hr] at h
    exact length_rest_of_round hstale hr h

section Run

variable {nl : Cell} (hnl : nl.char = '\n')

include hnl

theorem ready_rest_feed {s : Scanner} (h : s.ready.rest = []) : (s.feed nl).ready.rest = [] :=
  (skipToToken_feed hnl s.inFlow s.keyAllowed false s.rest).1 h

theorem ready_feed {s : Scanner} (h : s.ready.rest ≠ []) : (s.feed nl).ready = s.ready.feed nl := by
  have hskip := (skipToToken_feed hnl s.inFlow s.keyAllowed false s.rest).2 h
  have hallowed : (s.feed nl).keyAllowed = s.keyAllowed := rfl
  simp only [ready, feed_inFlow, feed_rest, hallowed, hskip]
  rfl

theorem next_feed {s : Scanner} {c : Cell} {rest : List Cell} (hr : s.ready.rest = c :: rest) :
    Option.Rel (Fed nl c rest) s.next? (s.feed nl).next? := by
  rw [next?, next?, ready_feed hnl (by simp [hr]), feed_dropStale hr]
  cases hstale : s.ready.dropStale? with
  | none => exact .none
  | some t =>
    have ht : t.rest = c :: rest := (rest_of_dropStale hstale).trans hr
    have ht' : (t.feed nl).rest = c :: (rest ++ [nl]) := by rw [feed_rest, ht, List.cons_append]
    simp only [Option.map_some, Option.bind_eq_bind, Option.bind_some, ht, ht', feed_closeBlocks]
    exact rel_token hnl ((closeBlocks_rest _ t).trans ht)

/-- With a line feed more at the end the tokens are the same, unless the last of them is a block that grows. -/
theorem run_feed (s : Scanner) (m n : Nat) (hm : s.rest.length < m) (hn : s.rest.length + 1 < n) :
    (¬ s.EndsInBlock → run n (s.feed nl) = run m s) ∧
      (s.EndsInBlock → Option.Rel LastGrows (run m s) (run n (s.feed nl))) := by
  induction m generalizing s n with
  | zero => omega
  | succ m ih =>
    obtain ⟨n, rfl⟩ : ∃ k, n = k + 1 := ⟨n - 1, by omega⟩
    cases hr : s.ready.rest with
    | nil =>
      have hend : (s.feed nl).ending = s.ending := rfl
      rw [run_of_end hr, run_of_end (ready_rest_feed hnl hr), hend]
      exact ⟨fun _ => rfl, fun h => absurd h (not_endsInBlock hr)⟩
    | cons c rest =>
      have hne : s.ready.rest ≠ [] := by simp [hr]
      have hne' : (s.feed nl).ready.rest ≠ [] := by simp [ready_feed hnl hne, feed_rest]
      rw [run_of_next hne, run_of_next hne']
      have hfed := next_feed hnl hr
      cases hnext : s.next? with
      | none =>
        rw [hnext] at hfed
        cases hnext' : (s.feed nl).next? with
        | none => exact ⟨fun _ => rfl, fun _ => .none⟩
        | some u' =>
          rw [hnext'] at hfed
          cases hfed
      | some u =>
        rw [hnext] at hfed
        cases hnext' : (s.feed nl).next? with
        | none =>
          rw [hnext'] at hfed
          cases hfed
        | some u' =>
          rw [hnext'] at hfed
          have hlen := length_rest_of_next hnext
          obtain ⟨m, rfl⟩ : ∃ k, m = k + 1 := ⟨m - 1, by omega⟩
          obtain ⟨n, rfl⟩ : ∃ k, n = k + 1 := ⟨n - 1, by omega⟩
          simp only [Option.bind_some]
          cases hfed with
          | some hfed =>
            cases hfed with
            | behind hrest =>
              obtain ⟨hsame, hgrows⟩ := ih u (n + 1) (by omega) (by omega)
              refine ⟨fun h => hsame fun hu => h (.further hnext hu), fun h => hgrows ?_⟩
              obtain hu | ⟨hc, hnil, -⟩ := h.of_next hr hnext
              · exact hu
              · exact absurd hnil (hrest hc)
            | ended hc hend htokens =>
              rw [run_of_end (ready_rest_of_nil hend.rest), run_of_end (ready_rest_of_feed hnl hend.rest'),
                hend.ending_eq htokens]
              refine ⟨fun _ => rfl, fun h => ?_⟩
              obtain hu | ⟨hc', -⟩ := h.of_next hr hnext
              · exact absurd hu (not_endsInBlock (ready_rest_of_nil hend.rest))
              · simp [hc] at hc'
            | @grown _ form text tokens hc hend hform htokens htokens' =>
              rw [run_of_end (ready_rest_of_nil hend.rest), run_of_end (ready_rest_of_feed hnl hend.rest')]
              obtain hgrowth | hgrowth := blockGrowth_cases rest text
              · rw [hgrowth, List.append_nil, ← htokens] at htokens'
                refine ⟨fun _ => hend.ending_eq htokens', fun h => ?_⟩
                obtain hu | ⟨-, -, form', text', tokens', heq, hne⟩ := h.of_next hr hnext
                · exact absurd hu (not_endsInBlock (ready_rest_of_nil hend.rest))
                · rw [htokens] at heq
                  simp only [List.cons.injEq, Token.scalar.injEq, String.ofList_inj] at heq
                  rw [← heq.1.2] at hne
                  exact absurd hgrowth hne
              · have hblock : s.EndsInBlock := .last hr hc hnext hend.rest htokens (by simp [hgrowth])
                refine ⟨fun h => absurd hblock h, fun _ => ?_⟩
                rw [hgrowth] at htokens'
                exact hend.rel_ending hform htokens htokens'

end Run

end Scanner

/-! ## Texts -/

/-- The cells of a text and those of the text with a line feed more, which behind a carriage return belongs to the
line end that is there. -/
def CellsFed (cs : List Char) (cells cells' : List Cell) : Prop :=
  (cs.getLast? = some '\r' → cells' = cells) ∧
    (cs.getLast? ≠ some '\r' → ∃ nl, nl.char = '\n' ∧ cells' = cells ++ [nl])

theorem CellsFed.cons {c : Char} {cs : List Char} {cells cells' : List Cell} (h : CellsFed cs cells cells')
    (hcs : cs ≠ []) (a : Cell) : CellsFed (c :: cs) (a :: cells) (a :: cells') := by
  have hlast : (c :: cs).getLast? = cs.getLast? := by
    obtain ⟨d, rest, rfl⟩ := List.exists_cons_of_ne_nil hcs
    simp
  unfold CellsFed
  rw [hlast]
  refine ⟨fun hcr => by rw [h.1 hcr], fun hcr => ?_⟩
  obtain ⟨nl, hnl, rfl⟩ := h.2 hcr
  exact ⟨nl, hnl, rfl⟩

theorem cellsFrom_feed (index line column : Nat) (cs : List Char) :
    CellsFed cs (cellsFrom index line column cs) (cellsFrom index line column (cs ++ ['\n'])) := by
  induction index, line, column, cs using cellsFrom.induct with
  | case1 index line column => exact ⟨by simp, fun _ => ⟨_, rfl, rfl⟩⟩
  | case2 index line column rest ih =>
    cases rest with
    | nil => exact ⟨by simp, fun _ => ⟨_, rfl, rfl⟩⟩
    | cons d rest =>
      have hfed := ih.cons (by simp) (c := '\n') ⟨'\n', index, line, column⟩
      refine ⟨fun h => hfed.1 (by simpa using h), fun h => hfed.2 (by simpa using h)⟩
  | case3 index line column c rest hcr hb ih =>
    have hcons (cs : List Char) (hcs : ∀ after, c = '\r' → cs = '\n' :: after → False) :
        cellsFrom index line column (c :: cs) =
          ⟨normalBreak c, index, line, column⟩ :: cellsFrom (index + 1) (line + 1) 0 cs := by
      rw [cellsFrom, if_pos hb]
      exact hcs
    cases rest with
    | nil =>
      by_cases hc : c = '\r'
      · subst hc
        exact ⟨fun _ => rfl, by simp⟩
      · rw [List.singleton_append, hcons [] hcr, hcons ['\n'] (by simp [hc])]
        exact ⟨by simp [hc], fun _ => ⟨⟨'\n', index + 1, line + 1, 0⟩, rfl, rfl⟩⟩
    | cons d rest =>
      have hnext (after : List Char) (hc : c = '\r') (heq : d :: (rest ++ ['\n']) = '\n' :: after) : False := by
        cases heq
        exact hcr _ hc rfl
      rw [List.cons_append, List.cons_append, hcons _ hcr, hcons _ hnext]
      exact ih.cons (by simp) _
  | case4 index line column c rest hcr hb ih =>
    have hnot : c ≠ '\r' := by
      rintro rfl
      exact hb rfl
    have hcons (cs : List Char) : cellsFrom index line column (c :: cs) =
        ⟨c, index, line, column⟩ :: cellsFrom (index + 1) line (column + 1) cs := by
      rw [cellsFrom, if_neg hb]
      exact fun _ h => absurd h hnot
    rw [List.cons_append, hcons, hcons]
    cases rest with
    | nil => exact ⟨by simp [hnot], fun _ => ⟨⟨'\n', index + 1, line, column + 1⟩, rfl, rfl⟩⟩
    | cons d rest => exact ih.cons (by simp) _

/-- The text ends inside a block that would take one more line feed. -/
def EndsInBlock (s : String) : Prop :=
  s.toList.getLast? ≠ some '\r' ∧ (Scanner.start (cellsFrom 0 0 0 s.toList)).EndsInBlock

/-- With a line feed more at the end the tokens are the same, unless the text ends inside a block that grows. -/
theorem tokens_feed (s : String) :
    (¬ EndsInBlock s → tokens? (s ++ "\n") = tokens? s) ∧
      (EndsInBlock s → Option.Rel Scanner.LastGrows (tokens? s) (tokens? (s ++ "\n"))) := by
  have hallowed : (s.toList ++ ['\n']).all isAllowed = s.toList.all isAllowed := by
    have hfeed : isAllowed '\n' = true := by decide
    simp [hfeed]
  unfold tokens? cells?
  rw [String.toList_append, show "\n".toList = ['\n'] from rfl, hallowed]
  split
  · simp only [Option.bind_eq_bind, Option.bind_some]
    by_cases hcr : s.toList.getLast? = some '\r'
    · rw [(cellsFrom_feed 0 0 0 s.toList).1 hcr]
      exact ⟨fun _ => rfl, fun h => absurd hcr h.1⟩
    · obtain ⟨nl, hnl, heq⟩ := (cellsFrom_feed 0 0 0 s.toList).2 hcr
      have hrun := Scanner.run_feed hnl (Scanner.start (cellsFrom 0 0 0 s.toList))
        ((cellsFrom 0 0 0 s.toList).length + 1) ((cellsFrom 0 0 0 s.toList).length + 2) (Nat.lt_succ_self _)
        (Nat.lt_succ_self _)
      rw [heq, List.length_append]
      exact ⟨fun h => hrun.1 fun hblock => h ⟨hcr, hblock⟩, fun h => hrun.2 h.2⟩
  · exact ⟨fun _ => rfl, fun _ => .none⟩

end CiWorkflow.Yaml
