import CiWorkflow.Proofs.Yaml.Flow
import CiWorkflow.Proofs.Yaml.Shift

set_option autoImplicit false

namespace CiWorkflow.Yaml

/-! ## Tags, anchors and directives -/

section Readers

variable {cs rest : List Cell} {t : Token}

theorem spanChars_suffix (p : Char → Bool) (cs : List Cell) : (spanChars p cs).2 <:+ cs := List.dropWhile_suffix _

theorem skipRestOfLine_suffix (h : skipRestOfLine? cs = some rest) : rest <:+ cs := by
  have hblanks : skipBlanks cs <:+ cs := List.dropWhile_suffix _
  have hline : (if nextIs (· = '#') (skipBlanks cs) then skipLine (skipBlanks cs) else skipBlanks cs) <:+ cs := by
    split
    · exact (List.dropWhile_suffix _).trans hblanks
    · exact hblanks
  simp only [skipRestOfLine?] at h
  generalize (if nextIs (· = '#') (skipBlanks cs) then skipLine (skipBlanks cs) else skipBlanks cs) = line at h hline
  cases line with
  | nil =>
    cases h
    exact List.nil_suffix
  | cons c tail =>
    simp only at h
    split at h
    · cases h
      exact (List.suffix_cons c rest).trans hline
    · cases h

theorem readAnchor_suffix {name : String} (h : readAnchor? cs = some (name, rest)) : rest <:+ cs := by
  simp only [readAnchor?] at h
  split at h
  · cases h
    exact spanChars_suffix _ _
  · cases h

theorem readTagUri_suffix {wide mayBeEmpty : Bool} {uri : String}
    (h : readTagUri? wide mayBeEmpty cs = some (uri, rest)) : rest <:+ cs := by
  simp only [readTagUri?, Option.bind_eq_bind, Option.bind_eq_some_iff] at h
  obtain ⟨tag, -, h⟩ := h
  split at h
  · cases h
  · cases h
    exact spanChars_suffix _ _

theorem readHandle_suffix {handle : List Char} (h : readHandle? cs = some (handle, rest)) : rest <:+ cs.tail := by
  cases cs with
  | nil => cases h
  | cons c tail =>
    have hword := spanChars_suffix isWordChar tail
    simp only [readHandle?] at h
    generalize spanChars isWordChar tail = span at h hword
    obtain ⟨word, after⟩ := span
    split at h
    · cases h
    · cases after with
      | nil =>
        cases h
        exact List.nil_suffix
      | cons d after =>
        simp only at h
        split at h
        · cases h
          exact (List.suffix_cons d rest).trans hword
        · cases h
          exact hword

theorem readVerbatimTag_suffix (h : readVerbatimTag? cs = some (t, rest)) : rest <:+ cs := by
  simp only [readVerbatimTag?, Option.bind_eq_bind, Option.bind_eq_some_iff] at h
  obtain ⟨⟨uri, after⟩, huri, h⟩ := h
  have hafter := readTagUri_suffix huri
  cases after with
  | nil => cases h
  | cons c after =>
    simp only at h
    split at h
    · cases h
      exact (List.suffix_cons c rest).trans hafter
    · cases h

theorem readShortTag_suffix (h : readShortTag? cs = some (t, rest)) : rest <:+ cs.tail := by
  simp only [readShortTag?, Option.bind_eq_bind, Option.bind_eq_some_iff] at h
  obtain ⟨⟨handle, after⟩, hhandle, h⟩ := h
  have hafter := readHandle_suffix hhandle
  split at h
  all_goals
    obtain ⟨⟨suffix, tail⟩, huri, h⟩ := Option.bind_eq_some_iff.mp h
    cases h
    exact (readTagUri_suffix huri).trans hafter

theorem readTag_suffix {inFlow : Bool} (h : readTag? inFlow cs = some (t, rest)) : rest <:+ cs.tail := by
  have hdrop : cs.drop 2 <:+ cs.tail := by
    rw [← List.drop_one]
    exact List.drop_suffix_drop_left cs (by omega)
  simp only [readTag?, Option.bind_eq_bind] at h
  split at h
  · obtain ⟨⟨token, after⟩, htag, h⟩ := Option.bind_eq_some_iff.mp h
    split at h <;> cases h
    exact (readVerbatimTag_suffix htag).trans hdrop
  · obtain ⟨⟨token, after⟩, htag, h⟩ := Option.bind_eq_some_iff.mp h
    split at h <;> cases h
    exact readShortTag_suffix htag

theorem readVersionNumber_suffix {n : Nat} (h : readVersionNumber? cs = some (n, rest)) : rest <:+ cs := by
  simp only [readVersionNumber?] at h
  split at h
  · cases h
  · cases h
    exact spanChars_suffix _ _

theorem readVersion_suffix (h : readVersion? cs = some (t, rest)) : rest <:+ cs := by
  simp only [readVersion?, Option.bind_eq_bind, Option.bind_eq_some_iff] at h
  obtain ⟨⟨major, after⟩, hmajor, h⟩ := h
  have hafter := (readVersionNumber_suffix hmajor).trans (List.dropWhile_suffix _)
  cases after with
  | nil => cases h
  | cons c after =>
    simp only at h
    split at h
    · obtain ⟨⟨minor, last⟩, hminor, h⟩ := Option.bind_eq_some_iff.mp h
      cases h
      exact ((readVersionNumber_suffix hminor).trans (List.suffix_cons c after)).trans hafter
    · cases h

theorem readTagHandle_suffix (h : readTagHandle? cs = some (t, rest)) : rest <:+ cs := by
  simp only [readTagHandle?, Option.bind_eq_bind, Option.bind_eq_some_iff] at h
  obtain ⟨⟨handle, after⟩, hhandle, h⟩ := h
  have hafter := ((readHandle_suffix hhandle).trans (List.tail_suffix _)).trans (List.dropWhile_suffix _)
  split at h
  · cases h
  · split at h
    · cases h
    · obtain ⟨⟨lead, last⟩, huri, h⟩ := Option.bind_eq_some_iff.mp h
      split at h
      · cases h
        exact ((readTagUri_suffix huri).trans (List.dropWhile_suffix _)).trans hafter
      · cases h

theorem readDirective_suffix (h : readDirective? cs = some (t, rest)) : rest <:+ cs := by
  have hname := spanChars_suffix isWordChar cs
  simp only [readDirective?, Option.bind_eq_bind] at h
  split at h
  · cases h
  · split at h
    · obtain ⟨⟨token, after⟩, htoken, h⟩ := Option.bind_eq_some_iff.mp h
      obtain ⟨last, hlast, h⟩ := Option.bind_eq_some_iff.mp h
      cases h
      exact ((skipRestOfLine_suffix hlast).trans (readVersion_suffix htoken)).trans hname
    · split at h
      · obtain ⟨⟨token, after⟩, htoken, h⟩ := Option.bind_eq_some_iff.mp h
        obtain ⟨last, hlast, h⟩ := Option.bind_eq_some_iff.mp h
        cases h
        exact ((skipRestOfLine_suffix hlast).trans (readTagHandle_suffix htoken)).trans hname
      · cases h

end Readers

/-! ## Scalars -/

section Scalars

variable {cs rest : List Cell} {text : List Char}

theorem readSingle_suffix {pending : Bool} {out : List Char} {gap : Gap}
    (h : readSingle pending out gap cs = some (text, rest)) : rest <:+ cs := by
  induction cs generalizing pending out gap with
  | nil =>
    rw [readSingle] at h
    split at h
    · cases h
      exact List.suffix_rfl
    · cases h
  | cons c tail ih =>
    rw [readSingle] at h
    repeat' split at h
    all_goals first
      | exact (ih h).trans (List.suffix_cons c tail)
      | cases h
    exact List.suffix_rfl

theorem readDouble_suffix {esc : Escape} {out : List Char} {gap : Gap}
    (h : readDouble esc out gap cs = some (text, rest)) : rest <:+ cs := by
  induction cs generalizing esc out gap with
  | nil => cases h
  | cons c tail ih =>
    have hcons := List.suffix_cons c tail
    cases esc <;> simp only [readDouble] at h
    all_goals repeat' split at h
    all_goals first
      | exact (ih h).trans hcons
      | cases h
    exact hcons

theorem readPlain_suffix {inFlow crossed : Bool} {indent : Nat} {out : List Char} {gap : Gap}
    (h : readPlain inFlow indent out gap cs = some (text, crossed, rest)) : rest <:+ cs := by
  induction cs generalizing out gap with
  | nil =>
    cases h
    exact List.suffix_rfl
  | cons c tail ih =>
    simp only [readPlain] at h
    repeat' split at h
    all_goals first
      | exact (ih h).trans (List.suffix_cons c tail)
      | cases h
    all_goals exact List.suffix_rfl

theorem readBlock_suffix {folded inLine : Bool} {chomp : Chomp} {least seen : Nat} {indent : Option Nat} {b : Block}
    (h : readBlock folded chomp least indent seen inLine b cs = some (text, rest)) : rest <:+ cs := by
  induction cs generalizing indent seen inLine b with
  | nil =>
    cases h
    exact List.suffix_rfl
  | cons c tail ih =>
    simp only [readBlock] at h
    repeat' split at h
    all_goals first
      | exact (ih h).trans (List.suffix_cons c tail)
      | cases h
    exact List.suffix_rfl

theorem readChomp_suffix (cs : List Cell) : (readChomp cs).2 <:+ cs := by
  cases cs with
  | nil => exact List.suffix_rfl
  | cons c tail =>
    rw [readChomp]
    split
    · exact List.suffix_cons c tail
    · exact List.suffix_rfl

theorem readIncrement_suffix {increment : Option Nat} (h : readIncrement? cs = some (increment, rest)) :
    rest <:+ cs := by
  cases cs with
  | nil =>
    cases h
    exact List.suffix_rfl
  | cons c tail =>
    rw [readIncrement?] at h
    repeat' split at h
    all_goals cases h
    · exact List.suffix_cons c rest
    · exact List.suffix_rfl

theorem readHeader_suffix {header : BlockHeader} (h : readHeader? cs = some (header, rest)) : rest <:+ cs := by
  simp only [readHeader?, Option.bind_eq_bind, Option.bind_eq_some_iff] at h
  obtain ⟨⟨increment, after⟩, hincrement, last, hlast, h⟩ := h
  cases h
  have hafter := (readIncrement_suffix hincrement).trans (readChomp_suffix cs)
  split at hlast
  · exact ((skipRestOfLine_suffix hlast).trans (readChomp_suffix after)).trans hafter
  · exact (skipRestOfLine_suffix hlast).trans hafter

theorem readBlockScalar_suffix {folded : Bool} {parent : Option Nat}
    (h : readBlockScalar? folded parent cs = some (text, rest)) : rest <:+ cs := by
  simp only [readBlockScalar?, Option.bind_eq_bind, Option.bind_eq_some_iff] at h
  obtain ⟨⟨header, after⟩, hheader, h⟩ := h
  exact (readBlock_suffix h).trans (readHeader_suffix hheader)

end Scalars

theorem readPlain_suffix_of_starts {inFlow crossed : Bool} {indent : Nat} {text : List Char} {c : Cell}
    {rest after : List Cell} (hstart : Scanner.startsPlain inFlow c.char rest = true)
    (hmarker : atDocumentMarker (c :: rest) = false)
    (h : readPlain inFlow indent [] .none (c :: rest) = some (text, crossed, after)) : after <:+ rest := by
  have hword : (c.isBlank || c.isLineEnd) = false := by
    refine Bool.eq_false_iff.mpr fun hblank => ?_
    have hblank : isSpaceOrTab c.char = true ∨ isBreak c.char = true := Bool.or_eq_true_iff.mp hblank
    have hchar : c.char ≠ '-' ∧ c.char ≠ '?' ∧ c.char ≠ ':' := by
      refine ⟨?_, ?_, ?_⟩ <;> intro hc <;> simp [hc, isSpaceOrTab, isBreak] at hblank
    rcases hblank with hblank | hblank <;> simp [Scanner.startsPlain, hblank, hchar] at hstart
  have hend : ((c.char = ':' && atWordEnd rest) || (inFlow && isFlowEnd c.char)) = false := by
    refine Bool.eq_false_iff.mpr fun hend => ?_
    have hend : (c.char = ':' ∧ atWordEnd rest = true) ∨ inFlow = true ∧ isFlowEnd c.char = true := by
      simpa using hend
    rcases hend with ⟨hc, hrest⟩ | ⟨rfl, hc⟩
    · simp [Scanner.startsPlain, hc, hrest] at hstart
    · have hc : c.char ∈ [',', '[', ']', '\x7b', '\x7d'] := by simpa [isFlowEnd, or_assoc] using hc
      simp only [List.mem_cons, List.not_mem_nil, or_false] at hc
      rcases hc with hc | hc | hc | hc | hc <;> simp [Scanner.startsPlain, hc] at hstart
  simp only [readPlain, hword, hmarker, hend, Gap.isNone, decide_true, Bool.not_true, Bool.false_and,
    Bool.false_eq_true, if_false] at h
  split at h
  · cases h
  · exact readPlain_suffix h

namespace Scanner

variable {s t : Scanner} {c : Cell} {rest : List Cell}

@[simp] theorem closeBlocks_rest (column : Option Nat) (s : Scanner) : (s.closeBlocks column).rest = s.rest := by
  unfold closeBlocks
  split <;> rfl

@[simp] theorem openBlock_rest (column position : Nat) (t : Token) (s : Scanner) :
    (s.openBlock column position t).rest = s.rest := by
  unfold openBlock
  split <;> rfl

theorem rest_of_dropKey (h : s.dropKey? = some t) : t.rest = s.rest := by
  unfold dropKey? at h
  split at h
  · cases h
  · cases h
    exact setKey_rest s none

theorem rest_of_saveKey (h : s.saveKey? = some t) : t.rest = s.rest := by
  unfold saveKey? at h
  split at h
  · cases h
    rfl
  · split at h
    · obtain ⟨u, hu, h⟩ := Option.bind_eq_some_iff.mp h
      cases h
      exact (setKey_rest u _).trans (rest_of_dropKey hu)
    · cases h
      rfl

@[simp] theorem setKey_inFlow (k : Option PossibleKey) (s : Scanner) : (s.setKey k).inFlow = s.inFlow := by
  unfold setKey inFlow
  split <;> simp [*]

theorem inFlow_of_saveKey (h : s.saveKey? = some t) : t.inFlow = s.inFlow := by
  unfold saveKey? at h
  split at h
  · cases h
    rfl
  split at h
  · obtain ⟨u, hu, h⟩ := Option.bind_eq_some_iff.mp h
    cases h
    unfold dropKey? at hu
    split at hu <;> cases hu
    rw [setKey_inFlow, setKey_inFlow]
  · cases h
    rfl

theorem rest_of_leaveBlocks (h : s.leaveBlocks? = some t) : t.rest = s.rest := by
  obtain ⟨u, hu, h⟩ := Option.bind_eq_some_iff.mp h
  cases h
  exact (rest_of_dropKey hu).trans (closeBlocks_rest none s)

/-! ## Tokens -/

theorem skip_suffix (n : Nat) (hr : s.rest = c :: rest) (hn : 0 < n) : (s.skip n).rest <:+ rest := by
  obtain ⟨n, rfl⟩ : ∃ m, n = m + 1 := ⟨n - 1, by omega⟩
  rw [skip, hr]
  exact List.drop_suffix n rest

theorem marker_suffix {tok : Token} (hr : s.rest = c :: rest) (h : s.marker? tok = some t) : t.rest <:+ rest := by
  obtain ⟨u, hu, h⟩ := Option.bind_eq_some_iff.mp h
  cases h
  exact skip_suffix 3 ((rest_of_leaveBlocks hu).trans hr) (by decide)

theorem directive_suffix (hr : s.rest = c :: rest) (h : s.directive? = some t) : t.rest <:+ rest := by
  simp only [directive?, Option.bind_eq_bind, Option.bind_eq_some_iff] at h
  obtain ⟨u, hu, ⟨tok, after⟩, htok, h⟩ := h
  cases h
  rw [rest_of_leaveBlocks hu, hr] at htok
  exact readDirective_suffix htok

theorem openBracket_suffix {tok : Token} (hr : s.rest = c :: rest) (h : s.openBracket? tok = some t) :
    t.rest <:+ rest := by
  obtain ⟨u, hu, h⟩ := Option.bind_eq_some_iff.mp h
  cases h
  exact skip_suffix 1 ((rest_of_saveKey hu).trans hr) (by decide)

theorem closeBracket_suffix {tok : Token} (hr : s.rest = c :: rest) (h : s.closeBracket? tok = some t) :
    t.rest <:+ rest := by
  obtain ⟨u, hu, h⟩ := Option.bind_eq_some_iff.mp h
  cases h
  exact skip_suffix 1 ((rest_of_dropKey hu).trans hr) (by decide)

theorem flowEntry_suffix (hr : s.rest = c :: rest) (h : s.flowEntry? = some t) : t.rest <:+ rest := by
  obtain ⟨u, hu, h⟩ := Option.bind_eq_some_iff.mp h
  cases h
  exact skip_suffix 1 ((rest_of_dropKey hu).trans hr) (by decide)

theorem opener_suffix {block tok : Token} (hr : s.rest = c :: rest) (h : s.opener? block tok = some t) :
    t.rest <:+ rest := by
  unfold opener? at h
  split at h
  · cases h
  · obtain ⟨u, hu, h⟩ := Option.bind_eq_some_iff.mp h
    cases h
    exact skip_suffix 1 (((rest_of_dropKey hu).trans (openBlock_rest _ _ _ s)).trans hr) (by decide)

theorem value_suffix (hr : s.rest = c :: rest) (h : s.value? = some t) : t.rest <:+ rest := by
  unfold value? at h
  split at h
  · cases h
    refine skip_suffix (c := c) 1 ?_ (by decide)
    exact ((setKey_rest _ none).trans (openBlock_rest _ _ _ _)).trans hr
  · split at h
    · cases h
    · cases h
      exact skip_suffix 1 ((openBlock_rest _ _ _ s).trans hr) (by decide)

theorem leaf_suffix {read : List Cell → Option (Token × List Cell)} (hr : s.rest = c :: rest)
    (hread : ∀ tok after, read (c :: rest) = some (tok, after) → after <:+ rest) (h : s.leaf? read = some t) :
    t.rest <:+ rest := by
  simp only [leaf?, Option.bind_eq_bind, Option.bind_eq_some_iff] at h
  obtain ⟨u, hu, ⟨tok, after⟩, htok, h⟩ := h
  cases h
  rw [rest_of_saveKey hu, hr] at htok
  exact hread tok _ htok

theorem scalarToken_suffix {form : ScalarForm} {r : Option (List Char × List Cell)} {tok : Token} {cs after : List Cell}
    (hr : ∀ text rest, r = some (text, rest) → rest <:+ cs) (h : scalarToken form r = some (tok, after)) :
    after <:+ cs := by
  obtain ⟨⟨text, rest⟩, hread, h⟩ := Option.map_eq_some_iff.mp h
  cases h
  exact hr text _ hread

theorem readName_suffix {make : String → Token} {tok : Token} {after : List Cell}
    (h : readName make (c :: rest) = some (tok, after)) : after <:+ rest := by
  obtain ⟨⟨name, last⟩, hname, h⟩ := Option.map_eq_some_iff.mp h
  cases h
  exact readAnchor_suffix hname

theorem block_suffix {folded : Bool} (hr : s.rest = c :: rest) (h : s.block? folded = some t) : t.rest <:+ rest := by
  simp only [block?, Option.bind_eq_bind, Option.bind_eq_some_iff] at h
  obtain ⟨u, hu, ⟨tok, after⟩, htok, h⟩ := h
  cases h
  rw [rest_of_dropKey hu, hr] at htok
  exact scalarToken_suffix (fun text last hread => readBlockScalar_suffix hread) htok

theorem plain_suffix (hr : s.rest = c :: rest) (hstart : startsPlain s.inFlow c.char rest = true)
    (hmarker : atDocumentMarker (c :: rest) = false) (h : s.plain? = some t) : t.rest <:+ rest := by
  simp only [plain?, Option.bind_eq_bind, Option.bind_eq_some_iff] at h
  obtain ⟨u, hu, ⟨text, crossed, after⟩, htext, h⟩ := h
  cases h
  rw [rest_of_saveKey hu, hr, inFlow_of_saveKey hu] at htext
  exact readPlain_suffix_of_starts hstart hmarker htext

theorem token_suffix (hr : s.rest = c :: rest) (h : s.token? c rest = some t) : t.rest <:+ rest := by
  unfold token? at h
  split at h
  · exact directive_suffix hr h
  split at h
  · exact marker_suffix hr h
  split at h
  · exact marker_suffix hr h
  rename_i hstartMarker hendMarker
  have hmarker : atDocumentMarker (c :: rest) = false := by
    simp [atDocumentMarker, hstartMarker, hendMarker]
  split at h
  · exact openBracket_suffix hr h
  · exact openBracket_suffix hr h
  · exact closeBracket_suffix hr h
  · exact closeBracket_suffix hr h
  · exact flowEntry_suffix hr h
  · exact leaf_suffix hr (fun _ _ => readName_suffix) h
  · exact leaf_suffix hr (fun _ _ => readName_suffix) h
  · exact leaf_suffix hr (fun _ _ => readTag_suffix) h
  · exact leaf_suffix hr (fun _ _ => scalarToken_suffix fun _ _ => readSingle_suffix) h
  · exact leaf_suffix hr (fun _ _ => scalarToken_suffix fun _ _ => readDouble_suffix) h
  split at h
  · obtain ⟨u, hu, h⟩ := Option.bind_eq_some_iff.mp h
    cases h
    exact (opener_suffix hr hu : u.rest <:+ rest)
  split at h
  · obtain ⟨u, hu, h⟩ := Option.bind_eq_some_iff.mp h
    cases h
    exact (opener_suffix hr hu : u.rest <:+ rest)
  split at h
  · exact value_suffix hr h
  split at h
  · exact block_suffix hr h
  split at h
  · exact block_suffix hr h
  split at h
  · rename_i hstart
    exact plain_suffix hr hstart hmarker h
  · cases h

theorem length_rest_of_round {u : Scanner} (hstale : s.ready.dropStale? = some t) (hr : t.rest = c :: rest)
    (htoken : (t.closeBlocks (some c.column)).token? c rest = some u) : u.rest.length < s.rest.length := by
  have hready : rest.length + 1 ≤ s.rest.length := by
    rw [← List.length_cons, ← hr, rest_of_dropStale hstale]
    exact length_skipToToken_le s.inFlow s.keyAllowed false s.rest
  have htaken := (token_suffix ((closeBlocks_rest _ t).trans hr) htoken).length_le
  omega

/-- Two bounds on the number of steps, both above the length of the text, give the same tokens. -/
theorem run_eq_of_lt (s : Scanner) (m n : Nat) (hm : s.rest.length < m) (hn : s.rest.length < n) :
    run m s = run n s := by
  induction m generalizing s n with
  | zero => omega
  | succ m ih =>
    obtain ⟨n, rfl⟩ : ∃ k, n = k + 1 := ⟨n - 1, by omega⟩
    rw [run_succ, run_succ]
    cases hstale : s.ready.dropStale? with
    | none => rfl
    | some t =>
      cases hr : t.rest with
      | nil => simp only [hr]
      | cons c rest =>
        simp only [hr]
        cases htoken : (t.closeBlocks (some c.column)).token? c rest with
        | none => rfl
        | some u =>
          have hlen := length_rest_of_round hstale hr htoken
          exact ih u n (by omega) (by omega)

/-- States that scan alike give the same tokens, each with the bound for its own text. -/
theorem run_eq_of_run_eq (h : ∀ n, run n s = run n t) :
    run (s.rest.length + 1) s = run (t.rest.length + 1) t := by
  calc run (s.rest.length + 1) s
      = run (s.rest.length + t.rest.length + 1) s := run_eq_of_lt s _ _ (by omega) (by omega)
    _ = run (s.rest.length + t.rest.length + 1) t := h _
    _ = run (t.rest.length + 1) t := run_eq_of_lt t _ _ (by omega) (by omega)

end Scanner

end CiWorkflow.Yaml
