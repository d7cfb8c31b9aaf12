import CiWorkflow.Proofs.Yaml.Places
import CiWorkflow.Proofs.Yaml.Scan

set_option autoImplicit false

namespace CiWorkflow.Yaml

namespace Cell

def shift (chars lines : Nat) (c : Cell) : Cell := { c with index := c.index + chars, line := c.line + lines }

theorem char_shift (chars lines : Nat) (c : Cell) : (c.shift chars lines).char = c.char := rfl

theorem column_shift (chars lines : Nat) (c : Cell) : (c.shift chars lines).column = c.column := rfl

end Cell

namespace Scanner

def shiftKey (count chars lines : Nat) (k : PossibleKey) : PossibleKey :=
  { k with
    position := k.position + count
    index := k.index + chars
    line := k.line + lines }

def shift (before : List Token) (chars lines : Nat) (s : Scanner) : Scanner where
  rest := s.rest.map (Cell.shift chars lines)
  columns := s.columns
  brackets := s.brackets.map (Option.map (shiftKey before.length chars lines))
  blockKey := s.blockKey.map (shiftKey before.length chars lines)
  keyAllowed := s.keyAllowed
  tokens := s.tokens ++ before.reverse

section Shift

variable (before : List Token) (chars lines : Nat) (s : Scanner)

theorem isStale_shift (c : Cell) (k : PossibleKey) :
    isStale (c.shift chars lines) (shiftKey before.length chars lines k) = isStale c k := by
  unfold isStale Cell.shift shiftKey
  congr 1
  · simp
  · rw [decide_eq_decide]
    change k.index + chars + 1024 < c.index + chars ↔ k.index + 1024 < c.index
    omega

theorem filter_shift (c : Cell) (k : Option PossibleKey) :
    (k.map (shiftKey before.length chars lines)).filter (fun k => !isStale (c.shift chars lines) k) =
      (k.filter fun k => !isStale c k).map (shiftKey before.length chars lines) := by
  cases k with
  | none => rfl
  | some k =>
    simp only [Option.map_some, Option.filter_some, isStale_shift]
    split <;> rfl

@[simp] theorem shift_inFlow : (s.shift before chars lines).inFlow = s.inFlow := by
  cases h : s.brackets <;> simp [shift, inFlow, h]

@[simp] theorem shift_parent : (s.shift before chars lines).parent = s.parent := rfl

@[simp] theorem shift_column : (s.shift before chars lines).column = s.column := by
  cases h : s.rest <;> simp [shift, column, Cell.shift, h]

theorem shift_emit (t : Token) : (s.shift before chars lines).emit t = (s.emit t).shift before chars lines := rfl

theorem shift_allowKey (b : Bool) :
    (s.shift before chars lines).allowKey b = (s.allowKey b).shift before chars lines := rfl

theorem shift_skip (n : Nat) : (s.shift before chars lines).skip n = (s.skip n).shift before chars lines := by
  simp [shift, skip]

theorem insertIdx_append_of_le {α : Type} (a : α) (as bs : List α) (n : Nat) (h : n ≤ as.length) :
    (as ++ bs).insertIdx n a = as.insertIdx n a ++ bs := by
  induction as generalizing n with
  | nil =>
    obtain rfl : n = 0 := by simpa using h
    rfl
  | cons x as ih =>
    cases n with
    | zero => rfl
    | succ n =>
      have hn : n ≤ as.length := by simpa using h
      simp [ih n hn]

theorem shift_emitAt (position : Nat) (t : Token) :
    (s.shift before chars lines).emitAt (position + before.length) t =
      (s.emitAt position t).shift before chars lines := by
  have hplace : (s.tokens ++ before.reverse).length - (position + before.length) = s.tokens.length - position := by
    rw [List.length_append, List.length_reverse]
    omega
  simp only [emitAt, shift, hplace]
  rw [insertIdx_append_of_le _ _ _ _ (Nat.sub_le _ _)]

theorem shift_currentKey :
    (s.shift before chars lines).currentKey = s.currentKey.map (shiftKey before.length chars lines) := by
  cases h : s.brackets <;> simp [shift, currentKey, h]

theorem shift_setKey (k : Option PossibleKey) :
    (s.shift before chars lines).setKey (k.map (shiftKey before.length chars lines)) =
      (s.setKey k).shift before chars lines := by
  cases h : s.brackets <;> simp [shift, setKey, h]

theorem shift_clearKey : (s.shift before chars lines).setKey none = (s.setKey none).shift before chars lines :=
  shift_setKey before chars lines s none

theorem any_shiftKey (k : Option PossibleKey) :
    (k.map (shiftKey before.length chars lines)).any (·.required) = k.any (·.required) := by
  cases k <;> rfl

theorem shift_dropStale :
    (s.shift before chars lines).dropStale? = s.dropStale?.map (shift before chars lines) := by
  cases h : s.rest with
  | nil =>
    have hrest : (s.shift before chars lines).rest = [] := by simp [shift, h]
    simp [dropStale?, h, hrest]
  | cons c rest =>
    have hrest : (s.shift before chars lines).rest = c.shift chars lines :: rest.map (Cell.shift chars lines) := by
      simp [shift, h]
    have hkey : ((s.shift before chars lines).blockKey.any fun k => k.required && isStale (c.shift chars lines) k) =
        s.blockKey.any fun k => k.required && isStale c k := by
      cases hk : s.blockKey with
      | none => simp [shift, hk]
      | some k =>
        simp only [shift, hk, Option.map_some, Option.any_some, isStale_shift]
        rfl
    simp only [dropStale?, hrest, h, hkey]
    split
    · rfl
    · simp [shift, filter_shift, Function.comp_def]

theorem shift_dropKey : (s.shift before chars lines).dropKey? = s.dropKey?.map (shift before chars lines) := by
  simp only [dropKey?, shift_currentKey, any_shiftKey, shift_clearKey]
  split <;> rfl

theorem shift_openBlock (column position : Nat) (t : Token) :
    (s.shift before chars lines).openBlock column (position + before.length) t =
      (s.openBlock column position t).shift before chars lines := by
  simp only [openBlock, shift_inFlow, shift_parent, shift_emitAt]
  split <;> rfl

theorem shift_closeBlocks (column : Option Nat) :
    (s.shift before chars lines).closeBlocks column = (s.closeBlocks column).shift before chars lines := by
  simp only [closeBlocks, shift_inFlow]
  split
  · rfl
  · simp [shift]

theorem shift_saveKey {c : Cell} {rest : List Cell} (hr : s.rest = c :: rest) :
    (s.shift before chars lines).saveKey? = s.saveKey?.map (shift before chars lines) := by
  have hrest : (s.shift before chars lines).rest = c.shift chars lines :: rest.map (Cell.shift chars lines) := by
    simp [shift, hr]
  have hallowed : (s.shift before chars lines).keyAllowed = s.keyAllowed := rfl
  have hkey : (s.shift before chars lines).dropKey? = s.dropKey?.map (shift before chars lines) :=
    shift_dropKey before chars lines s
  simp only [saveKey?, hrest, hr, hallowed, shift_inFlow, shift_parent, hkey]
  split
  · cases s.dropKey? with
    | none => rfl
    | some t =>
      have hplace : (t.shift before chars lines).tokens.length = t.tokens.length + before.length := by
        simp [shift]
      simp only [Option.map_some, Option.bind_eq_bind, Option.bind_some, Option.pure_def, hplace]
      rw [← shift_setKey]
      rfl
  · rfl

theorem shift_leaveBlocks :
    (s.shift before chars lines).leaveBlocks? = s.leaveBlocks?.map (shift before chars lines) := by
  simp only [leaveBlocks?, shift_closeBlocks, shift_dropKey]
  cases (s.closeBlocks none).dropKey? <;> rfl

theorem shift_marker (t : Token) :
    (s.shift before chars lines).marker? t = (s.marker? t).map (shift before chars lines) := by
  simp only [marker?, shift_leaveBlocks]
  cases s.leaveBlocks? with
  | none => rfl
  | some u =>
    simp only [Option.map_some, Option.bind_eq_bind, Option.bind_some, shift_emit, shift_skip, Option.pure_def]

theorem shift_directive :
    (s.shift before chars lines).directive? = s.directive?.map (shift before chars lines) := by
  simp only [directive?, shift_leaveBlocks]
  cases s.leaveBlocks? with
  | none => rfl
  | some u =>
    have hread : readDirective? ((u.shift before chars lines).rest.drop 1) =
        (readDirective? (u.rest.drop 1)).map fun r => (r.1, r.2.map (Cell.shift chars lines)) := by
      rw [← readDirective_map (Cell.char_shift chars lines), List.map_drop]
      rfl
    simp only [Option.map_some, Option.bind_eq_bind, Option.bind_some, hread]
    cases readDirective? (u.rest.drop 1) <;> rfl

theorem shift_closeBracket (t : Token) :
    (s.shift before chars lines).closeBracket? t = (s.closeBracket? t).map (shift before chars lines) := by
  simp only [closeBracket?, shift_dropKey]
  cases s.dropKey? with
  | none => rfl
  | some u => simp [shift, emit, skip, allowKey]

theorem shift_flowEntry :
    flowEntry? (s.shift before chars lines) = s.flowEntry?.map (shift before chars lines) := by
  simp only [shift_dropKey, flowEntry?]
  cases s.dropKey? with
  | none => rfl
  | some u => simp [shift, emit, skip, allowKey]

theorem shift_opener (block t : Token) :
    (s.shift before chars lines).opener? block t = (s.opener? block t).map (shift before chars lines) := by
  have hallowed : (s.shift before chars lines).keyAllowed = s.keyAllowed := rfl
  have hplace : (s.shift before chars lines).tokens.length = s.tokens.length + before.length := by
    simp [shift]
  simp only [opener?, shift_inFlow, hallowed, shift_column, hplace, shift_openBlock, shift_dropKey]
  split
  · rfl
  · cases (s.openBlock s.column s.tokens.length block).dropKey? with
    | none => rfl
    | some u => simp [shift_emit, shift_skip]

theorem shift_blockEntry :
    blockEntry? (s.shift before chars lines) = s.blockEntry?.map (shift before chars lines) := by
  simp only [shift_opener, blockEntry?]
  cases s.opener? .blockSequence .blockEntry <;> rfl

theorem shift_explicitKey :
    (s.shift before chars lines).explicitKey? = s.explicitKey?.map (shift before chars lines) := by
  simp only [explicitKey?, shift_opener]
  cases s.opener? .blockMapping .key with
  | none => rfl
  | some u =>
    simp only [Option.map_some, Option.bind_eq_bind, Option.bind_some, shift_inFlow, shift_allowKey,
      Option.pure_def]

theorem shift_value : (s.shift before chars lines).value? = s.value?.map (shift before chars lines) := by
  have hallowed : (s.shift before chars lines).keyAllowed = s.keyAllowed := rfl
  have hplace : (s.shift before chars lines).tokens.length = s.tokens.length + before.length := by
    simp [shift]
  simp only [value?, shift_currentKey]
  cases s.currentKey with
  | none =>
    simp only [Option.map_none, shift_inFlow, hallowed, shift_column, hplace, shift_openBlock]
    split
    · rfl
    · simp [shift_emit, shift_allowKey, shift_skip]
  | some k =>
    have hposition : (shiftKey before.length chars lines k).position = k.position + before.length := rfl
    have hcolumn : (shiftKey before.length chars lines k).column = k.column := rfl
    simp only [Option.map_some, hposition, hcolumn, shift_emitAt, shift_openBlock, shift_clearKey, shift_emit,
      shift_allowKey, shift_skip]

theorem shift_block (folded : Bool) :
    (s.shift before chars lines).block? folded = (s.block? folded).map (shift before chars lines) := by
  simp only [block?, shift_dropKey]
  cases s.dropKey? with
  | none => rfl
  | some u =>
    have hread : readBlockScalar? folded u.parent ((u.shift before chars lines).rest.drop 1) =
        (readBlockScalar? folded u.parent (u.rest.drop 1)).map
          fun r => (r.1, r.2.map (Cell.shift chars lines)) := by
      rw [← readBlockScalar_map (Cell.char_shift chars lines) (Cell.column_shift chars lines), List.map_drop]
      rfl
    simp only [Option.map_some, Option.bind_eq_bind, Option.bind_some, shift_parent, hread]
    cases readBlockScalar? folded u.parent (u.rest.drop 1) <;> rfl

section Leaves

variable {c : Cell} {rest : List Cell} (hr : s.rest = c :: rest)

include hr

theorem shift_openBracket (t : Token) :
    (s.shift before chars lines).openBracket? t = (s.openBracket? t).map (shift before chars lines) := by
  simp only [openBracket?, shift_saveKey before chars lines s hr]
  cases s.saveKey? with
  | none => rfl
  | some u => simp [shift, emit, skip, allowKey]

theorem shift_leaf (read : List Cell → Option (Token × List Cell))
    (hread : ∀ cs : List Cell, read (cs.map (Cell.shift chars lines)) =
      (read cs).map fun r => (r.1, r.2.map (Cell.shift chars lines))) :
    (s.shift before chars lines).leaf? read = (s.leaf? read).map (shift before chars lines) := by
  simp only [leaf?, shift_saveKey before chars lines s hr]
  cases s.saveKey? with
  | none => rfl
  | some u =>
    have hrest : (u.shift before chars lines).rest = u.rest.map (Cell.shift chars lines) := rfl
    simp only [Option.map_some, Option.bind_eq_bind, Option.bind_some, hrest, hread]
    cases read u.rest <;> rfl

theorem shift_plain : (s.shift before chars lines).plain? = s.plain?.map (shift before chars lines) := by
  simp only [plain?, shift_saveKey before chars lines s hr]
  cases s.saveKey? with
  | none => rfl
  | some u =>
    have hread : readPlain u.inFlow ((u.parent.map (· + 1)).getD 0) [] .none (u.shift before chars lines).rest =
        (readPlain u.inFlow ((u.parent.map (· + 1)).getD 0) [] .none u.rest).map
          fun r => (r.1, r.2.1, r.2.2.map (Cell.shift chars lines)) :=
      readPlain_map (Cell.char_shift chars lines) (Cell.column_shift chars lines) _ _ _ _ _
    simp only [Option.map_some, Option.bind_eq_bind, Option.bind_some, shift_inFlow, shift_parent, hread]
    cases readPlain u.inFlow ((u.parent.map (· + 1)).getD 0) [] .none u.rest <;> rfl

end Leaves

theorem readName_shift (make : String → Token) (cs : List Cell) :
    readName make (cs.map (Cell.shift chars lines)) =
      (readName make cs).map fun r => (r.1, r.2.map (Cell.shift chars lines)) := by
  simp only [readName, ← List.map_drop, readAnchor_map (Cell.char_shift chars lines)]
  cases readAnchor? (cs.drop 1) <;> rfl

theorem scalarToken_map {f : List Cell → List Cell} (form : ScalarForm) (r : Option (List Char × List Cell)) :
    scalarToken form (r.map fun r => (r.1, f r.2)) = (scalarToken form r).map fun r => (r.1, f r.2) := by
  cases r <;> rfl

theorem shift_token {c : Cell} {rest : List Cell} (hr : s.rest = c :: rest) :
    (s.shift before chars lines).token? (c.shift chars lines) (rest.map (Cell.shift chars lines)) =
      (s.token? c rest).map (shift before chars lines) := by
  have hmarker (mark : Char) :
      isMarker mark (c.shift chars lines :: rest.map (Cell.shift chars lines)) = isMarker mark (c :: rest) :=
    isMarker_map (Cell.char_shift chars lines) (Cell.column_shift chars lines) mark (c :: rest)
  have hchar : (c.shift chars lines).char = c.char := rfl
  have hcolumn : (c.shift chars lines).column = c.column := rfl
  have hend : atWordEnd (rest.map (Cell.shift chars lines)) = atWordEnd rest :=
    atWordEnd_map (Cell.char_shift chars lines) rest
  have hstarts (inFlow : Bool) (x : Char) :
      startsPlain inFlow x (rest.map (Cell.shift chars lines)) = startsPlain inFlow x rest := by
    simp only [startsPlain, nextIs_map (Cell.char_shift chars lines), hend]
  have hleaf := shift_leaf before chars lines s hr
  have hsingle := hleaf (fun cs => scalarToken .quoted (readSingle false [] .none (cs.drop 1))) fun cs => by
    rw [← List.map_drop, readSingle_map (Cell.char_shift chars lines) (Cell.column_shift chars lines),
      scalarToken_map]
  have hdouble := hleaf (fun cs => scalarToken .quoted (readDouble .no [] .none (cs.drop 1))) fun cs => by
    rw [← List.map_drop, readDouble_map (Cell.char_shift chars lines) (Cell.column_shift chars lines),
      scalarToken_map]
  unfold token?
  simp only [hmarker, hchar, hcolumn, hend, hstarts, shift_inFlow, shift_directive, shift_marker,
    shift_openBracket before chars lines s hr, shift_closeBracket, shift_flowEntry, shift_blockEntry,
    shift_explicitKey, shift_value, shift_block, shift_plain before chars lines s hr,
    hleaf _ (readName_shift chars lines _), hleaf _ (readTag_map (Cell.char_shift chars lines) _), hsingle, hdouble]
  split
  · rfl
  · split
    · rfl
    · split
      · rfl
      · split <;> first | rfl | skip
        all_goals repeat' split
        all_goals rfl

theorem skipToToken_shift (inFlow keyAllowed comment : Bool) (cs : List Cell) :
    skipToToken inFlow keyAllowed comment (cs.map (Cell.shift chars lines)) =
      ((skipToToken inFlow keyAllowed comment cs).1,
        (skipToToken inFlow keyAllowed comment cs).2.map (Cell.shift chars lines)) := by
  induction cs generalizing keyAllowed comment with
  | nil => rfl
  | cons c rest ih =>
    rw [List.map_cons, skipToToken, skipToToken, isLineEnd_map (Cell.char_shift chars lines),
      Cell.char_shift, Cell.column_shift]
    simp only [ih]
    repeat' split
    all_goals rfl

theorem shift_ready : (s.shift before chars lines).ready = s.ready.shift before chars lines := by
  have hskip : skipToToken s.inFlow s.keyAllowed false (s.shift before chars lines).rest = _ :=
    skipToToken_shift chars lines s.inFlow s.keyAllowed false s.rest
  have hallowed : (s.shift before chars lines).keyAllowed = s.keyAllowed := rfl
  simp only [ready, shift_inFlow, hallowed, hskip]
  rfl

theorem rest_of_dropStale {s t : Scanner} (h : s.dropStale? = some t) : t.rest = s.rest := by
  unfold dropStale? at h
  split at h
  · cases h
    rfl
  · split at h
    · cases h
    · cases h
      rfl

theorem run_shift (n : Nat) : run n (s.shift before chars lines) = (run n s).map (before ++ ·) := by
  induction n generalizing s with
  | zero => rfl
  | succ n ih =>
    rw [run_succ, run_succ, shift_ready, shift_dropStale]
    cases hstale : s.ready.dropStale? with
    | none => rfl
    | some t =>
      cases hrest : t.rest with
      | nil =>
        have hrest' : (t.shift before chars lines).rest = [] := by simp [shift, hrest]
        simp only [Option.map_some, hrest', hrest, shift_closeBlocks, shift_dropKey]
        cases (t.closeBlocks none).dropKey? with
        | none => rfl
        | some u => simp [shift]
      | cons c rest =>
        have hrest' : (t.shift before chars lines).rest = c.shift chars lines :: rest.map (Cell.shift chars lines) := by
          simp [shift, hrest]
        have hclosed : (t.closeBlocks (some c.column)).rest = c :: rest := by
          unfold closeBlocks
          split <;> exact hrest
        have htoken := shift_token before chars lines (t.closeBlocks (some c.column)) hclosed
        simp only [Option.map_some, hrest', hrest, shift_closeBlocks, Cell.column_shift, htoken]
        cases (t.closeBlocks (some c.column)).token? c rest with
        | none => rfl
        | some u => exact ih u

end Shift

end Scanner

theorem cellsFrom_shift (chars lines index line column : Nat) (cs : List Char) :
    cellsFrom (index + chars) (line + lines) column cs =
      (cellsFrom index line column cs).map (Cell.shift chars lines) := by
  have hline (line : Nat) : line + lines + 1 = line + 1 + lines := by omega
  induction index, line, column, cs using cellsFrom.induct with
  | case1 => rfl
  | case2 index line column rest ih =>
    have hnext : index + chars + 2 = index + 2 + chars := by omega
    rw [cellsFrom, cellsFrom, hnext, hline, ih]
    rfl
  | case3 index line column c rest hcr hb ih =>
    have hnext : index + chars + 1 = index + 1 + chars := by omega
    rw [cellsFrom, cellsFrom, if_pos hb, if_pos hb, hnext, hline, ih]
    · rfl
    · exact hcr
    · exact hcr
  | case4 index line column c rest hcr hb ih =>
    have hnext : index + chars + 1 = index + 1 + chars := by omega
    rw [cellsFrom, cellsFrom, if_neg hb, if_neg hb, hnext, ih]
    · rfl
    · exact hcr
    · exact hcr

end CiWorkflow.Yaml
