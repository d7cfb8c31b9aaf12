import CiWorkflow.Yaml.Token.Scanner

/-!
# Readers in front of a line feed

A line feed more at the end of a text stays behind what the readers of scalars, tags and directives take. It is
taken by a comment or a header that would end the text, by the gap behind a plain scalar, and by a block, whose
text may grow.
-/
set_option autoImplicit false

namespace CiWorkflow.Yaml

theorem dropWhile_feed {nl : Cell} (p : Cell → Bool) (hp : p nl = false) (cs : List Cell) :
    (cs ++ [nl]).dropWhile p = cs.dropWhile p ++ [nl] := by
  induction cs with
  | nil => simp [hp]
  | cons c rest ih =>
    rw [List.cons_append, List.dropWhile_cons, List.dropWhile_cons]
    split
    · exact ih
    · rfl

theorem takeWhile_feed {nl : Cell} (p : Cell → Bool) (hp : p nl = false) (cs : List Cell) :
    (cs ++ [nl]).takeWhile p = cs.takeWhile p := by
  induction cs with
  | nil => simp [hp]
  | cons c rest ih =>
    rw [List.cons_append, List.takeWhile_cons, List.takeWhile_cons, ih]

section Words

variable {nl : Cell} (hnl : nl.char = '\n')

include hnl

theorem isLineEnd_feed : nl.isLineEnd = true := by simp [Cell.isLineEnd, hnl, isBreak]

theorem isBlank_feed : nl.isBlank = false := by simp [Cell.isBlank, hnl, isSpaceOrTab]

theorem nextIs_feed (p : Char → Bool) (hp : p '\n' = false) (cs : List Cell) : nextIs p (cs ++ [nl]) = nextIs p cs := by
  cases cs with
  | nil => simp [nextIs, hnl, hp]
  | cons c rest => rfl

theorem atWordEnd_feed (cs : List Cell) : atWordEnd (cs ++ [nl]) = atWordEnd cs := by
  cases cs with
  | nil => simp [atWordEnd, isLineEnd_feed hnl]
  | cons c rest => rfl

theorem spanChars_feed (p : Char → Bool) (hp : p '\n' = false) (cs : List Cell) :
    spanChars p (cs ++ [nl]) = ((spanChars p cs).1, (spanChars p cs).2 ++ [nl]) := by
  have hnot : p nl.char = false := by rw [hnl, hp]
  simp only [spanChars, dropWhile_feed (fun c => p c.char) hnot, takeWhile_feed (fun c => p c.char) hnot]

theorem skipBlanks_feed (cs : List Cell) : skipBlanks (cs ++ [nl]) = skipBlanks cs ++ [nl] :=
  dropWhile_feed _ (isBlank_feed hnl) cs

theorem skipLine_feed (cs : List Cell) : skipLine (cs ++ [nl]) = skipLine cs ++ [nl] :=
  dropWhile_feed _ (by simp [isLineEnd_feed hnl]) cs

theorem readAnchor_feed (cs : List Cell) :
    readAnchor? (cs ++ [nl]) = (readAnchor? cs).map fun r => (r.1, r.2 ++ [nl]) := by
  have hnext := nextIs_feed hnl (fun c => "?:,]\x7d%@\x60".toList.contains c) rfl
  simp only [readAnchor?, spanChars_feed hnl isWordChar rfl, atWordEnd_feed hnl, hnext]
  split <;> rfl

theorem readTagUri_feed (wide mayBeEmpty : Bool) (cs : List Cell) :
    readTagUri? wide mayBeEmpty (cs ++ [nl]) =
      (readTagUri? wide mayBeEmpty cs).map fun r => (r.1, r.2 ++ [nl]) := by
  have hp : isTagUriChar wide '\n' = false := by cases wide <;> rfl
  simp only [readTagUri?, spanChars_feed hnl _ hp]
  cases unescapeTag? (spanChars (isTagUriChar wide) cs).1 with
  | none => rfl
  | some tag =>
    simp only [Option.bind_eq_bind, Option.bind_some]
    split <;> rfl

theorem readHandle_feed (cs : List Cell) :
    readHandle? (cs ++ [nl]) = (readHandle? cs).map fun r => (r.1, r.2 ++ [nl]) := by
  cases cs with
  | nil => simp [readHandle?, hnl]
  | cons c rest =>
    simp only [List.cons_append, readHandle?, spanChars_feed hnl isWordChar rfl]
    split
    · rfl
    · cases (spanChars isWordChar rest).2 with
      | nil => simp [hnl]
      | cons d after =>
        simp only [List.cons_append]
        split <;> rfl

theorem endsTag_feed (inFlow : Bool) (cs : List Cell) : endsTag inFlow (cs ++ [nl]) = endsTag inFlow cs := by
  simp only [endsTag, atWordEnd_feed hnl, nextIs_feed hnl (· = ',') rfl]

theorem readVerbatimTag_feed (cs : List Cell) :
    readVerbatimTag? (cs ++ [nl]) = (readVerbatimTag? cs).map fun r => (r.1, r.2 ++ [nl]) := by
  simp only [readVerbatimTag?, readTagUri_feed hnl]
  cases readTagUri? true false cs with
  | none => rfl
  | some r =>
    obtain ⟨uri, rest⟩ := r
    cases rest with
    | nil => simp [hnl]
    | cons c rest =>
      simp only [Option.map_some, List.cons_append, Option.bind_eq_bind, Option.bind_some]
      split <;> rfl

theorem readShortTag_feed (cs : List Cell) :
    readShortTag? (cs ++ [nl]) = (readShortTag? cs).map fun r => (r.1, r.2 ++ [nl]) := by
  simp only [readShortTag?, readHandle_feed hnl]
  cases readHandle? cs with
  | none => rfl
  | some r =>
    obtain ⟨handle, rest⟩ := r
    simp only [Option.map_some, Option.bind_eq_bind, Option.bind_some, readTagUri_feed hnl]
    split
    · cases readTagUri? false false rest <;> rfl
    · cases readTagUri? false true rest <;> rfl

theorem readTag_feed (inFlow : Bool) (c : Cell) (rest : List Cell) :
    readTag? inFlow (c :: rest ++ [nl]) = (readTag? inFlow (c :: rest)).map fun r => (r.1, r.2 ++ [nl]) := by
  have hshort := readShortTag_feed hnl (c :: rest)
  rw [List.cons_append] at hshort ⊢
  simp only [readTag?, List.drop_succ_cons, List.drop_zero, nextIs_feed hnl (· = '<') rfl, hshort]
  split
  · cases rest with
    | nil => simp [nextIs] at *
    | cons d rest =>
      simp only [List.cons_append, List.drop_succ_cons, List.drop_zero, readVerbatimTag_feed hnl]
      cases readVerbatimTag? rest with
      | none => rfl
      | some r =>
        simp only [Option.map_some, Option.bind_eq_bind, Option.bind_some, endsTag_feed hnl]
        split <;> rfl
  · cases readShortTag? (c :: rest) with
    | none => rfl
    | some r =>
      simp only [Option.map_some, Option.bind_eq_bind, Option.bind_some, endsTag_feed hnl]
      split <;> rfl

theorem readVersionNumber_feed (cs : List Cell) :
    readVersionNumber? (cs ++ [nl]) = (readVersionNumber? cs).map fun r => (r.1, r.2 ++ [nl]) := by
  simp only [readVersionNumber?, spanChars_feed hnl Char.isDigit rfl]
  split <;> rfl

theorem readVersion_feed (cs : List Cell) :
    readVersion? (cs ++ [nl]) = (readVersion? cs).map fun r => (r.1, r.2 ++ [nl]) := by
  simp only [readVersion?, skipBlanks_feed hnl, readVersionNumber_feed hnl]
  cases readVersionNumber? (skipBlanks cs) with
  | none => rfl
  | some r =>
    obtain ⟨major, rest⟩ := r
    cases rest with
    | nil => simp [hnl]
    | cons c rest =>
      simp only [Option.map_some, List.cons_append, Option.bind_eq_bind, Option.bind_some, readVersionNumber_feed hnl]
      split
      · cases readVersionNumber? rest <;> rfl
      · rfl

theorem readTagHandle_feed (cs : List Cell) :
    readTagHandle? (cs ++ [nl]) = (readTagHandle? cs).map fun r => (r.1, r.2 ++ [nl]) := by
  simp only [readTagHandle?, skipBlanks_feed hnl, readHandle_feed hnl]
  cases readHandle? (skipBlanks cs) with
  | none => rfl
  | some r =>
    obtain ⟨handle, rest⟩ := r
    simp only [Option.map_some, Option.bind_eq_bind, Option.bind_some, nextIs_feed hnl isSpaceOrTab rfl,
      skipBlanks_feed hnl, readTagUri_feed hnl]
    split
    · rfl
    · split
      · rfl
      · cases readTagUri? true false (skipBlanks rest) with
        | none => rfl
        | some r =>
          simp only [Option.map_some, Option.bind_some, atWordEnd_feed hnl]
          split <;> rfl

end Words

/-! ## Lines -/

/-- What is left with a line feed behind the text: the feed as well, unless it has been taken. -/
def Feeds (nl : Cell) (rest rest' : List Cell) : Prop := rest' = rest ++ [nl] ∨ rest = [] ∧ rest' = []

theorem any_isLineEnd_dropWhile {p : Cell → Bool} (hp : ∀ c, c.isLineEnd = true → p c = false) (cs : List Cell) :
    (cs.dropWhile p).any Cell.isLineEnd = cs.any Cell.isLineEnd := by
  induction cs with
  | nil => rfl
  | cons c rest ih =>
    rw [List.dropWhile_cons]
    split
    · rename_i hc
      have hend : c.isLineEnd = false := Bool.eq_false_iff.mpr fun hend => by simp [hp c hend] at hc
      rw [ih, List.any_cons, hend, Bool.false_or]
    · rfl

theorem any_isLineEnd_skipBlanks (cs : List Cell) : (skipBlanks cs).any Cell.isLineEnd = cs.any Cell.isLineEnd :=
  any_isLineEnd_dropWhile (fun c hc => by
    have hchar : isBreak c.char = true := hc
    unfold Cell.isBlank isSpaceOrTab
    revert hchar
    simp only [isBreak, Bool.or_eq_true, decide_eq_true_eq]
    rintro ((((h | h) | h) | h) | h) <;> simp [h]) cs

def lineRest (cs : List Cell) : List Cell :=
  if nextIs (· = '#') (skipBlanks cs) then skipLine (skipBlanks cs) else skipBlanks cs

theorem skipRestOfLine_eq (cs : List Cell) :
    skipRestOfLine? cs =
      match lineRest cs with
      | [] => some []
      | c :: rest => if c.isLineEnd then some rest else none := rfl

theorem any_isLineEnd_lineRest (cs : List Cell) : (lineRest cs).any Cell.isLineEnd = cs.any Cell.isLineEnd := by
  unfold lineRest
  split
  · rw [← any_isLineEnd_skipBlanks cs]
    exact any_isLineEnd_dropWhile (fun c hc => by simp [hc]) _
  · exact any_isLineEnd_skipBlanks cs

section Lines

variable {nl : Cell} (hnl : nl.char = '\n')

include hnl

theorem lineRest_feed (cs : List Cell) : lineRest (cs ++ [nl]) = lineRest cs ++ [nl] := by
  unfold lineRest
  rw [skipBlanks_feed hnl, nextIs_feed hnl (· = '#') rfl]
  split
  · exact skipLine_feed hnl _
  · rfl

theorem skipRestOfLine_feed (cs : List Cell) :
    skipRestOfLine? (cs ++ [nl]) =
      (skipRestOfLine? cs).map fun rest => if cs.any Cell.isLineEnd then rest ++ [nl] else [] := by
  rw [skipRestOfLine_eq, skipRestOfLine_eq, lineRest_feed hnl, ← any_isLineEnd_lineRest cs]
  cases hline : lineRest cs with
  | nil => simp [isLineEnd_feed hnl]
  | cons c rest =>
    cases hc : c.isLineEnd with
    | true => simp [hc]
    | false => simp [hc]

omit hnl in
theorem skipRestOfLine_nil {cs rest : List Cell} (h : skipRestOfLine? cs = some rest)
    (hend : cs.any Cell.isLineEnd = false) : rest = [] := by
  rw [skipRestOfLine_eq] at h
  rw [← any_isLineEnd_lineRest] at hend
  cases hline : lineRest cs with
  | nil =>
    rw [hline] at h
    cases h
    rfl
  | cons c others =>
    rw [hline] at h hend
    rw [List.any_cons, Bool.or_eq_false_iff] at hend
    simp [hend.1] at h

/-- What is read is the same, and the line feed is left behind it or taken. -/
def ReadFeeds {α : Type} (nl : Cell) (r r' : α × List Cell) : Prop := r'.1 = r.1 ∧ Feeds nl r.2 r'.2

theorem readDirective_feed (cs : List Cell) :
    Option.Rel (ReadFeeds nl) (readDirective? cs) (readDirective? (cs ++ [nl])) := by
  have hline (r : Option (Token × List Cell)) :
      Option.Rel (ReadFeeds nl) (r.bind fun r => (skipRestOfLine? r.2).bind fun rest => some (r.1, rest))
        ((r.map fun r => (r.1, r.2 ++ [nl])).bind fun r =>
          (skipRestOfLine? r.2).bind fun rest => some (r.1, rest)) := by
    cases r with
    | none => exact .none
    | some r =>
      simp only [Option.map_some, Option.bind_some, skipRestOfLine_feed hnl]
      cases hskip : skipRestOfLine? r.2 with
      | none => exact .none
      | some rest =>
        refine .some ⟨rfl, ?_⟩
        cases hend : r.2.any Cell.isLineEnd with
        | true => exact .inl rfl
        | false => exact .inr ⟨skipRestOfLine_nil hskip hend, rfl⟩
  simp only [readDirective?, spanChars_feed hnl isWordChar rfl, atWordEnd_feed hnl, readVersion_feed hnl,
    readTagHandle_feed hnl]
  split
  · exact .none
  · split
    · exact hline _
    · split
      · exact hline _
      · exact .none

end Lines

/-! ## Scalars -/

section Scalars

variable {nl : Cell} (hnl : nl.char = '\n')

include hnl

theorem isMarker_feed (mark : Char) (hmark : mark ≠ '\n') (cs : List Cell) :
    isMarker mark (cs ++ [nl]) = isMarker mark cs := by
  match cs with
  | [] => rfl
  | [a] => rfl
  | [a, b] => simp [isMarker, hnl, hmark.symm]
  | a :: b :: c :: rest => simp only [List.cons_append, isMarker, atWordEnd_feed hnl]

theorem atDocumentMarker_feed (cs : List Cell) : atDocumentMarker (cs ++ [nl]) = atDocumentMarker cs := by
  simp only [atDocumentMarker, isMarker_feed hnl '-' (by decide), isMarker_feed hnl '.' (by decide)]

theorem readSingle_feed (pending : Bool) (out : List Char) (gap : Gap) (cs : List Cell) :
    readSingle pending out gap (cs ++ [nl]) = (readSingle pending out gap cs).map fun r => (r.1, r.2 ++ [nl]) := by
  induction cs generalizing pending out gap with
  | nil => cases pending <;> simp [readSingle, finish, hnl, isLineEnd_feed hnl]
  | cons c rest ih =>
    have hmarker := atDocumentMarker_feed hnl (c :: rest)
    rw [List.cons_append] at hmarker
    rw [List.cons_append, readSingle, readSingle, hmarker, ih, ih, ih, ih]
    cases pending with
    | true =>
      by_cases hq : c.char = '\''
      · simp only [hq, ↓reduceIte]
      · simp [hq, finish]
    | false =>
      simp only [Bool.false_eq_true, ↓reduceIte]
      split
      · rfl
      · split
        · rfl
        · split <;> rfl

theorem readDouble_feed (esc : Escape) (out : List Char) (gap : Gap) (cs : List Cell) :
    readDouble esc out gap (cs ++ [nl]) = (readDouble esc out gap cs).map fun r => (r.1, r.2 ++ [nl]) := by
  induction cs generalizing esc out gap with
  | nil =>
    have hdigit : digitValue? 16 '\n' = none := by decide
    cases esc <;> simp [readDouble, hnl, isLineEnd_feed hnl, hdigit]
  | cons c rest ih =>
    have hmarker := atDocumentMarker_feed hnl (c :: rest)
    rw [List.cons_append] at hmarker
    rw [List.cons_append]
    cases esc with
    | no =>
      simp only [readDouble, hmarker, ih]
      split
      · rfl
      · split
        · rfl
        · split
          · rfl
          · split <;> rfl
    | started =>
      simp only [readDouble, ih]
      split
      · rfl
      · split <;> rfl
    | digits left value =>
      simp only [readDouble, ih]
      split
      · rfl
      · split
        · rfl
        · split <;> rfl

/-- A plain scalar that reaches the end takes the line feed as a gap behind it. -/
theorem readPlain_feed (inFlow : Bool) (indent : Nat) (out : List Char) (gap : Gap) (cs : List Cell) :
    readPlain inFlow indent out gap (cs ++ [nl]) =
      (readPlain inFlow indent out gap cs).map fun r =>
        if r.2.2 = [] then (r.1, true, []) else (r.1, r.2.1, r.2.2 ++ [nl]) := by
  induction cs generalizing out gap with
  | nil =>
    have hcrosses : (gap.push nl).crossesLines = true := by
      cases gap <;> simp [Gap.push, isLineEnd_feed hnl, Gap.crossesLines]
    simp [readPlain, hnl, isLineEnd_feed hnl, hcrosses]
  | cons c rest ih =>
    have hmarker := atDocumentMarker_feed hnl (c :: rest)
    have hnext := nextIs_feed hnl (fun d => isFlowEnd d || d = '?') rfl rest
    rw [List.cons_append] at hmarker
    rw [List.cons_append, readPlain, readPlain, hmarker]
    simp only [hnext, atWordEnd_feed hnl, ih]
    split
    · split <;> rfl
    · split
      · rfl
      · split
        · rfl
        · split
          · rfl
          · split <;> rfl

theorem readChomp_feed (cs : List Cell) : readChomp (cs ++ [nl]) = ((readChomp cs).1, (readChomp cs).2 ++ [nl]) := by
  cases cs with
  | nil => simp [readChomp, hnl, chompSign?]
  | cons c rest =>
    simp only [List.cons_append, readChomp]
    split <;> rfl

theorem readIncrement_feed (cs : List Cell) :
    readIncrement? (cs ++ [nl]) = (readIncrement? cs).map fun r => (r.1, r.2 ++ [nl]) := by
  cases cs with
  | nil => simp [readIncrement?, hnl]
  | cons c rest =>
    simp only [List.cons_append, readIncrement?]
    split
    · split <;> rfl
    · rfl

omit hnl in
theorem any_isLineEnd_readChomp (cs : List Cell) : (readChomp cs).2.any Cell.isLineEnd = cs.any Cell.isLineEnd := by
  cases cs with
  | nil => rfl
  | cons c rest =>
    cases hsign : chompSign? c.char with
    | none => simp only [readChomp, hsign]
    | some chomp =>
      have hc : c.isLineEnd = false := by
        unfold chompSign? at hsign
        split at hsign
        · rename_i hc
          simp [Cell.isLineEnd, hc, isBreak]
        · split at hsign
          · rename_i hc
            simp [Cell.isLineEnd, hc, isBreak]
          · cases hsign
      simp only [readChomp, hsign, List.any_cons, hc, Bool.false_or]

omit hnl in
theorem any_isLineEnd_readIncrement {cs rest : List Cell} {increment : Option Nat}
    (h : readIncrement? cs = some (increment, rest)) : rest.any Cell.isLineEnd = cs.any Cell.isLineEnd := by
  cases cs with
  | nil =>
    cases h
    rfl
  | cons c others =>
    simp only [readIncrement?] at h
    split at h
    · rename_i hdigit
      have hc : c.isLineEnd = false := by
        refine Bool.eq_false_iff.mpr fun hend => ?_
        have hchar : isBreak c.char = true := hend
        simp only [isBreak, Bool.or_eq_true, decide_eq_true_eq] at hchar
        rcases hchar with (((h | h) | h) | h) | h <;> simp [h] at hdigit
      split at h
      · cases h
      · cases h
        rw [List.any_cons, hc, Bool.false_or]
    · cases h
      rfl

theorem readHeader_feed (cs : List Cell) :
    readHeader? (cs ++ [nl]) =
      (readHeader? cs).map fun r => (r.1, if cs.any Cell.isLineEnd then r.2 ++ [nl] else []) := by
  simp only [readHeader?, readChomp_feed hnl, readIncrement_feed hnl]
  cases hincrement : readIncrement? (readChomp cs).2 with
  | none => rfl
  | some r =>
    obtain ⟨increment, rest⟩ := r
    have hany : rest.any Cell.isLineEnd = cs.any Cell.isLineEnd :=
      (any_isLineEnd_readIncrement hincrement).trans (any_isLineEnd_readChomp cs)
    simp only [Option.map_some, Option.bind_eq_bind, Option.bind_some]
    by_cases hclip : (readChomp cs).1 = .clip
    · simp only [hclip, if_true, readChomp_feed hnl, skipRestOfLine_feed hnl, any_isLineEnd_readChomp, hany]
      cases skipRestOfLine? (readChomp rest).2 <;> rfl
    · simp only [hclip, if_false, skipRestOfLine_feed hnl, hany]
      cases skipRestOfLine? rest <;> rfl

omit hnl in
theorem readHeader_nil {cs rest : List Cell} {header : BlockHeader} (h : readHeader? cs = some (header, rest))
    (hend : cs.any Cell.isLineEnd = false) : rest = [] := by
  simp only [readHeader?, Option.bind_eq_bind, Option.bind_eq_some_iff] at h
  obtain ⟨⟨increment, others⟩, hincrement, last, hlast, h⟩ := h
  cases h
  have hany : others.any Cell.isLineEnd = false :=
    ((any_isLineEnd_readIncrement hincrement).trans (any_isLineEnd_readChomp cs)).trans hend
  refine skipRestOfLine_nil hlast ?_
  split
  · rw [any_isLineEnd_readChomp, hany]
  · exact hany

end Scalars

/-! ## Blocks -/

def growth : Chomp → List Char → List Char
  | .strip, _ => []
  | .clip, text => if text.getLast?.any (!isBreak ·) then ['\n'] else []
  | .keep, _ => ['\n']

/-- Within a line the block ends in its last character; between lines it ends in a line end, if it has lines. -/
def Block.IsSettled : Bool → Block → Prop
  | true, b => b.lineEnd = [] ∧ b.emptyLines = [] ∧ b.out.head?.any (!isBreak ·) = true
  | false, b => b.out = [] ∧ b.lineEnd = [] ∨ ∃ c, b.lineEnd = [c] ∧ isBreak c = true

section Blocks

variable {nl : Cell} (hnl : nl.char = '\n')

include hnl

theorem readBlock_end (folded : Bool) (chomp : Chomp) (least : Nat) (indent : Option Nat) (seen : Nat)
    {inLine : Bool} {b : Block} (h : b.IsSettled inLine) :
    readBlock folded chomp least indent seen inLine b [nl] =
      some (b.finish chomp ++ growth chomp (b.finish chomp), []) := by
  have hbreak : isBreak '\n' = true := by decide
  cases inLine with
  | true =>
    obtain ⟨hend, hempty, hlast⟩ := h
    cases chomp <;> simp [readBlock, Block.finish, growth, hend, hempty, hlast, hnl, isLineEnd_feed hnl]
  | false =>
    obtain ⟨hout, hend⟩ | ⟨c, hend, hc⟩ := h
    · cases chomp <;> simp [readBlock, Block.finish, growth, hout, hend, hnl, isLineEnd_feed hnl]
    · cases chomp <;> simp [readBlock, Block.finish, growth, hend, hc, hnl, isLineEnd_feed hnl]

theorem readBlock_feed (folded : Bool) (chomp : Chomp) (least : Nat) (indent : Option Nat) (seen : Nat)
    (inLine : Bool) (b : Block) (h : b.IsSettled inLine) (cs : List Cell) :
    readBlock folded chomp least indent seen inLine b (cs ++ [nl]) =
      (readBlock folded chomp least indent seen inLine b cs).map fun r =>
        if r.2 = [] then (r.1 ++ growth chomp r.1, []) else (r.1, r.2 ++ [nl]) := by
  induction cs generalizing indent seen inLine b with
  | nil =>
    rw [List.nil_append, readBlock_end hnl folded chomp least indent seen h]
    rfl
  | cons c rest ih =>
    rw [List.cons_append, readBlock, readBlock]
    cases inLine with
    | true =>
      simp only [if_true]
      split
      · rename_i hc
        exact ih _ _ _ _ (.inr ⟨c.char, rfl, hc⟩)
      · rename_i hc
        refine ih _ _ _ _ ⟨h.1, h.2.1, ?_⟩
        have hbreak : isBreak c.char = false := by simpa [Cell.isLineEnd] using hc
        simp [hbreak]
    | false =>
      simp only [Bool.false_eq_true, if_false]
      split
      · exact ih _ _ _ _ h
      · split
        · rfl
        · split
          · exact ih _ _ _ _ h
          · split
            · rename_i hc _
              refine ih _ _ _ _ ⟨rfl, rfl, ?_⟩
              have hbreak : isBreak c.char = false := by simpa [Cell.isLineEnd] using hc
              simp [hbreak]
            · rfl

/-- A block behind its sign: the header tells how its text grows, if its line is over. -/
theorem readBlockScalar_feed (folded : Bool) (parent : Option Nat) (cs : List Cell) :
    readBlockScalar? folded parent (cs ++ [nl]) = (readBlockScalar? folded parent cs).map fun r =>
      if r.2 = [] then (r.1 ++ if cs.any Cell.isLineEnd then
        ((readHeader? cs).elim [] fun h => growth h.1.chomp r.1) else [], []) else (r.1, r.2 ++ [nl]) := by
  simp only [readBlockScalar?, readHeader_feed hnl]
  cases hheader : readHeader? cs with
  | none => rfl
  | some r =>
    obtain ⟨header, rest⟩ := r
    simp only [Option.map_some, Option.bind_eq_bind, Option.bind_some]
    cases hend : cs.any Cell.isLineEnd with
    | true =>
      have hstart : Block.IsSettled false ⟨[], [], [], false⟩ := .inl ⟨rfl, rfl⟩
      exact readBlock_feed hnl _ _ _ _ _ _ _ hstart rest
    | false =>
      obtain rfl := readHeader_nil hheader hend
      simp [readBlock]

end Blocks

end CiWorkflow.Yaml
