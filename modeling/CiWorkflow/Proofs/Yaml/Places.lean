import CiWorkflow.Yaml.Token.Scanner

set_option autoImplicit false

namespace CiWorkflow.Yaml

theorem dropWhile_map_of_eq {α : Type} (f : α → α) (p : α → Bool) (hp : ∀ a, p (f a) = p a) (as : List α) :
    (as.map f).dropWhile p = (as.dropWhile p).map f := by
  have hcomp : p ∘ f = p := funext hp
  rw [List.dropWhile_map, hcomp]

theorem takeWhile_map_of_eq {α : Type} (f : α → α) (p : α → Bool) (hp : ∀ a, p (f a) = p a) (as : List α) :
    (as.map f).takeWhile p = (as.takeWhile p).map f := by
  have hcomp : p ∘ f = p := funext hp
  rw [List.takeWhile_map, hcomp]

section Readers

variable {f : Cell → Cell} (hchar : ∀ c, (f c).char = c.char)

include hchar

theorem isBlank_map (c : Cell) : (f c).isBlank = c.isBlank := by simp [Cell.isBlank, hchar]

theorem isLineEnd_map (c : Cell) : (f c).isLineEnd = c.isLineEnd := by simp [Cell.isLineEnd, hchar]

theorem nextIs_map (p : Char → Bool) (cs : List Cell) : nextIs p (cs.map f) = nextIs p cs := by
  cases cs <;> simp [nextIs, hchar]

theorem atWordEnd_map (cs : List Cell) : atWordEnd (cs.map f) = atWordEnd cs := by
  cases cs <;> simp [atWordEnd, isBlank_map hchar, isLineEnd_map hchar]

theorem chars_map (cs : List Cell) : chars (cs.map f) = chars cs := by
  simp [chars, hchar]

theorem spanChars_map (p : Char → Bool) (cs : List Cell) :
    spanChars p (cs.map f) = ((spanChars p cs).1, (spanChars p cs).2.map f) := by
  have hp : ∀ c, p (f c).char = p c.char := fun c => by rw [hchar]
  simp only [spanChars, dropWhile_map_of_eq f (fun c => p c.char) hp,
    takeWhile_map_of_eq f (fun c => p c.char) hp, chars_map hchar]

theorem skipBlanks_map (cs : List Cell) : skipBlanks (cs.map f) = (skipBlanks cs).map f :=
  dropWhile_map_of_eq f _ (isBlank_map hchar) cs

theorem skipLine_map (cs : List Cell) : skipLine (cs.map f) = (skipLine cs).map f :=
  dropWhile_map_of_eq f _ (fun c => by rw [isLineEnd_map hchar]) cs

theorem skipRestOfLine_map (cs : List Cell) :
    skipRestOfLine? (cs.map f) = (skipRestOfLine? cs).map (List.map f) := by
  unfold skipRestOfLine?
  simp only [skipBlanks_map hchar, nextIs_map hchar]
  have hrest : (if nextIs (· = '#') (skipBlanks cs) then skipLine ((skipBlanks cs).map f)
      else (skipBlanks cs).map f) =
      (if nextIs (· = '#') (skipBlanks cs) then skipLine (skipBlanks cs) else skipBlanks cs).map f := by
    split
    · exact skipLine_map hchar _
    · rfl
  rw [hrest]
  cases (if nextIs (· = '#') (skipBlanks cs) then skipLine (skipBlanks cs) else skipBlanks cs) with
  | nil => rfl
  | cons c rest =>
    simp only [List.map_cons, isLineEnd_map hchar]
    split <;> rfl

theorem readAnchor_map (cs : List Cell) :
    readAnchor? (cs.map f) = (readAnchor? cs).map fun r => (r.1, r.2.map f) := by
  simp only [readAnchor?, spanChars_map hchar, atWordEnd_map hchar, nextIs_map hchar]
  split <;> rfl

theorem readTagUri_map (wide mayBeEmpty : Bool) (cs : List Cell) :
    readTagUri? wide mayBeEmpty (cs.map f) = (readTagUri? wide mayBeEmpty cs).map fun r => (r.1, r.2.map f) := by
  simp only [readTagUri?, spanChars_map hchar]
  cases unescapeTag? (spanChars (isTagUriChar wide) cs).1 with
  | none => rfl
  | some tag =>
    simp only [Option.bind_eq_bind, Option.bind_some]
    split <;> rfl

theorem readHandle_map (cs : List Cell) :
    readHandle? (cs.map f) = (readHandle? cs).map fun r => (r.1, r.2.map f) := by
  cases cs with
  | nil => rfl
  | cons c rest =>
    simp only [List.map_cons, readHandle?, hchar, spanChars_map hchar]
    split
    · rfl
    · cases (spanChars isWordChar rest).2 with
      | nil => rfl
      | cons d after =>
        simp only [List.map_cons, hchar]
        split <;> rfl

theorem endsTag_map (inFlow : Bool) (cs : List Cell) : endsTag inFlow (cs.map f) = endsTag inFlow cs := by
  simp only [endsTag, atWordEnd_map hchar, nextIs_map hchar]

theorem readVerbatimTag_map (cs : List Cell) :
    readVerbatimTag? (cs.map f) = (readVerbatimTag? cs).map fun r => (r.1, r.2.map f) := by
  simp only [readVerbatimTag?, readTagUri_map hchar]
  cases readTagUri? true false cs with
  | none => rfl
  | some r =>
    obtain ⟨uri, rest⟩ := r
    cases rest with
    | nil => rfl
    | cons c rest =>
      simp only [Option.map_some, List.map_cons, Option.bind_eq_bind, Option.bind_some, hchar]
      split <;> rfl

theorem readShortTag_map (cs : List Cell) :
    readShortTag? (cs.map f) = (readShortTag? cs).map fun r => (r.1, r.2.map f) := by
  simp only [readShortTag?, readHandle_map hchar]
  cases readHandle? cs with
  | none => rfl
  | some r =>
    obtain ⟨handle, rest⟩ := r
    simp only [Option.map_some, Option.bind_eq_bind, Option.bind_some, readTagUri_map hchar]
    split
    · cases readTagUri? false false rest <;> rfl
    · cases readTagUri? false true rest <;> rfl

theorem readTag_map (inFlow : Bool) (cs : List Cell) :
    readTag? inFlow (cs.map f) = (readTag? inFlow cs).map fun r => (r.1, r.2.map f) := by
  simp only [readTag?, ← List.map_drop, nextIs_map hchar, readVerbatimTag_map hchar, readShortTag_map hchar]
  split
  · cases readVerbatimTag? (cs.drop 2) with
    | none => rfl
    | some r =>
      simp only [Option.map_some, Option.bind_eq_bind, Option.bind_some, endsTag_map hchar]
      split <;> rfl
  · cases readShortTag? cs with
    | none => rfl
    | some r =>
      simp only [Option.map_some, Option.bind_eq_bind, Option.bind_some, endsTag_map hchar]
      split <;> rfl

theorem readVersionNumber_map (cs : List Cell) :
    readVersionNumber? (cs.map f) = (readVersionNumber? cs).map fun r => (r.1, r.2.map f) := by
  simp only [readVersionNumber?, spanChars_map hchar]
  split <;> rfl

theorem readVersion_map (cs : List Cell) :
    readVersion? (cs.map f) = (readVersion? cs).map fun r => (r.1, r.2.map f) := by
  simp only [readVersion?, skipBlanks_map hchar, readVersionNumber_map hchar]
  cases readVersionNumber? (skipBlanks cs) with
  | none => rfl
  | some r =>
    obtain ⟨major, rest⟩ := r
    cases rest with
    | nil => rfl
    | cons c rest =>
      simp only [Option.map_some, List.map_cons, Option.bind_eq_bind, Option.bind_some, hchar,
        readVersionNumber_map hchar]
      split
      · cases readVersionNumber? rest <;> rfl
      · rfl

theorem readTagHandle_map (cs : List Cell) :
    readTagHandle? (cs.map f) = (readTagHandle? cs).map fun r => (r.1, r.2.map f) := by
  simp only [readTagHandle?, skipBlanks_map hchar, readHandle_map hchar]
  cases readHandle? (skipBlanks cs) with
  | none => rfl
  | some r =>
    obtain ⟨handle, rest⟩ := r
    simp only [Option.map_some, Option.bind_eq_bind, Option.bind_some, nextIs_map hchar,
      skipBlanks_map hchar, readTagUri_map hchar]
    split
    · rfl
    · split
      · rfl
      · cases readTagUri? true false (skipBlanks rest) with
        | none => rfl
        | some r =>
          simp only [Option.map_some, Option.bind_some, atWordEnd_map hchar]
          split <;> rfl

theorem readDirective_map (cs : List Cell) :
    readDirective? (cs.map f) = (readDirective? cs).map fun r => (r.1, r.2.map f) := by
  have hline (r : Option (Token × List Cell)) :
      ((r.map fun r => (r.1, r.2.map f)).bind fun r => (skipRestOfLine? r.2).bind fun rest => some (r.1, rest)) =
        (r.bind fun r => (skipRestOfLine? r.2).bind fun rest => some (r.1, rest)).map
          fun r => (r.1, r.2.map f) := by
    cases r with
    | none => rfl
    | some r =>
      simp only [Option.map_some, Option.bind_some, skipRestOfLine_map hchar]
      cases skipRestOfLine? r.2 <;> rfl
  simp only [readDirective?, spanChars_map hchar, atWordEnd_map hchar, readVersion_map hchar,
    readTagHandle_map hchar]
  split
  · rfl
  · split
    · exact hline _
    · split
      · exact hline _
      · rfl

end Readers

section Scalars

variable {f : Cell → Cell} (hchar : ∀ c, (f c).char = c.char) (hcolumn : ∀ c, (f c).column = c.column)

include hchar

theorem push_map (c : Cell) (g : Gap) : g.push (f c) = g.push c := by
  cases g <;> simp only [Gap.push, isLineEnd_map hchar, hchar]

theorem readChomp_map (cs : List Cell) : readChomp (cs.map f) = ((readChomp cs).1, (readChomp cs).2.map f) := by
  cases cs with
  | nil => rfl
  | cons c rest =>
    simp only [List.map_cons, readChomp, hchar]
    split <;> rfl

theorem readIncrement_map (cs : List Cell) :
    readIncrement? (cs.map f) = (readIncrement? cs).map fun r => (r.1, r.2.map f) := by
  cases cs with
  | nil => rfl
  | cons c rest =>
    simp only [List.map_cons, readIncrement?, hchar]
    split
    · split <;> rfl
    · rfl

theorem readHeader_map (cs : List Cell) :
    readHeader? (cs.map f) = (readHeader? cs).map fun r => (r.1, r.2.map f) := by
  simp only [readHeader?, readChomp_map hchar, readIncrement_map hchar]
  cases readIncrement? (readChomp cs).2 with
  | none => rfl
  | some r =>
    obtain ⟨increment, rest⟩ := r
    have hafter : (if (readChomp cs).1 = .clip then readChomp (rest.map f) else ((readChomp cs).1, rest.map f)) =
        ((if (readChomp cs).1 = .clip then readChomp rest else ((readChomp cs).1, rest)).1,
          (if (readChomp cs).1 = .clip then readChomp rest else ((readChomp cs).1, rest)).2.map f) := by
      split
      · exact readChomp_map hchar rest
      · rfl
    simp only [Option.map_some, Option.bind_eq_bind, Option.bind_some, hafter, skipRestOfLine_map hchar]
    cases skipRestOfLine? (if (readChomp cs).1 = .clip then readChomp rest else ((readChomp cs).1, rest)).2 <;> rfl

include hcolumn

theorem isMarker_map (mark : Char) (cs : List Cell) : isMarker mark (cs.map f) = isMarker mark cs := by
  match cs with
  | [] | [_] | [_, _] => rfl
  | a :: b :: c :: rest => simp only [List.map_cons, isMarker, hchar, hcolumn, atWordEnd_map hchar]

theorem atDocumentMarker_map (cs : List Cell) : atDocumentMarker (cs.map f) = atDocumentMarker cs := by
  simp only [atDocumentMarker, isMarker_map hchar hcolumn]

theorem readSingle_map (pending : Bool) (out : List Char) (gap : Gap) (cs : List Cell) :
    readSingle pending out gap (cs.map f) = (readSingle pending out gap cs).map fun r => (r.1, r.2.map f) := by
  induction cs generalizing pending out gap with
  | nil => cases pending <;> rfl
  | cons c rest ih =>
    have hmarker := atDocumentMarker_map hchar hcolumn (c :: rest)
    rw [List.map_cons] at hmarker
    rw [List.map_cons, readSingle, readSingle, hchar, isBlank_map hchar, isLineEnd_map hchar, hmarker,
      push_map hchar, ih, ih, ih, ih]
    cases pending with
    | true =>
      by_cases hq : c.char = '\''
      · simp only [hq, ↓reduceIte]
      · simp [hq, finish]
    | false =>
      simp only [Bool.false_eq_true, ↓reduceIte]
      split
      · rfl
      · split
        · rfl
        · split <;> rfl

theorem readDouble_map (esc : Escape) (out : List Char) (gap : Gap) (cs : List Cell) :
    readDouble esc out gap (cs.map f) = (readDouble esc out gap cs).map fun r => (r.1, r.2.map f) := by
  induction cs generalizing esc out gap with
  | nil => rfl
  | cons c rest ih =>
    have hmarker := atDocumentMarker_map hchar hcolumn (c :: rest)
    rw [List.map_cons] at hmarker
    rw [List.map_cons]
    cases esc with
    | no =>
      simp only [readDouble, hmarker, hchar, isBlank_map hchar, isLineEnd_map hchar, push_map hchar, ih]
      split
      · rfl
      · split
        · rfl
        · split
          · rfl
          · split <;> rfl
    | started =>
      simp only [readDouble, hchar, isLineEnd_map hchar, ih]
      split
      · rfl
      · split <;> rfl
    | digits left value =>
      simp only [readDouble, hchar, ih]
      split
      · rfl
      · split
        · rfl
        · split <;> rfl

theorem readPlain_map (inFlow : Bool) (indent : Nat) (out : List Char) (gap : Gap) (cs : List Cell) :
    readPlain inFlow indent out gap (cs.map f) =
      (readPlain inFlow indent out gap cs).map fun r => (r.1, r.2.1, r.2.2.map f) := by
  induction cs generalizing out gap with
  | nil => rfl
  | cons c rest ih =>
    have hmarker := atDocumentMarker_map hchar hcolumn (c :: rest)
    rw [List.map_cons] at hmarker
    rw [List.map_cons, readPlain, readPlain, hmarker]
    simp only [hchar, hcolumn, isBlank_map hchar, isLineEnd_map hchar, push_map hchar, nextIs_map hchar,
      atWordEnd_map hchar, ih]
    split
    · split <;> rfl
    · split
      · rfl
      · split
        · rfl
        · split
          · rfl
          · split <;> rfl

theorem readBlock_map (folded : Bool) (chomp : Chomp) (least : Nat) (indent : Option Nat) (seen : Nat)
    (inLine : Bool) (b : Block) (cs : List Cell) :
    readBlock folded chomp least indent seen inLine b (cs.map f) =
      (readBlock folded chomp least indent seen inLine b cs).map fun r => (r.1, r.2.map f) := by
  induction cs generalizing indent seen inLine b with
  | nil => rfl
  | cons c rest ih =>
    have hjoin : b.join folded (f c) = b.join folded c := by simp only [Block.join, isBlank_map hchar]
    rw [List.map_cons, readBlock, readBlock]
    simp only [hchar, hcolumn, isBlank_map hchar, isLineEnd_map hchar, hjoin, ih]
    split
    · split <;> rfl
    · split
      · rfl
      · split
        · rfl
        · split
          · rfl
          · split <;> rfl

theorem readBlockScalar_map (folded : Bool) (parent : Option Nat) (cs : List Cell) :
    readBlockScalar? folded parent (cs.map f) =
      (readBlockScalar? folded parent cs).map fun r => (r.1, r.2.map f) := by
  simp only [readBlockScalar?, readHeader_map hchar]
  cases readHeader? cs with
  | none => rfl
  | some r =>
    simp only [Option.map_some, Option.bind_eq_bind, Option.bind_some, readBlock_map hchar hcolumn]

end Scalars

end CiWorkflow.Yaml
