import CiWorkflow.Proofs.Render.Literal
import CiWorkflow.Proofs.Render.Replaced
import CiWorkflow.Proofs.Render.Scripts

set_option autoImplicit false

namespace CiWorkflow.Render

open Text Yaml Decimal Json

namespace Blocks

variable {b : Blocks} {indent : Nat} {line : List Char} {s : String}

/-! ## Entries -/

def entryLine (lead dashes : Nat) (text : List Char) : List Char :=
  spaces lead ++ ((List.replicate dashes ['-', ' ']).flatten ++ ("run: ".toList ++ text))

/-- The line is a `run` entry that is nothing but a reference to a script, with the same quote at both ends or
none. -/
def IsEntry (b : Blocks) (line : List Char) (lead dashes : Nat) (s : String) : Prop :=
  ∃ quote index, IsQuote quote ∧ b.named? index = some s ∧
    line = entryLine lead dashes (quote ++ (b.citation index ++ quote))

theorem takeDashes_spec (cs : List Char) :
    cs = (List.replicate (takeDashes cs).1 ['-', ' ']).flatten ++ (takeDashes cs).2 := by
  fun_induction takeDashes cs with
  | case1 rest n rest' heq ih =>
    rw [heq] at ih
    simpa [List.replicate_succ] using ih
  | case2 cs h => simp

theorem takeDashes_run (n : Nat) (rest : List Char) :
    takeDashes ((List.replicate n ['-', ' ']).flatten ++ ("run: ".toList ++ rest)) = (n, "run: ".toList ++ rest) := by
  induction n with
  | zero => rfl
  | succ n ih =>
    rw [List.replicate_succ, List.flatten_cons, List.append_assoc]
    simp only [List.cons_append, List.nil_append, takeDashes, ih]

theorem takeWhile_spaces (line : List Char) :
    line = spaces (line.takeWhile (· = ' ')).length ++ line.dropWhile (· = ' ') := by
  have hspaces : line.takeWhile (· = ' ') = spaces (line.takeWhile (· = ' ')).length :=
    List.eq_replicate_iff.mpr ⟨rfl, fun c hc => by simpa using List.all_eq_true.mp List.all_takeWhile c hc⟩
  rw [← hspaces, List.takeWhile_append_dropWhile]

theorem isEntry_of_blockLine {block : List Char} (h : b.blockLine? indent line = some block) :
    ∃ lead dashes s, b.IsEntry line lead dashes s ∧ block = literalEntry lead dashes indent s := by
  simp only [blockLine?, Option.bind_eq_bind, Option.bind_eq_some_iff, stripPrefix_eq_some] at h
  obtain ⟨rest, hrun, ⟨number, index, behind⟩, hread, h⟩ := h
  split at h
  · rename_i hend
    simp only [Bool.and_eq_true, List.isEmpty_iff, decide_eq_true_eq] at hend
    obtain ⟨s, hfind, hblock⟩ := Option.bind_eq_some_iff.mp h
    obtain ⟨hspelled, -, hi, -⟩ := readReference_iff.mp hread
    obtain ⟨rfl, hnamed⟩ := (find_eq_some hi.nonempty).mp hfind
    have hbehind : behind = (takeQuote rest).1 := by
      rw [takeQuote_spec behind, hend.1, hend.2, List.append_nil]
    refine ⟨_, _, s, ⟨(takeQuote rest).1, index, isQuote_takeQuote rest, hnamed, ?_⟩, (Option.some.inj hblock).symm⟩
    have hrest : rest = (takeQuote rest).1 ++ (b.citation index ++ (takeQuote rest).1) :=
      calc rest = (takeQuote rest).1 ++ (takeQuote rest).2 := takeQuote_spec rest
        _ = _ := by rw [hspelled, citation_eq, hbehind]
    have hdashes := takeDashes_spec (line.dropWhile (· = ' '))
    rw [hrun, hrest] at hdashes
    rw [entryLine, ← hdashes, ← takeWhile_spaces]
  · cases h

theorem entryLine_spaces (lead dashes : Nat) (text : List Char) :
    (entryLine lead dashes text).takeWhile (· = ' ') = spaces lead ∧
      (entryLine lead dashes text).dropWhile (· = ' ') =
        (List.replicate dashes ['-', ' ']).flatten ++ ("run: ".toList ++ text) := by
  have hspaces : ∀ c ∈ spaces lead, decide (c = ' ') = true := fun c hc => by simp [List.eq_of_mem_replicate hc]
  rw [entryLine, List.takeWhile_append_of_pos hspaces, List.dropWhile_append_of_pos hspaces]
  cases dashes with
  | zero => simp
  | succ n => simp [List.replicate_succ]

theorem blockLine_of_isEntry {lead dashes : Nat} (h : b.IsEntry line lead dashes s) (indent : Nat) :
    b.blockLine? indent line = some (literalEntry lead dashes indent s) := by
  obtain ⟨quote, index, hq, hnamed, rfl⟩ := h
  have hmaximal : quote.head?.any isDecimalDigit = false := by
    rcases hq with rfl | rfl | rfl
    · rfl
    · exact (by decide : isDecimalDigit '"' = false)
    · exact (by decide : isDecimalDigit '\'' = false)
  have hopen : takeQuote (quote ++ (b.citation index ++ quote)) = (quote, b.citation index ++ quote) := by
    obtain ⟨tail, htail⟩ := exists_citation_tail b index
    refine takeQuote_of_isQuote hq _ ?_
    rw [htail]
    rfl
  have hclose : takeQuote quote = (quote, []) := by
    simpa using takeQuote_of_isQuote hq [] rfl
  have hfind := (find_eq_some (areDigits_of_named hnamed).nonempty).mpr ⟨rfl, hnamed⟩
  have hrun (text : List Char) : stripPrefix? "run: ".toList ("run: ".toList ++ text) = some text :=
    stripPrefix_eq_some.mpr rfl
  obtain ⟨hlead, hrest⟩ := entryLine_spaces lead dashes (quote ++ (b.citation index ++ quote))
  simp only [blockLine?, hlead, hrest, takeDashes_run, hrun, hopen, readReference_citation hnamed hmaximal, hclose,
    hfind, Option.bind_eq_bind, Option.bind_some]
  simp [spaces]

/-! ## Literal blocks hold no marker -/

theorem mark_not_mem_header (lead dashes width n : Nat) (lines : List (List Char)) :
    '_' ∉ entryStart lead dashes ++ indentSign width lines ++ chompSign n := by
  have hstart : '_' ∉ entryStart lead dashes := fun hc => absurd (mem_entryStart hc) (by decide)
  have hindent : '_' ∉ indentSign width lines := fun hc => absurd (isDigit_of_mem_indentSign hc) (by decide)
  have hchomp : '_' ∉ chompSign n := by
    unfold chompSign
    split
    · decide
    · split <;> decide
  simp [hstart, hindent, hchomp]

theorem newline_not_mem_marker (n : Nat) : '\n' ∉ (marker n).toList := fun h =>
  (mem_marker h).elim (absurd · (by decide)) (absurd · (by decide))

theorem infix_of_behind_spaces {n column : Nat} {cs : List Char} (h : (marker n).toList <:+: spaces column ++ cs) :
    (marker n).toList <:+: cs := by
  refine infix_of_append (fun x hx hmem => ?_) (marker_ne_nil n) h
  rw [head_marker] at hx
  cases hx
  cases List.eq_of_mem_replicate hmem

theorem not_infix_literalEntry (lead dashes indent : Nat) {n : Nat} (h : ¬ (marker n).toList <:+: s.toList) :
    ¬ (marker n).toList <:+: literalEntry lead dashes indent s := by
  have hline := newline_not_mem_marker n
  obtain ⟨body, trailing, hsplit, hscript, -⟩ := splitTrailing_eq s.toList
  rw [literalEntry_eq lead dashes indent hsplit, infix_append_cons_iff hline,
    infix_flatMap_iff hline (marker_ne_nil n)]
  rintro (hheader | ⟨l, hl, hmarker⟩)
  · refine mark_not_mem_header _ _ _ _ _ (hheader.mem ?_)
    exact List.mem_of_mem_head? (head_marker n)
  · obtain ⟨piece, hpiece, hmarker⟩ : ∃ piece ∈ splitAt '\n' body, (marker n).toList <:+: piece := by
      obtain hl | hl := List.mem_append.mp hl
      · obtain ⟨piece, hpiece, rfl⟩ := List.mem_map.mp hl
        unfold padded at hmarker
        split at hmarker
        · exact absurd (List.infix_nil.mp hmarker) (marker_ne_nil n)
        · exact ⟨piece, hpiece, infix_of_behind_spaces hmarker⟩
      · rw [List.eq_of_mem_replicate hl] at hmarker
        exact absurd (List.infix_nil.mp hmarker) (marker_ne_nil n)
    have hbody := (infix_splitAt_iff hline (marker_ne_nil n) body).mp ⟨piece, hpiece, hmarker⟩
    rw [hscript] at h
    exact h (hbody.trans (List.prefix_append ..).isInfix)

theorem not_citesSome_of_marker {cs : List Char} (h : ¬ (marker b.number).toList <:+: cs) : ¬ b.CitesSome cs := by
  rintro ⟨front, index, back, s, hc⟩
  refine h ⟨front, ':' :: index ++ back, ?_⟩
  rw [hc.text, citation]
  simp

theorem lines_end (front : List Char) (lines : List (List Char)) :
    ∃ cs, front ++ '\n' :: lines.flatMap (· ++ ['\n']) = cs ++ ['\n'] := by
  obtain rfl | ⟨others, last, rfl⟩ := List.eq_nil_or_concat' lines
  · exact ⟨front, rfl⟩
  · exact ⟨front ++ '\n' :: (others.flatMap (· ++ ['\n']) ++ last), by simp⟩

theorem literalEntry_ends (lead dashes indent : Nat) (s : String) :
    ∃ cs, literalEntry lead dashes indent s = cs ++ ['\n'] := by
  obtain ⟨body, trailing, hsplit, -, -⟩ := splitTrailing_eq s.toList
  rw [literalEntry_eq lead dashes indent hsplit]
  exact lines_end _ _

/-! ## Lines -/

def withEnds : List (List Char) → List (List Char × List Char)
  | [] => []
  | [line] => [(line, [])]
  | line :: rest => (line, ['\n']) :: withEnds rest

def endedLines (text : List Char) : List (List Char × List Char) := withEnds (splitAt '\n' text)

inductive RestoresLine (b : Blocks) (indent : Nat) : List Char × List Char → List Char → Prop
  | copied {line ending : List Char} : ¬ b.CitesSome line → RestoresLine b indent (line, ending) (line ++ ending)
  | block {line ending : List Char} {lead dashes : Nat} {s : String} :
    b.IsEntry line lead dashes s → RestoresLine b indent (line, ending) (literalEntry lead dashes indent s)
  | quoted {line ending : List Char} {ps : List Piece} :
    b.CitesSome line → (∀ lead dashes s, ¬ b.IsEntry line lead dashes s) → Replaces b line ps →
      RestoresLine b indent (line, ending) (ps.flatMap Piece.shown ++ ending)

theorem citesSome_parts {A B : List Char} {c : Char} (hnone : ∀ index s, b.named? index = some s → c ∉ b.citation index)
    (h : b.CitesSome (A ++ c :: B)) : b.CitesSome A ∨ b.CitesSome B := by
  obtain ⟨front, index, back, s, hc⟩ := h
  obtain ⟨f, rfl, hf⟩ | ⟨a, rfl, ha⟩ := List.append_eq_append_iff.mp hc.text
  · cases f with
    | nil =>
      -- The reference would start with the character.
      obtain ⟨tail, htail⟩ := exists_citation_tail b index
      have hc' := hnone index s hc.named
      rw [htail] at hf hc'
      exact absurd (List.cons.inj hf).1 (by simp_all)
    | cons d f => exact .inr ⟨f, index, back, s, (List.cons.inj hf).2, hc.maximal, hc.named⟩
  · obtain ⟨y, rfl, rfl⟩ | ⟨y, hy, hback⟩ := List.append_eq_append_iff.mp ha
    · refine .inl ⟨front, index, y, s, rfl, ?_, hc.named⟩
      cases y with
      | nil => rfl
      | cons d y => exact hc.maximal
    · cases y with
      | nil =>
        rw [List.append_nil] at hy
        exact .inl ⟨front, index, [], s, by rw [hy, List.append_nil], rfl, hc.named⟩
      | cons d y =>
        obtain rfl : c = d := (List.cons.inj hback).1
        exact absurd (by simp [hy]) (hnone index s hc.named)

theorem citesSome_lines {A B : List Char} (h : b.CitesSome (A ++ '\n' :: B)) : b.CitesSome A ∨ b.CitesSome B :=
  citesSome_parts (fun _ _ => newline_not_mem_citation) h

theorem Replaces.shown_eq {ps : List Piece} (h : Replaces b line ps) (hline : ¬ b.CitesSome line) :
    ps.flatMap Piece.shown = line := by
  rw [← h.whole, sources]
  refine List.flatMap_congr fun p hp => ?_
  cases p with
  | text cs => rfl
  | script opening index closing s =>
    obtain ⟨pre, post, hps⟩ := List.append_of_mem hp
    exact absurd ⟨_, _, _, _, (h.cites _ _ _ _).mpr ⟨pre, opening, closing, post, hps, rfl, rfl⟩⟩ hline

theorem restoresLine (b : Blocks) (indent : Nat) (line ending : List Char) :
    RestoresLine b indent (line, ending) (b.restoreLine indent line ending) := by
  unfold restoreLine
  cases hblock : b.blockLine? indent line with
  | some block =>
    obtain ⟨lead, dashes, s, hentry, rfl⟩ := isEntry_of_blockLine hblock
    exact .block hentry
  | none =>
    obtain ⟨ps, hps, hshown⟩ := exists_divides b line
    rw [hshown]
    by_cases hline : b.CitesSome line
    · refine .quoted hline (fun lead dashes s hentry => ?_) hps.replaces
      rw [blockLine_of_isEntry hentry] at hblock
      cases hblock
    · rw [hps.replaces.shown_eq hline]
      exact .copied hline

theorem not_citesSome_restoreLine (hfresh : ∀ s ∈ b.scripts, ¬ (marker b.number).toList <:+: s.toList) (indent : Nat)
    (line ending : List Char) :
    ∃ cs, ¬ b.CitesSome cs ∧
      (b.restoreLine indent line ending = cs ++ ending ∨ b.restoreLine indent line ending = cs ++ ['\n']) := by
  unfold restoreLine
  cases hblock : b.blockLine? indent line with
  | some block =>
    obtain ⟨lead, dashes, s, ⟨quote, index, hq, hnamed, hline⟩, rfl⟩ := isEntry_of_blockLine hblock
    obtain ⟨cs, hcs⟩ := literalEntry_ends lead dashes indent s
    refine ⟨cs, not_citesSome_of_marker fun hmarker => ?_, .inr hcs⟩
    have hentry := not_infix_literalEntry lead dashes indent (hfresh s (mem_scripts_of_named hnamed))
    rw [hcs] at hentry
    exact hentry (hmarker.trans (List.prefix_append ..).isInfix)
  | none =>
    obtain ⟨ps, hps, hshown⟩ := exists_divides b line
    exact ⟨_, hshown ▸ hps.not_citesSome hfresh, .inl rfl⟩

theorem not_citesSome_nil : ¬ b.CitesSome [] := not_citesSome_of_marker fun h =>
  marker_ne_nil _ (List.infix_nil.mp h)

theorem not_citesSome_restoreLines (hfresh : ∀ s ∈ b.scripts, ¬ (marker b.number).toList <:+: s.toList) (indent : Nat)
    (lines : List (List Char)) : ¬ b.CitesSome (b.restoreLines indent lines) := by
  fun_induction restoreLines b indent lines with
  | case1 => exact not_citesSome_nil
  | case2 line =>
    obtain ⟨cs, hcs, heq | heq⟩ := not_citesSome_restoreLine hfresh indent line []
    · rwa [heq, List.append_nil]
    · rw [heq]
      exact fun h => (citesSome_lines h).elim hcs not_citesSome_nil
  | case3 line rest _ ih =>
    obtain ⟨cs, hcs, heq⟩ := not_citesSome_restoreLine hfresh indent line ['\n']
    rw [heq.elim id id, List.append_assoc]
    exact fun h => (citesSome_lines h).elim hcs ih

theorem forall₂_restoreLines (b : Blocks) (indent : Nat) (lines : List (List Char)) :
    ∃ out, b.restoreLines indent lines = out.flatten ∧ List.Forall₂ (RestoresLine b indent) (withEnds lines) out := by
  fun_induction restoreLines b indent lines with
  | case1 => exact ⟨[], rfl, .nil⟩
  | case2 line => exact ⟨[b.restoreLine indent line []], by simp, .cons (restoresLine b indent line []) .nil⟩
  | case3 line rest hne ih =>
    obtain ⟨out, hout, hlines⟩ := ih
    refine ⟨b.restoreLine indent line ['\n'] :: out, by rw [hout]; rfl, ?_⟩
    rw [withEnds]
    · exact .cons (restoresLine b indent line ['\n']) hlines
    · exact hne

theorem flatMap_withEnds {lines : List (List Char)} (h : lines ≠ []) :
    (withEnds lines).flatMap (fun l => l.1 ++ l.2) ++ ['\n'] = lines.flatMap (· ++ ['\n']) := by
  fun_induction withEnds lines with
  | case1 => exact absurd rfl h
  | case2 line => simp
  | case3 line rest hne ih =>
    rw [List.flatMap_cons, List.flatMap_cons, List.append_assoc, ih (fun hnil => hne hnil)]

theorem flatMap_endedLines (text : List Char) : (endedLines text).flatMap (fun l => l.1 ++ l.2) = text := by
  have hlines := flatMap_withEnds (splitWhere_ne_nil (· = '\n') text)
  rwa [← splitAt, flatMap_splitAt, ← endedLines, List.append_cancel_right_eq] at hlines

theorem not_citesSome_of_isEmpty (h : b.scripts = []) (cs : List Char) : ¬ b.CitesSome cs := by
  rintro ⟨front, index, back, s, hc⟩
  have hmem := mem_scripts_of_named hc.named
  rw [h] at hmem
  cases hmem

end Blocks

/-! ## Scripts of a marked value -/

theorem texts_subset_itemTexts {v : Value} {items : List Value} (h : v ∈ items) : texts v ⊆ itemTexts items := by
  induction items with
  | nil => cases h
  | cons w rest ih =>
    rw [itemTexts]
    obtain rfl | h := List.mem_cons.mp h
    · exact List.subset_append_left ..
    · exact List.Subset.trans (ih h) (List.subset_append_right ..)

theorem texts_subset_entryTexts {e : Value × Value} {entries : List (Value × Value)} (h : e ∈ entries) :
    texts e.2 ⊆ entryTexts entries := by
  induction entries with
  | nil => cases h
  | cons f rest ih =>
    rw [entryTexts]
    obtain rfl | h := List.mem_cons.mp h
    · exact List.Subset.trans (List.subset_append_right ..) (List.subset_append_left ..)
    · exact List.Subset.trans (ih h) (List.subset_append_right ..)

theorem texts_subset_of_part {p : List Nat} {v w : Value} (h : v.part? p = some w) : texts w ⊆ texts v := by
  induction p generalizing v with
  | nil =>
    obtain rfl : v = w := by simpa using h
    exact List.Subset.refl _
  | cons i p ih =>
    cases v with
    | sequence items =>
      rw [Value.part?_sequence, Option.bind_eq_some_iff] at h
      obtain ⟨v, hv, h⟩ := h
      exact List.Subset.trans (ih h) (texts_subset_itemTexts (List.mem_of_getElem? hv))
    | mapping entries =>
      rw [Value.part?_mapping, Option.bind_eq_some_iff] at h
      obtain ⟨e, he, h⟩ := h
      exact List.Subset.trans (ih h) (texts_subset_entryTexts (List.mem_of_getElem? he))
    | tagged t v =>
      cases i with
      | zero =>
        rw [Value.part?_tagged_zero] at h
        rw [texts]
        exact ih h
      | succ i => simp at h
    | _ => simp [Value.part?] at h

theorem mem_texts_of_isScript {v : Value} {p : List Nat} {s : String} (h : IsScript v p s) : s ∈ texts v := by
  obtain ⟨q, i, entries, key, -, hq, he, -⟩ := h
  refine texts_subset_of_part hq (texts_subset_entryTexts (List.mem_of_getElem? he) ?_)
  simp [texts]

/-- The scripts that are taken out of a value do not hold the marker that stands for them. -/
theorem fresh_scripts (v : Value) : ∀ s ∈ (mark v).2.scripts, ¬ (marker (mark v).2.number).toList <:+: s.toList := by
  intro s hs
  have hscripts : (mark v).2.scripts = (scripts v).map Prod.snd := snd_markFrom _ 0 v
  rw [hscripts, List.mem_map] at hs
  obtain ⟨⟨p, t⟩, ht, rfl⟩ := hs
  have hfresh := fresh_mark v t (mem_texts_of_isScript ((mem_scripts v p).mp ht))
  rwa [contains, Bool.eq_false_iff, ne_eq, occursIn_iff] at hfresh

open Blocks in
/-- Putting the scripts of a value back into a text copies each line that does not refer to one of them, turns each
`run` entry that is nothing but a reference into the literal block of the script, replaces every other reference with
the script in quotes, and leaves no reference. -/
theorem restore_lines (v : Value) (indent : Nat) (text : String) :
    (endedLines text.toList).flatMap (fun l => l.1 ++ l.2) = text.toList ∧
      (∃ out : List (List Char), ((mark v).2.restore indent text).toList = out.flatten ∧
        List.Forall₂ (RestoresLine (mark v).2 indent) (endedLines text.toList) out) ∧
      ¬ (mark v).2.CitesSome ((mark v).2.restore indent text).toList := by
  refine ⟨flatMap_endedLines _, ?_⟩
  unfold restore
  split
  · rename_i hempty
    have hnone := not_citesSome_of_isEmpty (List.isEmpty_iff.mp hempty)
    refine ⟨⟨(endedLines text.toList).map fun l => l.1 ++ l.2, ?_, ?_⟩, hnone _⟩
    · rw [← List.flatMap_def, flatMap_endedLines]
    · rw [List.forall₂_map_right_iff, List.forall₂_same]
      exact fun l _ => .copied (hnone l.1)
  · rw [String.toList_ofList]
    exact ⟨forall₂_restoreLines _ indent _, not_citesSome_restoreLines (fresh_scripts v) indent _⟩

end CiWorkflow.Render
