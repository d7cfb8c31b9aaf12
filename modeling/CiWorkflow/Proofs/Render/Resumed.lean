import CiWorkflow.Proofs.Render.ScriptBlock
import CiWorkflow.Proofs.Render.Standing
import Mathlib.Data.List.DropRight

/-!
# Restoring part by part

What stands behind a finished text is restored together with the last line of it. A part in which no reference starts
stays as it is, and a reference behind a blank becomes its script: a block if it makes the line a `run` entry, and a
text in quotes otherwise.
-/
set_option autoImplicit false

namespace CiWorkflow.Render

open Text Yaml Decimal

namespace Blocks

variable {b : Blocks} {indent : Nat} {c : Char} {line ending part whole done cs : List Char} {s : String}

/-! ## Texts without references -/

def IsInert (b : Blocks) (cs : List Char) : Prop := ∀ rest, b.CitesSome (cs ++ rest) → b.CitesSome rest

theorem CitesSome.behind {rest : List Char} (h : b.CitesSome rest) (front : List Char) :
    b.CitesSome (front ++ rest) := by
  obtain ⟨f, index, back, s, hc⟩ := h
  exact ⟨front ++ f, index, back, s, hc.behind front⟩

theorem CitesSome.before (h : b.CitesSome cs) (hc : isDecimalDigit c = false) (rest : List Char) :
    b.CitesSome (cs ++ c :: rest) := by
  obtain ⟨front, index, back, s, hcites⟩ := h
  refine ⟨front, index, back ++ c :: rest, s, by rw [hcites.text]; simp, ?_, hcites.named⟩
  cases back with
  | nil => simpa using hc
  | cons d back => exact hcites.maximal

theorem isInert_nil : b.IsInert [] := fun _ h => h

theorem IsInert.append {A B : List Char} (hA : b.IsInert A) (hB : b.IsInert B) : b.IsInert (A ++ B) := by
  intro rest h
  rw [List.append_assoc] at h
  exact hB rest (hA _ h)

theorem IsInert.of_append {A B : List Char} (h : b.IsInert (A ++ B)) : b.IsInert B := by
  intro rest hrest
  refine h rest ?_
  rw [List.append_assoc]
  exact hrest.behind A

theorem IsInert.not_citesSome (h : b.IsInert cs) : ¬ b.CitesSome cs := fun hcites =>
  not_citesSome_nil (h [] (by rwa [List.append_nil]))

theorem isInert_of_not_mem (h : '_' ∉ cs) : b.IsInert cs := by
  rintro rest ⟨front, index, back, s, hc⟩
  obtain ⟨front, rfl⟩ := exists_front_of_startsNowhere (startsNowhere_of_not_mem h rest) hc
  exact ⟨front, index, back, s, hc.of_behind⟩

theorem isInert_char (hc : c ≠ '_') : b.IsInert [c] := isInert_of_not_mem (by simpa using hc.symm)

theorem not_mem_citation (hc : isReferenceChar c = false) (hcolon : c ≠ ':') {index : List Char}
    (h : b.named? index = some s) : c ∉ b.citation index := by
  intro hmem
  rw [citation_eq] at hmem
  obtain hd | hstem | rfl := mem_spelled (areDigits_toDigits _) (areDigits_of_named h) hmem
  · simp [isReferenceChar, hd] at hc
  · have hall : ∀ c ∈ markerStem.toList, isReferenceChar c = true := forall_mem_of_all (by decide)
    rw [hall c hstem] at hc
    cases hc
  · exact hcolon rfl

/-- A text without references is over at a character that no reference has. -/
theorem isInert_concat (h : ¬ b.CitesSome cs) (hc : isReferenceChar c = false) (hcolon : c ≠ ':') :
    b.IsInert (cs ++ [c]) := by
  intro rest hcites
  rw [List.append_assoc] at hcites
  exact (citesSome_parts (fun _ _ => not_mem_citation hc hcolon) hcites).resolve_left h

theorem isInert_concat_of_marker (h : ¬ (marker b.number).toList <:+: cs) (hc : isReferenceChar c = false) :
    b.IsInert (cs ++ [c]) := by
  rintro rest ⟨front, index, back, s, hcites⟩
  have htext := hcites.text
  rw [List.append_assoc, List.singleton_append] at htext
  have hstart (A : List Char) : (marker b.number).toList <+: b.citation index ++ A := by
    rw [citation, List.append_assoc]
    exact List.prefix_append _ _
  obtain ⟨f, rfl, hf⟩ | ⟨a, rfl, ha⟩ := List.append_eq_append_iff.mp htext
  · cases f with
    | nil =>
      obtain ⟨tail, htail⟩ := exists_citation_tail b index
      rw [htail] at hf
      obtain ⟨rfl, -⟩ := List.cons.inj hf
      cases hc
    | cons d f => exact ⟨f, index, back, s, (List.cons.inj hf).2, hcites.maximal, hcites.named⟩
  · cases a with
    | nil =>
      obtain ⟨tail, htail⟩ := exists_citation_tail b index
      rw [htail] at ha
      obtain ⟨rfl, -⟩ := List.cons.inj ha
      cases hc
    | cons d a =>
      have hparted : Parted (d :: a) (c :: rest) := by
        rintro - - x ⟨⟩
        exact .inr hc
      have hmarker := hstart back
      rw [ha, prefix_of_parted (isReferenceChar_marker _) (List.cons_ne_nil d a) hparted] at hmarker
      exact absurd (hmarker.isInfix.trans (List.suffix_append ..).isInfix) h

/-! ## Finished texts -/

def lastLine (cs : List Char) : List Char := cs.rtakeWhile (· ≠ '\n')

def fullLines (cs : List Char) : List Char := cs.rdropWhile (· ≠ '\n')

/-- What is restored of a text behind one that is finished up to the end of its last line. -/
def resumed (b : Blocks) (indent : Nat) (done cs : List Char) : List Char :=
  fullLines done ++ b.restoreText indent (lastLine done ++ cs)

theorem fullLines_append_lastLine (cs : List Char) : fullLines cs ++ lastLine cs = cs :=
  List.rdropWhile_append_rtakeWhile

theorem feed_not_mem_lastLine (cs : List Char) : '\n' ∉ lastLine cs := fun h => by
  simpa using List.mem_rtakeWhile_imp h

theorem lastLine_concat (cs : List Char) (c : Char) :
    lastLine (cs ++ [c]) = if c = '\n' then [] else lastLine cs ++ [c] := by
  rw [lastLine, List.rtakeWhile_concat]
  split <;> simp_all [lastLine]

theorem lastLine_feed (cs : List Char) : lastLine (cs ++ ['\n']) = [] := by
  rw [lastLine_concat, if_pos rfl]

theorem lastLine_append_of_not_mem (done : List Char) {cs : List Char} (h : '\n' ∉ cs) :
    lastLine (done ++ cs) = lastLine done ++ cs := by
  induction cs using List.reverseRecOn with
  | nil => simp
  | append_singleton cs c ih =>
    simp only [List.mem_append, List.mem_singleton, not_or] at h
    rw [← List.append_assoc, lastLine_concat, if_neg (Ne.symm h.2), ih h.1, List.append_assoc]

theorem fullLines_append_of_not_mem (done : List Char) {cs : List Char} (h : '\n' ∉ cs) :
    fullLines (done ++ cs) = fullLines done := by
  have heq := fullLines_append_lastLine (done ++ cs)
  rw [lastLine_append_of_not_mem done h, ← List.append_assoc, List.append_cancel_right_eq] at heq
  rw [← List.append_cancel_right_eq _ (lastLine done), heq, fullLines_append_lastLine]

theorem lastLine_append_suffix (done cs : List Char) : lastLine (done ++ cs) <:+ lastLine done ++ cs := by
  induction cs using List.reverseRecOn with
  | nil => simp
  | append_singleton cs c ih =>
    rw [← List.append_assoc, lastLine_concat]
    split
    · exact List.nil_suffix
    · obtain ⟨front, hfront⟩ := ih
      exact ⟨front, by rw [← List.append_assoc, hfront, List.append_assoc]⟩

theorem resumed_feed (done cs : List Char) :
    b.resumed indent (done ++ ['\n']) cs = done ++ '\n' :: b.restoreText indent cs := by
  have hfull : fullLines (done ++ ['\n']) = done ++ ['\n'] := by
    rw [fullLines, List.rdropWhile_concat_neg _ _ _ (by simp)]
  simp [resumed, lastLine_feed, hfull]

theorem resumed_line (done cs : List Char) : b.resumed indent done ('\n' :: cs) =
    fullLines done ++ (b.restoreLine indent (lastLine done) ['\n'] ++ b.restoreText indent cs) := by
  rw [resumed, restoreText_line b indent _ _ (feed_not_mem_lastLine done)]

theorem resumed_append_of_not_mem {part : List Char} (h : '\n' ∉ part) (done cs : List Char) :
    b.resumed indent done (part ++ cs) = b.resumed indent (done ++ part) cs := by
  rw [resumed, resumed, lastLine_append_of_not_mem done h, fullLines_append_of_not_mem done h, List.append_assoc]

theorem IsEntry.citesSome {lead dashes : Nat} (h : b.IsEntry line lead dashes s) : b.CitesSome line := by
  obtain ⟨quote, index, hq, hnamed, rfl⟩ := h
  refine ⟨spaces lead ++ ((List.replicate dashes ['-', ' ']).flatten ++ ("run: ".toList ++ quote)), index, quote, s,
    by simp [entryLine], ?_, hnamed⟩
  obtain rfl | rfl | rfl := hq <;> rfl

theorem blockLine_eq_none (h : ∀ lead dashes s, ¬ b.IsEntry line lead dashes s) : b.blockLine? indent line = none := by
  refine Option.eq_none_iff_forall_ne_some.mpr fun block hblock => ?_
  obtain ⟨lead, dashes, s, hentry, -⟩ := isEntry_of_blockLine hblock
  exact h lead dashes s hentry

theorem restoreInLine_of_not_citesSome (h : ¬ b.CitesSome line) : b.restoreInLine 0 true line = line := by
  obtain ⟨ps, hps, hshown⟩ := exists_divides b line
  rw [hshown, hps.replaces.shown_eq h]

theorem restoreLine_of_not_citesSome (h : ¬ b.CitesSome line) (ending : List Char) :
    b.restoreLine indent line ending = line ++ ending := by
  rw [restoreLine, blockLine_eq_none fun lead dashes s hentry => h hentry.citesSome]
  exact congrArg (· ++ ending) (restoreInLine_of_not_citesSome h)

/-- Behind a finished text a part is restored to another, and no reference starts in the last line then. -/
structure Becomes (b : Blocks) (indent : Nat) (done part whole : List Char) : Prop where
  resumed : ∀ cs, b.resumed indent done (part ++ cs) = b.resumed indent (done ++ whole) cs
  inert : b.IsInert (lastLine (done ++ whole))

theorem Becomes.append {others restored : List Char} (h : b.Becomes indent done part whole)
    (hothers : b.Becomes indent (done ++ whole) others restored) :
    b.Becomes indent done (part ++ others) (whole ++ restored) := by
  refine ⟨fun cs => ?_, ?_⟩
  · rw [List.append_assoc, h.resumed, hothers.resumed, List.append_assoc]
  · rw [← List.append_assoc]
    exact hothers.inert

theorem resumed_inert (cs : List Char) (h : b.IsInert (lastLine done ++ part)) :
    b.resumed indent done (part ++ cs) = b.resumed indent (done ++ part) cs := by
  induction part generalizing done with
  | nil => rw [List.append_nil, List.nil_append]
  | cons c part ih =>
    by_cases hc : c = '\n'
    · subst hc
      have hline : ¬ b.CitesSome (lastLine done) := fun hcites =>
        h.not_citesSome (hcites.before (by decide) part)
      have hrest := @ih (done ++ ['\n']) (by
        rw [lastLine_feed]
        rw [List.append_cons] at h
        exact h.of_append)
      have hone : b.resumed indent done ('\n' :: (part ++ cs)) = b.resumed indent (done ++ ['\n']) (part ++ cs) := by
        rw [resumed_line, restoreLine_of_not_citesSome hline, resumed_feed, List.append_assoc, ← List.append_assoc,
          fullLines_append_lastLine]
        rfl
      rw [List.append_assoc] at hrest
      exact hone.trans hrest
    · have hrest := @ih (done ++ [c]) (by rwa [lastLine_concat, if_neg hc, List.append_assoc])
      have hone : b.resumed indent done ([c] ++ (part ++ cs)) = b.resumed indent (done ++ [c]) (part ++ cs) :=
        resumed_append_of_not_mem (by simp [Ne.symm hc]) done (part ++ cs)
      rw [List.append_assoc] at hrest
      exact hone.trans hrest

theorem becomes_inert (hdone : b.IsInert (lastLine done)) (h : b.IsInert part) : b.Becomes indent done part part := by
  have hboth := hdone.append h
  refine ⟨fun cs => resumed_inert cs hboth, ?_⟩
  obtain ⟨front, hfront⟩ := lastLine_append_suffix done part
  rw [← hfront] at hboth
  exact hboth.of_append

theorem resumed_nil (h : b.IsInert (lastLine done)) : b.resumed indent done [] = done := by
  rw [resumed, List.append_nil, restoreText, splitAt_of_not_mem (feed_not_mem_lastLine done), restoreLines,
    restoreLine_of_not_citesSome h.not_citesSome, List.append_nil, fullLines_append_lastLine]

theorem Becomes.restoreText_eq (h : b.Becomes indent [] part whole) : b.restoreText indent part = whole := by
  have hall := h.resumed []
  rwa [resumed_nil h.inert, List.append_nil] at hall

theorem toList_restore (b : Blocks) (indent : Nat) (text : String) :
    (b.restore indent text).toList = b.restoreText indent text.toList := by
  unfold restore
  split
  · rename_i hempty
    have hnone := not_citesSome_of_isEmpty (List.isEmpty_iff.mp hempty)
    have hsame : b.Becomes indent [] text.toList text.toList :=
      becomes_inert (fun _ h => absurd h (hnone _)) fun _ h => absurd h (hnone _)
    exact hsame.restoreText_eq.symm
  · exact String.toList_ofList

/-! ## References -/

theorem named_toDigits {i : Nat} (h : b.scripts[i]? = some s) : b.named? (Nat.toDigits 10 i) = some s := by
  rw [← find_reference] at h
  exact ((find_eq_some Nat.toDigits_ne_nil).mp h).2

theorem reference_eq_citation (b : Blocks) (i : Nat) :
    (reference b.number i).toList = b.citation (Nat.toDigits 10 i) := by
  rw [citation_eq, reference_eq]

theorem head_quote {quote : List Char} (hq : IsQuote quote) : quote.head?.any isDecimalDigit = false := by
  obtain rfl | rfl | rfl := hq <;> rfl

theorem eq_of_last_colon {A A' B B' : List Char} (hB : ':' ∉ B) (hB' : ':' ∉ B') (h : A ++ ':' :: B = A' ++ ':' :: B') :
    A = A' ∧ B = B' := by
  obtain ⟨X, rfl, hX⟩ | ⟨X, rfl, hX⟩ := List.append_eq_append_iff.mp h
  · cases X with
    | nil => exact ⟨(List.append_nil A).symm, (List.cons.inj hX).2⟩
    | cons d X => exact absurd (by simp [(List.cons.inj hX).2]) hB
  · cases X with
    | nil => exact ⟨List.append_nil A', (List.cons.inj hX).2.symm⟩
    | cons d X => exact absurd (by simp [(List.cons.inj hX).2]) hB'

def entryFront (lead dashes : Nat) : List Char :=
  spaces lead ++ ((List.replicate dashes ['-', ' ']).flatten ++ "run:".toList)

theorem eq_entryFront_of_isEntry {quote index : List Char} {lead dashes : Nat} {t : String} (hq : IsQuote quote)
    (hnamed : b.named? index = some s)
    (h : b.IsEntry (line ++ ' ' :: (quote ++ (b.citation index ++ quote))) lead dashes t) :
    line = entryFront lead dashes := by
  obtain ⟨quote', index', hq', hnamed', heq⟩ := h
  have hcolon {quote index : List Char} {s : String} (hq : IsQuote quote) (h : b.named? index = some s) :
      ':' ∉ index ++ quote := by
    rw [List.mem_append, not_or]
    refine ⟨fun hmem => ?_, hq.not_mem rfl⟩
    exact absurd ((areDigits_of_named h).digits ':' hmem) (by decide)
  have hparts : (line ++ ' ' :: (quote ++ (marker b.number).toList)) ++ ':' :: (index ++ quote) =
      (entryFront lead dashes ++ ' ' :: (quote' ++ (marker b.number).toList)) ++ ':' :: (index' ++ quote') := by
    simpa [citation, entryLine, entryFront] using heq
  obtain ⟨hfront, hback⟩ := eq_of_last_colon (hcolon hq hnamed) (hcolon hq' hnamed') hparts
  have hquotes : quote = quote' := by
    have hleft := (takeWhile_digits (areDigits_of_named hnamed).digits (head_quote hq)).2
    have hright := (takeWhile_digits (areDigits_of_named hnamed').digits (head_quote hq')).2
    rw [← hleft, hback, hright]
  rw [hquotes] at hfront
  exact (List.append_left_inj _).mp hfront

theorem restoreInLine_citation {quote index : List Char} (hq : IsQuote quote) (hnamed : b.named? index = some s) :
    b.restoreInLine 0 true (quote ++ (b.citation index ++ quote)) = Json.quoted s.toList := by
  have hread : b.quotedScript? (quote ++ (b.citation index ++ quote)) = some (some (Json.quoted s.toList), []) := by
    have hclose : (takeQuote quote).2 = [] := by
      have hwhole := takeQuote_of_isQuote hq [] rfl
      rw [List.append_nil] at hwhole
      rw [hwhole]
    rw [quotedScript_citation hq ⟨rfl, head_quote hq, hnamed⟩, hclose]
  obtain ⟨c, tail, htext⟩ : ∃ c tail, quote ++ (b.citation index ++ quote) = c :: tail := by
    obtain ⟨tail, htail⟩ := exists_citation_tail b index
    obtain rfl | rfl | rfl := hq
    · exact ⟨_, _, by rw [htail]; rfl⟩
    · exact ⟨_, _, rfl⟩
    · exact ⟨_, _, rfl⟩
  rw [htext, ← List.append_nil tail] at hread ⊢
  rw [restoreInLine_reference b hread]
  simp [restoreInLine]

theorem restoreInLine_behind {quote index : List Char} (hline : ¬ b.CitesSome line) (hq : IsQuote quote)
    (hnamed : b.named? index = some s) :
    b.restoreInLine 0 true (line ++ ' ' :: (quote ++ (b.citation index ++ quote))) =
      line ++ ' ' :: Json.quoted s.toList := by
  have hblank : b.restoreInLine 0 true ([' '] ++ (quote ++ (b.citation index ++ quote))) =
      [' '] ++ b.restoreInLine 0 true (quote ++ (b.citation index ++ quote)) :=
    b.restoreInLine_plain [' '] _ (by simp [isPlainChar, isQuoteChar])
  rw [restoreInLine_append b line _ rfl, restoreInLine_of_not_citesSome hline]
  rw [restoreInLine_citation hq hnamed] at hblank
  exact congrArg (line ++ ·) hblank

theorem becomes_line {i : Nat} {quote ended : List Char} (hs : b.scripts[i]? = some s) (hq : IsQuote quote)
    (hline : b.restoreLine indent (lastLine done ++ ' ' :: (quote ++ ((reference b.number i).toList ++ quote))) ['\n'] =
      lastLine done ++ ' ' :: (ended ++ ['\n'])) :
    b.Becomes indent done (' ' :: (quote ++ ((reference b.number i).toList ++ (quote ++ ['\n']))))
      (' ' :: (ended ++ ['\n'])) := by
  have hnone : '\n' ∉ ' ' :: (quote ++ ((reference b.number i).toList ++ quote)) := by
    have hcitation := newline_not_mem_citation (named_toDigits hs)
    rw [← reference_eq_citation] at hcitation
    simp [hcitation, hq.not_mem (c := '\n') rfl]
  generalize hpart : ' ' :: (quote ++ ((reference b.number i).toList ++ quote)) = part at hline hnone
  refine ⟨fun cs => ?_, ?_⟩
  · calc b.resumed indent done (' ' :: (quote ++ ((reference b.number i).toList ++ (quote ++ ['\n']))) ++ cs)
        = b.resumed indent done (part ++ '\n' :: cs) := by simp [← hpart]
      _ = fullLines done ++ (b.restoreLine indent (lastLine done ++ part) ['\n'] ++ b.restoreText indent cs) := by
        rw [resumed_append_of_not_mem hnone, resumed_line, fullLines_append_of_not_mem done hnone,
          lastLine_append_of_not_mem done hnone]
      _ = done ++ ' ' :: ended ++ '\n' :: b.restoreText indent cs := by
        rw [hline, ← List.append_assoc, ← List.append_assoc, fullLines_append_lastLine]
        simp
      _ = b.resumed indent (done ++ ' ' :: (ended ++ ['\n'])) cs := by
        rw [← List.cons_append, ← List.append_assoc, resumed_feed]
  · rw [← List.cons_append, ← List.append_assoc, lastLine_feed]
    exact isInert_nil

/-- A reference behind a blank becomes the script in quotes if the line is no `run` entry. -/
theorem becomes_quoted {i : Nat} {quote : List Char} (hdone : b.IsInert (lastLine done)) (hs : b.scripts[i]? = some s)
    (hq : IsQuote quote) (hentry : ∀ lead dashes, lastLine done ≠ entryFront lead dashes) :
    b.Becomes indent done (' ' :: (quote ++ ((reference b.number i).toList ++ (quote ++ ['\n']))))
      (' ' :: (Json.quoted s.toList ++ ['\n'])) := by
  have hnamed := named_toDigits hs
  refine becomes_line hs hq ?_
  rw [reference_eq_citation]
  rw [restoreLine, blockLine_eq_none fun lead dashes t hline => hentry lead dashes
    (eq_entryFront_of_isEntry hq hnamed hline)]
  dsimp only
  rw [restoreInLine_behind hdone.not_citesSome hq hnamed]
  simp

/-- A reference behind the key of a `run` entry becomes the script as a block. -/
theorem becomes_block {i lead dashes : Nat} {quote : List Char} (hs : b.scripts[i]? = some s) (hq : IsQuote quote)
    (hline : lastLine done = entryFront lead dashes) :
    b.Becomes indent done (' ' :: (quote ++ ((reference b.number i).toList ++ (quote ++ ['\n']))))
      (' ' :: scriptBlock (keyColumn lead dashes) indent s) := by
  obtain ⟨ended, hended⟩ := scriptBlock_ends (keyColumn lead dashes) indent s
  rw [hended]
  refine becomes_line hs hq ?_
  rw [reference_eq_citation, ← hended]
  have hentry : b.IsEntry (lastLine done ++ ' ' :: (quote ++ (b.citation (Nat.toDigits 10 i) ++ quote)))
      lead dashes s := by
    refine ⟨quote, Nat.toDigits 10 i, hq, named_toDigits hs, ?_⟩
    rw [hline]
    simp [entryFront, entryLine]
  rw [restoreLine, blockLine_of_isEntry hentry, hline]
  dsimp only
  rw [literalEntry_eq_scriptBlock]
  simp [entryFront]

end Blocks

end CiWorkflow.Render
