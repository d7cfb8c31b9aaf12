import CiWorkflow.Proofs.Expression.Reading
import CiWorkflow.Proofs.Expression.Template

/-!
# Texts as operands

A text that fills a slot is a context path or becomes a literal. As a literal it is one operand whatever it
holds: what the template says around the slot is read as before. A path is let through as it is, and is an
operand only if it is a word.
-/
set_option autoImplicit false

namespace CiWorkflow.Expression

open Text

/-- The name of a known context and what it goes on with, parted by dots. -/
def IsDotted (s : String) : Prop :=
  ∃ name ∈ contextNames, ∃ parts : List String, parts ≠ [] ∧
    (∀ part ∈ parts, part ≠ "" ∧ '.' ∉ part.toList) ∧ s = ".".intercalate (name :: parts)

theorem isTokenPath_iff_isDotted (s : String) : isTokenPath s = true ↔ IsDotted s := by
  constructor
  · intro h
    rw [isTokenPath] at h
    split at h
    · cases h
    · rename_i name parts hsplit
      simp only [Bool.and_eq_true, List.contains_eq_mem, decide_eq_true_eq, List.all_eq_true] at h
      obtain ⟨⟨hname, hne⟩, hparts⟩ := h
      refine ⟨_, hname, parts.map String.ofList, by simpa using hne, fun part hpart => ?_, ?_⟩
      · obtain ⟨cs, hcs, rfl⟩ := List.mem_map.mp hpart
        have hdot := not_mem_of_mem_splitAt (hsplit ▸ List.mem_cons_of_mem _ hcs)
        refine ⟨fun hempty => ?_, by rwa [String.toList_ofList]⟩
        have hcs := hparts cs hcs
        rw [String.ofList_eq_empty_iff.mp hempty] at hcs
        cases hcs
      · have hjoined : ['.'].intercalate (s.toList.splitOn '.') = s.toList := List.intercalate_splitOn '.'
        rw [← splitAt_eq_splitOn, hsplit] at hjoined
        rw [← String.toList_inj, String.toList_intercalate]
        simpa [Function.comp_def] using hjoined.symm
  · rintro ⟨name, hname, parts, hne, hparts, rfl⟩
    have hdots : ∀ cs ∈ (name :: parts).map String.toList, '.' ∉ cs := by
      have hnames : ∀ name ∈ contextNames, '.' ∉ name.toList := by decide
      intro cs hcs
      obtain ⟨part, hpart, rfl⟩ := List.mem_map.mp hcs
      rcases List.mem_cons.mp hpart with rfl | hpart
      · exact hnames part hname
      · exact (hparts part hpart).2
    have hsplit : splitAt '.' (".".intercalate (name :: parts)).toList = (name :: parts).map String.toList := by
      rw [String.toList_intercalate]
      exact splitAt_intercalate (by simp) hdots
    rw [isTokenPath, hsplit]
    simpa [hname, hne] using fun part hpart => (hparts part hpart).1

/-- A piece of an expression: a literal with what it says, or a character outside literals. -/
inductive Piece where
  | literal (content : List Char)
  | mark (c : Char)
  deriving DecidableEq

/-- The pieces of a text whose literals are closed. -/
inductive Reads : List Char → List Piece → Prop where
  | nil : Reads [] []
  | mark {c : Char} {rest : List Char} {ps : List Piece} (hc : c ≠ '\'') (h : Reads rest ps) :
      Reads (c :: rest) (.mark c :: ps)
  | literal {cs content rest : List Char} {ps : List Piece} (hl : readLiteral cs = some (content, rest))
      (h : Reads rest ps) : Reads ('\'' :: cs) (.literal content :: ps)

theorem isSuffix_of_readLiteral {cs content rest : List Char} (h : readLiteral cs = some (content, rest)) :
    '\'' :: rest <:+ cs := by
  fun_induction readLiteral cs generalizing content with
  | case1 => cases h
  | case2 cs ih =>
    obtain ⟨⟨s, r⟩, hr, heq⟩ := Option.map_eq_some_iff.mp h
    cases heq
    exact (ih hr).trans ((List.suffix_cons _ _).trans (List.suffix_cons _ _))
  | case3 cs =>
    cases h
    exact List.suffix_rfl
  | case4 c cs _ _ ih =>
    obtain ⟨⟨s, r⟩, hr, heq⟩ := Option.map_eq_some_iff.mp h
    cases heq
    exact (ih hr).trans (List.suffix_cons _ _)

theorem readLiteral_append {cs content rest tail : List Char} (h : readLiteral cs = some (content, rest))
    (ht : rest = [] → tail.head? ≠ some '\'') : readLiteral (cs ++ tail) = some (content, rest ++ tail) := by
  fun_induction readLiteral cs generalizing content with
  | case1 => cases h
  | case2 cs ih =>
    obtain ⟨⟨s, r⟩, hr, heq⟩ := Option.map_eq_some_iff.mp h
    cases heq
    simp [readLiteral, ih hr]
  | case3 cs hne =>
    cases h
    refine readLiteral_doubled [] ?_
    cases rest with
    | nil => exact ht rfl
    | cons c rest =>
      intro hc
      obtain rfl : c = '\'' := by simpa using hc
      exact hne rest rfl
  | case4 c cs _ hc ih =>
    obtain ⟨⟨s, r⟩, hr, heq⟩ := Option.map_eq_some_iff.mp h
    cases heq
    have hc : c ≠ '\'' := hc
    simp [readLiteral, hc, ih hr]

theorem getLast?_of_isSuffix {α : Type} {l l' : List α} {a : α} (h : l <:+ l') (ha : l.getLast? = some a) :
    l'.getLast? = some a := by
  obtain ⟨front, rfl⟩ := h
  simp [ha]

namespace Reads

/-- Texts are read one after the other, unless a literal would go on from one into the other. -/
theorem append {front back : List Char} {ps qs : List Piece} (h : Reads front ps) (h' : Reads back qs)
    (hparted : front.getLast? = some '\'' → back.head? ≠ some '\'') : Reads (front ++ back) (ps ++ qs) := by
  induction h with
  | nil => exact h'
  | mark hc _ ih => exact .mark hc (ih fun hlast => hparted (getLast?_of_isSuffix (List.suffix_cons _ _) hlast))
  | @literal cs content rest ps hl _ ih =>
    have hclosed : '\'' :: rest <:+ '\'' :: cs := (isSuffix_of_readLiteral hl).trans (List.suffix_cons _ _)
    refine .literal (readLiteral_append hl fun hrest => ?_) (ih fun hlast => ?_)
    · subst hrest
      exact hparted (getLast?_of_isSuffix hclosed rfl)
    · exact hparted (getLast?_of_isSuffix ((List.suffix_cons _ _).trans hclosed) hlast)

theorem unique {cs : List Char} {ps qs : List Piece} (h : Reads cs ps) (h' : Reads cs qs) : qs = ps := by
  induction h generalizing qs with
  | nil =>
    cases h'
    rfl
  | mark hc _ ih =>
    cases h' with
    | mark _ h' => rw [ih h']
    | literal => exact absurd rfl hc
  | literal hl _ ih =>
    cases h' with
    | mark hc => exact absurd rfl hc
    | literal hl' h' =>
      obtain ⟨rfl, rfl⟩ : _ = _ ∧ _ = _ := by simpa using hl.symm.trans hl'
      rw [ih h']

theorem of_marks {cs : List Char} (h : '\'' ∉ cs) : Reads cs (cs.map .mark) := by
  induction cs with
  | nil => exact .nil
  | cons c cs ih =>
    rw [List.mem_cons, not_or] at h
    exact .mark (Ne.symm h.1) (ih h.2)

end Reads

theorem head_ne_quote_of_isDotted {s : String} (h : IsDotted s) : s.toList.head? ≠ some '\'' := by
  obtain ⟨name, hname, parts, -, -, rfl⟩ := h
  have hnames : ∀ name ∈ contextNames, name.toList ≠ [] ∧ name.toList.head? ≠ some '\'' := by decide
  obtain ⟨c, rest, hcons⟩ := List.exists_cons_of_ne_nil (hnames name hname).1
  obtain ⟨others, hothers⟩ := isPrefix_intercalate ".".toList name.toList (parts.map String.toList)
  have hhead := (hnames name hname).2
  rw [String.toList_intercalate, List.map_cons, ← hothers, hcons, List.cons_append]
  rwa [hcons] at hhead

/-- A way to write a text as one operand, and what is read in it: a dotted path that is a word, or a literal that
says the text and is over with it. -/
inductive IsOneOperand (s : String) : String → List Piece → Prop where
  | path (hp : IsDotted s) (hw : ∀ c ∈ s.toList, isWordChar c = true) : IsOneOperand s s (s.toList.map .mark)
  | literal {text : String} {cs : List Char} (ht : text.toList = '\'' :: cs)
      (hl : readLiteral cs = some (s.toList, [])) : IsOneOperand s text [.literal s.toList]

theorem isOneOperand_quote (s : String) : IsOneOperand s (quote s) [.literal s.toList] :=
  .literal (toList_quote s) (readLiteral_doubled s.toList (by simp))

theorem exists_isOneOperand_iff_of_isDotted {s : String} (h : IsDotted s) :
    (∃ pieces, IsOneOperand s s pieces) ↔ ∀ c ∈ s.toList, isWordChar c = true := by
  constructor
  · rintro ⟨pieces, ho⟩
    cases ho with
    | path _ hw => exact hw
    | literal ht => exact absurd (ht ▸ rfl) (head_ne_quote_of_isDotted h)
  · exact fun hw => ⟨_, .path h hw⟩

/-- A place between two texts, outside the literals that are read in them and not beside a quote. -/
structure IsFree (front back : String) (ps qs : List Piece) : Prop where
  reads_front : Reads front.toList ps
  reads_back : Reads back.toList qs
  ends : front.toList.getLast? ≠ some '\''
  starts : back.toList.head? ≠ some '\''

namespace IsOneOperand

variable {s text front back : String} {pieces ps qs : List Piece}

theorem reads (h : IsOneOperand s text pieces) : Reads text.toList pieces := by
  cases h with
  | path _ hw => exact .of_marks fun hquote => absurd (hw _ hquote) (by decide)
  | literal ht hl => exact ht ▸ .literal hl .nil

theorem reads_between (h : IsOneOperand s text pieces) (hf : IsFree front back ps qs) :
    Reads (front ++ text ++ back).toList (ps ++ pieces ++ qs) := by
  rw [String.toList_append, String.toList_append]
  have hfront := hf.reads_front.append h.reads fun hlast => absurd hlast hf.ends
  exact hfront.append hf.reads_back fun _ => hf.starts

end IsOneOperand

namespace Template

/-- What a template gives in front of the slot behind some values and what it gives after that slot. -/
def Surrounds (t : Template) (before after : List Argument) (front back : String) : Prop :=
  before.length + 1 + after.length = t.slots ∧ ∃ frontTexts backTexts,
    List.Forall₂ Argument.Writes before frontTexts ∧ List.Forall₂ Argument.Writes after backTexts ∧
      front = interleave (t.parts.take (before.length + 1)) frontTexts ∧
      back = interleave (t.parts.drop (before.length + 1)) backTexts

theorem interleave_append_cons {parts frontTexts : List String} (text : String) (backTexts : List String)
    (h : frontTexts.length < parts.length) : interleave parts (frontTexts ++ text :: backTexts) =
      interleave (parts.take (frontTexts.length + 1)) frontTexts ++ text ++
        interleave (parts.drop (frontTexts.length + 1)) backTexts := by
  induction frontTexts generalizing parts with
  | nil =>
    cases parts with
    | nil => cases h
    | cons part parts => rfl
  | cons first frontTexts ih =>
    cases parts with
    | nil => cases h
    | cons part parts =>
      have hrest := ih (Nat.lt_of_succ_lt_succ h)
      simp [interleave, hrest, String.append_assoc]

theorem build_of_surrounds {t : Template} {before after : List Argument} {a : Argument}
    {front back text : String} (h : t.Surrounds before after front back) (ha : a.Writes text) :
    t.build (before ++ a :: after) = wrap (front ++ text ++ back) := by
  obtain ⟨hslots, frontTexts, backTexts, hfront, hback, rfl, rfl⟩ := h
  have hlength : (before ++ a :: after).length = t.slots := by
    rw [List.length_append, List.length_cons, ← hslots]
    omega
  have hparts : frontTexts.length < t.parts.length := by
    rw [← hfront.length_eq]
    unfold slots at hslots
    omega
  have hjoined := interleave_append_cons text backTexts hparts
  rw [← hfront.length_eq] at hjoined
  exact build_of_fills
    ⟨hlength, frontTexts ++ text :: backTexts, List.rel_append hfront (.cons ha hback), hjoined.symm⟩

end Template

theorem exists_writes_isOneOperand_iff {s : String} (hs : ¬ openMark.toList <+: s.toList) :
    ∃ text, (Argument.text s).Writes text ∧
      ((∃ pieces, IsOneOperand s text pieces) ↔ (IsDotted s → ∀ c ∈ s.toList, isWordChar c = true)) := by
  cases hp : isTokenPath s with
  | true =>
    have hdotted := (isTokenPath_iff_isDotted s).mp hp
    exact ⟨s, .path hs hp, by simp [exists_isOneOperand_iff_of_isDotted hdotted, hdotted]⟩
  | false =>
    have hplain : ¬ IsDotted s := by simp [← isTokenPath_iff_isDotted, hp]
    exact ⟨quote s, .literal hs hp, ⟨fun _ hd => absurd hd hplain, fun _ => ⟨_, isOneOperand_quote s⟩⟩⟩

/-- A text that does not start like an expression fills a slot as one operand, unless it is a dotted path with
characters that no word has. As one operand it leaves the template alone: what is read around the slot is read
there still, whatever the text holds. -/
theorem inTemplate_isOneOperand_iff (s : String) (hs : ¬ openMark.toList <+: s.toList) :
    ∃ text, (Argument.text s).inTemplate = .ok (some text) ∧
      ((∃ pieces, IsOneOperand s text pieces) ↔ (IsDotted s → ∀ c ∈ s.toList, isWordChar c = true)) ∧
      ∀ pieces, IsOneOperand s text pieces →
        ∀ (t : Template) (before after : List Argument) (front back : String),
          t.Surrounds before after front back →
            t.build (before ++ .text s :: after) = wrap (front ++ text ++ back) ∧
            ∀ ps qs, IsFree front back ps qs →
              ∀ rs, Reads (front ++ text ++ back).toList rs ↔ rs = ps ++ pieces ++ qs := by
  obtain ⟨text, hw, hone⟩ := exists_writes_isOneOperand_iff hs
  refine ⟨text, Argument.inTemplate_of_writes hw, hone, fun pieces ho t before after front back hsurrounds => ?_⟩
  refine ⟨Template.build_of_surrounds hsurrounds hw, fun ps qs hf rs => ⟨fun hr => ?_, ?_⟩⟩
  · exact (ho.reads_between hf).unique hr
  · rintro rfl
    exact ho.reads_between hf

theorem inTemplate_isOneOperand_operator : ¬ openMark.toList <+: "it's || x".toList ∧
    ∃ text, (Argument.text "it's || x").inTemplate = .ok (some text) ∧
      (∃ pieces, IsOneOperand "it's || x" text pieces) ∧
      (Template.marked "env.A == \x7b\x7d && \x7b\x7d").build [.text "it's || x", .text "b c"] =
        wrap ("env.A == " ++ text ++ " && 'b c'") ∧
      Reads ("env.A == " ++ text ++ " && 'b c'").toList
        ("env.A == ".toList.map .mark ++ [.literal "it's || x".toList] ++
          (" && ".toList.map .mark ++ [.literal "b c".toList])) := by
  have hs : ¬ openMark.toList <+: "it's || x".toList := by decide
  have hplain : ¬ IsDotted "it's || x" := by
    rw [← isTokenPath_iff_isDotted]
    decide
  obtain ⟨text, htext, hone, haround⟩ := inTemplate_isOneOperand_iff "it's || x" hs
  obtain ⟨pieces, ho⟩ := hone.mpr fun hd => absurd hd hplain
  have hafter : (Argument.text "b c").Writes "'b c'" := .literal (by decide) (by decide)
  have hsurrounds : (Template.marked "env.A == \x7b\x7d && \x7b\x7d").Surrounds [] [.text "b c"] "env.A == "
      " && 'b c'" := ⟨by decide, [], ["'b c'"], .nil, .cons hafter .nil, by decide, by decide⟩
  have hsign : Reads " && ".toList (" && ".toList.map .mark) := .of_marks (by decide)
  have hfree : IsFree "env.A == " " && 'b c'" ("env.A == ".toList.map .mark)
      (" && ".toList.map .mark ++ [.literal "b c".toList]) :=
    ⟨.of_marks (by decide), hsign.append (isOneOperand_quote "b c").reads (by decide), by decide, by decide⟩
  obtain ⟨hbuild, hreads⟩ := haround pieces ho _ _ _ _ _ hsurrounds
  refine ⟨hs, text, htext, ⟨pieces, ho⟩, hbuild, (hreads _ _ hfree _).mpr ?_⟩
  cases ho with
  | path hd => exact absurd hd hplain
  | literal => rfl

/-- A dotted path with an operator in it is let through, and its operator with it. -/
theorem not_isOneOperand_dotted : ¬ ∀ s : String, ¬ openMark.toList <+: s.toList →
    ∃ text, (Argument.text s).inTemplate = .ok (some text) ∧ ∃ pieces, IsOneOperand s text pieces := by
  intro hall
  obtain ⟨text, htext, pieces, ho⟩ := hall "github.x || true" (by decide)
  have hthrough : (Argument.text "github.x || true").inTemplate = .ok (some "github.x || true") := by decide
  obtain rfl : "github.x || true" = text := by simpa using hthrough.symm.trans htext
  cases ho with
  | path _ hw => exact absurd (hw '|' (by decide)) (by decide)
  | literal ht => exact absurd (ht ▸ rfl) (show "github.x || true".toList.head? ≠ some '\'' by decide)

end CiWorkflow.Expression
