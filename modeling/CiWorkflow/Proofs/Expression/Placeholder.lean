import CiWorkflow.Proofs.Expression.Arguments
import CiWorkflow.Proofs.Text.Every

/-!
# Numbers in the template of a format

A format needs a number in braces somewhere in its template, and its template is looked at before its values are. The
number may be written in the digits of any script, though a platform fills in those in ASCII digits only. So a format
is made exactly where a platform finds something to fill in, unless all numbers in braces have foreign digits.
-/
set_option autoImplicit false

namespace CiWorkflow.Expression

open Text

/-- Digits of some kind between braces, anywhere in a text. -/
def HoldsNumber (isDigit : Char → Bool) (cs : List Char) : Prop :=
  ∃ digits, digits ≠ [] ∧ (∀ d ∈ digits, isDigit d = true) ∧ '\x7b' :: (digits ++ ['\x7d']) <:+: cs

/-- Digits and a closing brace come first exactly if the brace follows the longest run of digits. -/
theorem exists_digits_iff {isDigit : Char → Bool} (hclose : isDigit '\x7d' = false) (rest : List Char) :
    (∃ digits, digits ≠ [] ∧ (∀ d ∈ digits, isDigit d = true) ∧ digits ++ ['\x7d'] <+: rest) ↔
      rest.takeWhile isDigit ≠ [] ∧ (rest.dropWhile isDigit).head? = some '\x7d' := by
  constructor
  · rintro ⟨digits, hne, hdigits, tail, rfl⟩
    rw [List.append_assoc, List.takeWhile_append_of_pos hdigits, List.dropWhile_append_of_pos hdigits]
    simp [hne, hclose]
  · rintro ⟨hne, hhead⟩
    refine ⟨rest.takeWhile isDigit, hne, fun d hd => List.all_eq_true.mp List.all_takeWhile d hd, ?_⟩
    obtain ⟨tail, htail⟩ := List.head?_eq_some_iff.mp hhead
    refine ⟨tail, ?_⟩
    calc
      rest.takeWhile isDigit ++ ['\x7d'] ++ tail = rest.takeWhile isDigit ++ rest.dropWhile isDigit := by simp [htail]
      _ = rest := List.takeWhile_append_dropWhile

theorem holdsNumber_cons_iff {isDigit : Char → Bool} (hclose : isDigit '\x7d' = false) (c : Char) (rest : List Char) :
    HoldsNumber isDigit (c :: rest) ↔
      (c = '\x7b' ∧ rest.takeWhile isDigit ≠ [] ∧ (rest.dropWhile isDigit).head? = some '\x7d') ∨
        HoldsNumber isDigit rest := by
  rw [← exists_digits_iff hclose]
  constructor
  · rintro ⟨digits, hne, hdigits, hin⟩
    rcases List.infix_cons_iff.mp hin with hbrace | hin
    · obtain ⟨rfl, hstart⟩ := List.cons_prefix_cons.mp hbrace
      exact .inl ⟨rfl, digits, hne, hdigits, hstart⟩
    · exact .inr ⟨digits, hne, hdigits, hin⟩
  · rintro (⟨rfl, digits, hne, hdigits, hstart⟩ | ⟨digits, hne, hdigits, hin⟩)
    · exact ⟨digits, hne, hdigits, (List.cons_prefix_cons.mpr ⟨rfl, hstart⟩).isInfix⟩
    · exact ⟨digits, hne, hdigits, List.infix_cons hin⟩

theorem not_holdsNumber_nil (isDigit : Char → Bool) : ¬ HoldsNumber isDigit [] := by
  rintro ⟨digits, -, -, hin⟩
  cases List.infix_nil.mp hin

/-- Looking at one brace after the other finds a number wherever it stands. -/
theorem hasPlaceholder_iff (cs : List Char) : hasPlaceholder cs = true ↔ HoldsNumber isDecimalDigit cs := by
  induction cs with
  | nil => simp [hasPlaceholder, not_holdsNumber_nil]
  | cons c rest ih =>
    rw [holdsNumber_cons_iff (by decide), ← ih, hasPlaceholder]
    simp [and_assoc]

theorem HoldsNumber.mono {isDigit isOther : Char → Bool} {cs : List Char} (h : HoldsNumber isDigit cs)
    (hle : ∀ c, isDigit c = true → isOther c = true) : HoldsNumber isOther cs := by
  obtain ⟨digits, hne, hdigits, hin⟩ := h
  exact ⟨digits, hne, fun d hd => hle d (hdigits d hd), hin⟩

theorem HoldsNumber.any {isDigit : Char → Bool} {cs : List Char} (h : HoldsNumber isDigit cs) :
    cs.any isDigit = true := by
  obtain ⟨digits, hne, hdigits, hin⟩ := h
  obtain ⟨d, rest, rfl⟩ := List.exists_cons_of_ne_nil hne
  exact List.any_eq_true.mpr ⟨d, hin.mem (by simp), hdigits d (List.mem_cons_self ..)⟩

theorem format_of_not_holdsNumber {template : String} (h : ¬ HoldsNumber isDecimalDigit template.toList)
    (args : List Argument) : Call.format template args = .error (.missingPlaceholder template) := by
  rw [Call.format, if_neg fun hp => h ((hasPlaceholder_iff _).mp hp)]

theorem format_of_holdsNumber {template : String} (h : HoldsNumber isDecimalDigit template.toList)
    (args : List Argument) :
    Call.format template args =
      (args.mapM (Call.argument "format")).map fun texts => Call.make "format" (quote template :: texts) :=
  Function.call_eq (f := .format template) ((hasPlaceholder_iff _).mpr h)

/-- That a format is made exactly if its template holds a number that a platform fills in, whatever texts its values
have, and that otherwise the template is refused before the values are looked at. -/
def NeedsIndex (template : String) : Prop :=
  (∀ (args : List Argument) (texts : List String), args.mapM (Call.argument "format") = .ok texts →
    ((∃ c, Call.format template args = .ok c) ↔ HoldsNumber Char.isDigit template.toList)) ∧
  (¬ HoldsNumber Char.isDigit template.toList →
    ∀ args, Call.format template args = .error (.missingPlaceholder template))

/-- A format asks for a number that a platform fills in, unless foreign digits are the only ones in its template.
Without any number the template is refused whatever the values are; with one, the values decide. -/
theorem needsIndex_iff (template : String) :
    (NeedsIndex template ↔
      (HoldsNumber isDecimalDigit template.toList → HoldsNumber Char.isDigit template.toList)) ∧
    (¬ HoldsNumber isDecimalDigit template.toList →
      ∀ args, Call.format template args = .error (.missingPlaceholder template)) ∧
    (HoldsNumber isDecimalDigit template.toList → ∀ args, Call.format template args =
      (args.mapM (Call.argument "format")).map fun texts => Call.make "format" (quote template :: texts)) := by
  refine ⟨?_, format_of_not_holdsNumber, format_of_holdsNumber⟩
  constructor
  · rintro ⟨hmade, -⟩ hany
    -- without values every template with a number gives a call
    exact (hmade [] [] rfl).mp ⟨_, format_of_holdsNumber hany []⟩
  · intro h
    have hsame : HoldsNumber isDecimalDigit template.toList ↔ HoldsNumber Char.isDigit template.toList :=
      ⟨h, fun hascii => hascii.mono isDecimalDigit_of_isDigit⟩
    refine ⟨fun args texts htexts => ?_, fun hnone => format_of_not_holdsNumber (mt hsame.mp hnone)⟩
    rw [← hsame]
    constructor
    · rintro ⟨c, hc⟩
      by_contra hnone
      cases (format_of_not_holdsNumber hnone args).symm.trans hc
    · intro hany
      exact ⟨_, by rw [format_of_holdsNumber hany, htexts]; rfl⟩

/-- A number in foreign digits does no harm beside one that is filled in, and braces may stand around it. -/
theorem needsIndex_beside_foreign :
    NeedsIndex "\x7b\u0661\x7d of \x7b\x7b12\x7d" ∧
      ∃ c, Call.format "\x7b\u0661\x7d of \x7b\x7b12\x7d" [.text "x"] = .ok c := by
  have hascii : HoldsNumber Char.isDigit "\x7b\u0661\x7d of \x7b\x7b12\x7d".toList :=
    ⟨['1', '2'], by decide, forall_mem_of_all (by decide), (occursIn_iff _ _).mp (by decide)⟩
  have hneeds : NeedsIndex "\x7b\u0661\x7d of \x7b\x7b12\x7d" := (needsIndex_iff _).1.mpr fun _ => hascii
  exact ⟨hneeds, (hneeds.1 [.text "x"] ["'x'"] rfl).mpr hascii⟩

/-- A template is taken although its only number is written in Arabic-Indic digits. -/
theorem not_needsIndex_foreign : ¬ ∀ template, NeedsIndex template := by
  intro h
  have hforeign : HoldsNumber isDecimalDigit "\x7b\u0661\x7d".toList := (hasPlaceholder_iff _).mp (by decide)
  have hascii := (needsIndex_iff _).1.mp (h "\x7b\u0661\x7d") hforeign
  exact absurd hascii.any (by decide)

end CiWorkflow.Expression
