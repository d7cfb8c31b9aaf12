import CiWorkflow.Proofs.Render.Fresh
import CiWorkflow.Proofs.Text.Split
import CiWorkflow.Render.Block

set_option autoImplicit false

namespace CiWorkflow.Render

open Text

def isApart : List Char → Bool
  | [] => true
  | c :: rest =>
    !(isQuoteChar c || isDecimalDigit c || markerStem.toList.contains c) &&
      !(c = ':' && rest.head?.any isDecimalDigit)

def spelled (number index : List Char) : List Char :=
  markerStem.toList ++ (number ++ ('_' :: '_' :: ':' :: index))

structure AreDigits (ds : List Char) : Prop where
  nonempty : ds ≠ []
  digits : ∀ d ∈ ds, isDecimalDigit d = true

theorem takeWhile_digits {ds tail : List Char} (h : ∀ d ∈ ds, isDecimalDigit d = true)
    (ht : tail.head?.any isDecimalDigit = false) :
    (ds ++ tail).takeWhile isDecimalDigit = ds ∧ (ds ++ tail).dropWhile isDecimalDigit = tail := by
  rw [List.takeWhile_append_of_pos h, List.dropWhile_append_of_pos h]
  cases tail with
  | nil => simp
  | cons c rest =>
    have hc : isDecimalDigit c = false := by simpa using ht
    simp [hc]

theorem head_dropWhile (p : Char → Bool) (cs : List Char) : (cs.dropWhile p).head?.any p = false := by
  simpa using head?_dropWhile p cs

theorem readReference_iff {cs number index rest : List Char} :
    readReference? cs = some (number, index, rest) ↔
      cs = spelled number index ++ rest ∧ AreDigits number ∧ AreDigits index ∧
        rest.head?.any isDecimalDigit = false := by
  constructor
  · intro h
    simp only [readReference?, Option.bind_eq_bind, Option.bind_eq_some_iff, stripPrefix_eq_some] at h
    obtain ⟨r, rfl, r', hr', h⟩ := h
    split at h
    · cases h
    · rename_i hne
      simp only [Bool.or_eq_true, List.isEmpty_iff, not_or] at hne
      simp only [Option.some.injEq, Prod.mk.injEq] at h
      obtain ⟨rfl, rfl, rfl⟩ := h
      refine ⟨?_, ⟨hne.1, List.all_eq_true.mp List.all_takeWhile⟩,
        ⟨hne.2, List.all_eq_true.mp List.all_takeWhile⟩, head_dropWhile _ _⟩
      have hnumber := List.takeWhile_append_dropWhile (p := isDecimalDigit) (l := r)
      have hindex := List.takeWhile_append_dropWhile (p := isDecimalDigit) (l := r')
      rw [hr'] at hnumber
      calc markerStem.toList ++ r
          = markerStem.toList ++ (r.takeWhile isDecimalDigit ++ (['_', '_', ':'] ++ r')) := by rw [hnumber]
        _ = _ := by
          conv_lhs => rw [← hindex]
          simp [spelled]
  · rintro ⟨rfl, hn, hi, hr⟩
    have hmarks : ('_' :: '_' :: ':' :: (index ++ rest)).head?.any isDecimalDigit = false := by
      have : isDecimalDigit '_' = false := by decide
      simpa using this
    obtain ⟨hnumber, hbehind⟩ := takeWhile_digits hn.digits hmarks
    obtain ⟨hindex, hrest⟩ := takeWhile_digits hi.digits hr
    have hstem : stripPrefix? markerStem.toList (spelled number index ++ rest) =
        some (number ++ ('_' :: '_' :: ':' :: (index ++ rest))) := by
      rw [stripPrefix_eq_some]
      simp [spelled]
    have hmark : stripPrefix? ['_', '_', ':'] ('_' :: '_' :: ':' :: (index ++ rest)) = some (index ++ rest) := by
      rw [stripPrefix_eq_some]
      rfl
    simp only [readReference?, hstem, hnumber, hbehind, hmark, hindex, hrest, Option.bind_eq_bind,
      Option.bind_some]
    simp [hn.nonempty, hi.nonempty]

theorem reference_eq (n i : Nat) :
    (reference n i).toList = spelled (Nat.toDigits 10 n) (Nat.toDigits 10 i) := by
  simp [reference, marker, spelled]

theorem areDigits_toDigits (n : Nat) : AreDigits (Nat.toDigits 10 n) :=
  ⟨Nat.toDigits_ne_nil, fun d hd =>
    isDecimalDigit_of_isDigit d (Nat.isDigit_of_mem_toDigits (by decide) (by decide) hd)⟩

theorem mem_spelled {number index : List Char} (hn : AreDigits number) (hi : AreDigits index) {c : Char}
    (h : c ∈ spelled number index) : isDecimalDigit c = true ∨ c ∈ markerStem.toList ∨ c = ':' := by
  simp only [spelled, List.mem_append, List.mem_cons] at h
  rcases h with h | h | rfl | rfl | rfl | h
  · exact .inr (.inl h)
  · exact .inl (hn.digits c h)
  · exact .inr (.inl (by decide))
  · exact .inr (.inl (by decide))
  · exact .inr (.inr rfl)
  · exact .inl (hi.digits c h)

theorem eq_index_of_spelled {number index A X : List Char} (hn : AreDigits number) (hi : AreDigits index)
    (h : spelled number index = A ++ ':' :: X) : X = index := by
  have hcolon : isDecimalDigit ':' = false := by decide
  have hfront : ':' ∉ markerStem.toList ++ (number ++ ['_', '_']) := by
    intro hmem
    simp only [List.mem_append] at hmem
    rcases hmem with hm | hm | hm
    · exact absurd hm (by decide)
    · rw [hn.digits _ hm] at hcolon
      cases hcolon
    · exact absurd hm (by decide)
  have hback : ':' ∉ index := by
    intro hm
    rw [hi.digits _ hm] at hcolon
    cases hcolon
  have heq : (markerStem.toList ++ (number ++ ['_', '_'])) ++ ':' :: index = A ++ ':' :: X := by
    rw [← h]
    simp [spelled]
  exact ((List.append_cons_inj_of_notMem hfront hback).mp heq).2.2.symm

theorem exists_append_of_spelled {number index rest A B : List Char} (hn : AreDigits number)
    (hi : AreDigits index) (hB : isApart B = true) (h : A ++ B = spelled number index ++ rest) :
    ∃ r, A = spelled number index ++ r ∧ rest = r ++ B := by
  rcases List.append_eq_append_iff.mp h with ⟨X, hX, hrest⟩ | ⟨r, hA, hrest⟩
  · cases X with
    | nil => exact ⟨[], by simpa using hX.symm, by simpa using hrest.symm⟩
    | cons c X =>
      exfalso
      have hmem : c ∈ spelled number index := by simp [hX]
      rw [hrest, List.cons_append, isApart] at hB
      simp only [Bool.and_eq_true, Bool.not_eq_true', Bool.or_eq_false_iff, List.contains_eq_mem,
        decide_eq_false_iff_not] at hB
      obtain ⟨⟨⟨-, hdigit⟩, hstem⟩, hcolon⟩ := hB
      rcases mem_spelled hn hi hmem with hd | hs | rfl
      · rw [hd] at hdigit
        cases hdigit
      · exact hstem hs
      · have hindex : X = index := eq_index_of_spelled hn hi hX
        have hhead : index.head?.any isDecimalDigit = true := by
          cases hindex : index with
          | nil => exact absurd hindex hi.nonempty
          | cons d tail => simpa using hi.digits d (by simp [hindex])
        rw [hindex, List.head?_append] at hcolon
        cases hd : index.head? <;> simp [hd] at hcolon hhead
        rw [hhead] at hcolon
        cases hcolon
  · exact ⟨r, hA, hrest⟩

theorem head_of_isApart {B : List Char} (h : isApart B = true) :
    B.head?.any isDecimalDigit = false ∧ B.head?.any isQuoteChar = false := by
  cases B with
  | nil => exact ⟨rfl, rfl⟩
  | cons c rest =>
    simp only [isApart, Bool.and_eq_true, Bool.not_eq_true', Bool.or_eq_false_iff] at h
    exact ⟨h.1.1.2, h.1.1.1⟩

theorem readReference_append (A B : List Char) (hB : isApart B = true) :
    readReference? (A ++ B) = (readReference? A).map fun (number, index, rest) => (number, index, rest ++ B) := by
  cases hA : readReference? A with
  | some r =>
    obtain ⟨number, index, rest⟩ := r
    obtain ⟨rfl, hn, hi, hrest⟩ := readReference_iff.mp hA
    refine readReference_iff.mpr ⟨by simp, hn, hi, ?_⟩
    cases rest with
    | nil => exact (head_of_isApart hB).1
    | cons c rest => exact hrest
  | none =>
    cases hAB : readReference? (A ++ B) with
    | none => rfl
    | some r =>
      obtain ⟨number, index, rest⟩ := r
      obtain ⟨heq, hn, hi, hrest⟩ := readReference_iff.mp hAB
      obtain ⟨r, rfl, rfl⟩ := exists_append_of_spelled hn hi hB heq
      have hr : r.head?.any isDecimalDigit = false := by
        cases r with
        | nil => rfl
        | cons c r => exact hrest
      rw [readReference_iff.mpr ⟨rfl, hn, hi, hr⟩] at hA
      cases hA

theorem takeQuote_append (A B : List Char) (hB : isApart B = true) :
    takeQuote (A ++ B) = ((takeQuote A).1, (takeQuote A).2 ++ B) := by
  cases A with
  | nil =>
    cases B with
    | nil => rfl
    | cons c rest =>
      have hc : isQuoteChar c = false := (head_of_isApart hB).2
      simp [takeQuote, hc]
  | cons c A =>
    simp only [List.cons_append, takeQuote]
    split <;> rfl

theorem takeQuote_spec (cs : List Char) : cs = (takeQuote cs).1 ++ (takeQuote cs).2 := by
  cases cs with
  | nil => rfl
  | cons c rest =>
    simp only [takeQuote]
    split <;> rfl

/-- Whether a line may be a `run` entry: behind its spaces stands an `r`, or a dash and a blank. -/
def opensEntry (cs : List Char) : Bool :=
  let rest := cs.dropWhile (· = ' ')
  rest.head? = some 'r' || ['-', ' '].isPrefixOf rest

def isQuiet : List Char → Bool
  | [] => true
  | c :: rest => (c ≠ '\n' || !opensEntry rest) && isQuiet rest

/-- A text is one line, or a line with its end in front of a shorter text. -/
theorem line_cases (cs : List Char) :
    '\n' ∉ cs ∨ ∃ line rest, cs = line ++ '\n' :: rest ∧ '\n' ∉ line := by
  induction cs with
  | nil => exact .inl (by simp)
  | cons c cs ih =>
    by_cases hc : c = '\n'
    · exact .inr ⟨[], cs, by simp [hc], by simp⟩
    · rcases ih with h | ⟨line, rest, rfl, h⟩
      · exact .inl (by simp [h, Ne.symm hc])
      · exact .inr ⟨c :: line, rest, rfl, by simp [h, Ne.symm hc]⟩

theorem opensEntry_line (line rest : List Char) : opensEntry (line ++ '\n' :: rest) = opensEntry line := by
  unfold opensEntry
  induction line with
  | nil => rfl
  | cons c line ih =>
    by_cases hc : c = ' '
    · simpa [hc] using ih
    · cases line with
      | nil => simp [hc, List.isPrefixOf]
      | cons d line => simp [hc, List.isPrefixOf]

theorem isQuiet_line (line rest : List Char) (h : '\n' ∉ line) :
    isQuiet (line ++ '\n' :: rest) = (!opensEntry rest && isQuiet rest) := by
  induction line with
  | nil => simp [isQuiet]
  | cons c line ih =>
    have hc : c ≠ '\n' := fun hc => h (by simp [hc])
    simpa [isQuiet, hc] using ih fun hm => h (by simp [hm])

namespace Blocks

variable (b : Blocks)

theorem quotedScript_append (A B : List Char) (hB : isApart B = true) :
    b.quotedScript? (A ++ B) = (b.quotedScript? A).map fun (text, rest) => (text, rest ++ B) := by
  simp only [quotedScript?, takeQuote_append A B hB, readReference_append _ B hB]
  cases readReference? (takeQuote A).2 with
  | none => rfl
  | some r => simp [takeQuote_append _ B hB]

theorem exists_of_quotedScript {cs rest : List Char} {text : Option (List Char)}
    (h : b.quotedScript? cs = some (text, rest)) :
    ∃ quote number index close, cs = quote ++ (spelled number index ++ (close ++ rest)) ∧ AreDigits number ∧
      AreDigits index ∧ text = (b.find? number index).map fun s => Json.quoted s.toList := by
  simp only [quotedScript?, Option.bind_eq_bind, Option.bind_eq_some_iff] at h
  obtain ⟨⟨number, index, r⟩, hr, h⟩ := h
  obtain ⟨heq, hn, hi, -⟩ := readReference_iff.mp hr
  simp only [Option.pure_def, Option.some.injEq, Prod.mk.injEq] at h
  obtain ⟨rfl, rfl⟩ := h
  refine ⟨(takeQuote cs).1, number, index, (takeQuote r).1, ?_, hn, hi, rfl⟩
  rw [← takeQuote_spec r, ← heq]
  exact takeQuote_spec cs

theorem exists_tail_of_quotedScript {c : Char} {cs rest : List Char} {text : Option (List Char)}
    (h : b.quotedScript? (c :: cs) = some (text, rest)) : ∃ X, cs = X ++ rest := by
  obtain ⟨quote, number, index, close, heq, -⟩ := exists_of_quotedScript b h
  cases hfront : quote ++ (spelled number index ++ close) with
  | nil => simp [spelled, markerStem] at hfront
  | cons d X =>
    have : c :: cs = (d :: X) ++ rest := by
      rw [heq, ← hfront]
      simp
    cases this
    exact ⟨X, rfl⟩

theorem restoreInLine_keep (X Y : List Char) :
    b.restoreInLine X.length true (X ++ Y) = X ++ b.restoreInLine 0 true Y := by
  induction X with
  | nil => rfl
  | cons c X ih => simp [restoreInLine, ih]

theorem restoreInLine_zero (keep : Bool) (cs : List Char) :
    b.restoreInLine 0 keep cs = b.restoreInLine 0 true cs := by
  cases cs <;> rfl

theorem restoreInLine_drop (X Y : List Char) :
    b.restoreInLine X.length false (X ++ Y) = b.restoreInLine 0 true Y := by
  induction X with
  | nil => exact restoreInLine_zero b false Y
  | cons c X ih => simp [restoreInLine, ih]

theorem restoreInLine_reference {c : Char} {X rest : List Char} {text : Option (List Char)}
    (h : b.quotedScript? (c :: (X ++ rest)) = some (text, rest)) :
    b.restoreInLine 0 true (c :: (X ++ rest)) = text.getD (c :: X) ++ b.restoreInLine 0 true rest := by
  cases text with
  | none =>
    rw [restoreInLine, h]
    simp [restoreInLine_keep]
  | some text =>
    rw [restoreInLine, h]
    simp [restoreInLine_drop]

theorem restoreInLine_append (A B : List Char) (hB : isApart B = true) :
    b.restoreInLine 0 true (A ++ B) = b.restoreInLine 0 true A ++ b.restoreInLine 0 true B := by
  induction hlen : A.length using Nat.strong_induction_on generalizing A with
  | _ n ih =>
    cases A with
    | nil => rfl
    | cons c A =>
      have happend := quotedScript_append b (c :: A) B hB
      cases hA : b.quotedScript? (c :: A) with
      | none =>
        rw [hA] at happend
        have hrest := ih A.length (by simp at hlen; omega) A rfl
        rw [List.cons_append] at happend ⊢
        rw [restoreInLine, happend, restoreInLine, hA]
        simpa using hrest
      | some r =>
        obtain ⟨text, rest⟩ := r
        obtain ⟨X, rfl⟩ := exists_tail_of_quotedScript b hA
        have hrest := ih rest.length (by simp at hlen; omega) rest rfl
        rw [hA] at happend
        rw [restoreInLine_reference b hA, List.append_assoc, ← hrest, ← restoreInLine_reference b]
        · simp
        · simpa using happend

/-- A character that no reference, nor the quote in front of one, starts with. -/
def isPlainChar (c : Char) : Bool := !(isQuoteChar c || c = '_')

theorem quotedScript_plain (c : Char) (cs : List Char) (h : isPlainChar c = true) :
    b.quotedScript? (c :: cs) = none := by
  simp only [isPlainChar, Bool.not_eq_true', Bool.or_eq_false_iff, decide_eq_false_iff_not] at h
  cases hq : b.quotedScript? (c :: cs) with
  | none => rfl
  | some r =>
    obtain ⟨text, rest⟩ := r
    simp only [quotedScript?, takeQuote, h.1, Bool.false_eq_true, ↓reduceIte, Option.bind_eq_bind,
      Option.bind_eq_some_iff] at hq
    obtain ⟨⟨number, index, r⟩, hr, -⟩ := hq
    obtain ⟨heq, -⟩ := readReference_iff.mp hr
    have hstem : markerStem.toList = '_' :: markerStem.toList.tail := rfl
    rw [spelled, hstem] at heq
    exact absurd (List.cons.inj heq).1 h.2

theorem restoreInLine_plain (A B : List Char) (h : ∀ c ∈ A, isPlainChar c = true) :
    b.restoreInLine 0 true (A ++ B) = A ++ b.restoreInLine 0 true B := by
  induction A with
  | nil => rfl
  | cons c A ih =>
    rw [List.cons_append, restoreInLine, quotedScript_plain b c _ (h c (by simp))]
    simp [ih fun d hd => h d (by simp [hd])]

/-- Whether some part of a text, with quotes around it or not, stands for a script. -/
def Refers (cs : List Char) : Prop :=
  ∃ A number index rest, cs = A ++ (spelled number index ++ rest) ∧ AreDigits number ∧ AreDigits index ∧
    (b.find? number index).isSome = true

theorem restoreInLine_self (cs : List Char) (h : ¬ b.Refers cs) : b.restoreInLine 0 true cs = cs := by
  induction hlen : cs.length using Nat.strong_induction_on generalizing cs with
  | _ n ih =>
    cases cs with
    | nil => rfl
    | cons c cs =>
      have hsuffix : ∀ X rest, cs = X ++ rest → ¬ b.Refers rest := by
        rintro X rest rfl ⟨A, number, index, tail, rfl, hr⟩
        exact h ⟨c :: (X ++ A), number, index, tail, by simp, hr⟩
      cases hq : b.quotedScript? (c :: cs) with
      | none =>
        rw [restoreInLine, hq]
        simp only [List.cons.injEq, true_and]
        exact ih cs.length (by simp at hlen; omega) cs (hsuffix [] cs rfl) rfl
      | some r =>
        obtain ⟨text, rest⟩ := r
        obtain ⟨X, rfl⟩ := exists_tail_of_quotedScript b hq
        obtain ⟨quote, number, index, close, heq, hn, hi, rfl⟩ := exists_of_quotedScript b hq
        have hnone : b.find? number index = none := by
          rw [← Option.not_isSome_iff_eq_none]
          exact fun hs => h ⟨quote, number, index, close ++ rest, heq, hn, hi, hs⟩
        rw [restoreInLine_reference b hq, hnone,
          ih rest.length (by simp at hlen; omega) rest (hsuffix X rest rfl) rfl]
        simp

theorem marker_of_refers {cs : List Char} (h : b.Refers cs) : (marker b.number).toList <:+: cs := by
  obtain ⟨A, number, index, rest, rfl, -, -, hfind⟩ := h
  unfold find? at hfind
  split at hfind
  · rename_i hnumber
    simp only [Bool.and_eq_true, decide_eq_true_eq] at hnumber
    refine ⟨A, ':' :: (index ++ rest), ?_⟩
    simp [spelled, marker, hnumber.1]
  · cases hfind

theorem blockLine_none (indent : Nat) (line : List Char) (h : opensEntry line = false) :
    b.blockLine? indent line = none := by
  simp only [opensEntry, Bool.or_eq_false_iff] at h
  have hdashes : takeDashes (line.dropWhile (· = ' ')) = (0, line.dropWhile (· = ' ')) := by
    rw [takeDashes.eq_def]
    split
    · rename_i heq
      rw [heq] at h
      exact absurd h.2 (by simp)
    · rfl
  have hrun : stripPrefix? "run: ".toList (line.dropWhile (· = ' ')) = none := by
    cases hs : stripPrefix? "run: ".toList (line.dropWhile (· = ' ')) with
    | none => rfl
    | some rest =>
      rw [stripPrefix_eq_some] at hs
      rw [hs] at h
      exact absurd h.1 (by simp)
  rw [blockLine?, hdashes]
  simp only [hrun, Option.bind_eq_bind, Option.bind_none]

def restoreText (indent : Nat) (cs : List Char) : List Char := b.restoreLines indent (splitAt '\n' cs)

theorem restoreText_line (indent : Nat) (line rest : List Char) (h : '\n' ∉ line) :
    b.restoreText indent (line ++ '\n' :: rest) =
      b.restoreLine indent line ['\n'] ++ b.restoreText indent rest := by
  unfold restoreText
  rw [splitAt_append, splitAt_of_not_mem h, List.singleton_append]
  cases hs : splitAt '\n' rest with
  | nil => exact absurd hs (splitWhere_ne_nil _ _)
  | cons first others => rfl

/-- Without `run` entries at the start of a line all scripts are put back in quotes. -/
theorem restoreText_quiet (indent : Nat) (cs : List Char) (hfirst : opensEntry cs = false)
    (h : isQuiet cs = true) : b.restoreText indent cs = b.restoreInLine 0 true cs := by
  induction hlen : cs.length using Nat.strong_induction_on generalizing cs with
  | _ n ih =>
    rcases line_cases cs with hline | ⟨line, rest, rfl, hline⟩
    · have hnone := b.blockLine_none indent cs hfirst
      simp [restoreText, splitAt_of_not_mem hline, restoreLines, restoreLine, hnone]
    · rw [opensEntry_line] at hfirst
      simp only [isQuiet_line line rest hline, Bool.and_eq_true, Bool.not_eq_true'] at h
      have hnone := b.blockLine_none indent line hfirst
      have hrest := ih rest.length (by simp at hlen; omega) rest h.1 h.2 rfl
      have hbreak : b.restoreInLine 0 true (['\n'] ++ rest) = ['\n'] ++ b.restoreInLine 0 true rest :=
        b.restoreInLine_plain ['\n'] rest (by simp [isPlainChar, isQuoteChar])
      rw [restoreText_line b indent line rest hline, restoreLine, hnone, hrest,
        restoreInLine_append b line ('\n' :: rest) rfl]
      simpa using hbreak.symm

theorem find_reference (i : Nat) :
    b.find? (Nat.toDigits 10 b.number) (Nat.toDigits 10 i) = b.scripts[i]? := by
  have hall : (Nat.toDigits 10 i).all Char.isDigit = true :=
    List.all_eq_true.mpr fun d hd => Nat.isDigit_of_mem_toDigits (by decide) (by decide) hd
  simp [find?, hall]

end Blocks

end CiWorkflow.Render
