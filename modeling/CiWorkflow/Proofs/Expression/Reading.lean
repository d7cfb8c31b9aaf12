import CiWorkflow.Proofs.Expression.Tree
import Mathlib.Data.List.Forall2

set_option autoImplicit false

namespace CiWorkflow.Expression

open Text

/-- What may follow an expression: the end, a parenthesis that closes it, or another argument. -/
def endsExpression : List Char → Bool
  | [] => true
  | ')' :: _ => true
  | rest => isSeparator rest

def endsOperand (rest : List Char) : Bool := endsExpression rest || (readOperator rest).isSome

def opensOperand (c : Char) : Bool := c = '(' || c = '\'' || isWordChar c

theorem readOperator_cons_of_ne {c : Char} (h : c ≠ ' ') (rest : List Char) :
    readOperator (c :: rest) = none := by
  unfold readOperator
  split
  all_goals first | rfl | (rename_i heq; cases heq; exact absurd rfl h)

theorem readOperator_sign (op : Operator) (rest : List Char) :
    readOperator (' ' :: (op.sign.toList ++ ' ' :: rest)) = some (op, rest) := by
  cases op <;> rfl

theorem head_of_isSeparator {rest : List Char} (h : isSeparator rest = true) : ∃ tail, rest = ',' :: ' ' :: tail := by
  unfold isSeparator at h
  split at h
  · rename_i tail
    simp only [Bool.and_eq_true, decide_eq_true_eq] at h
    obtain ⟨others, rfl⟩ := List.head?_eq_some_iff.mp h.1
    exact ⟨others, rfl⟩
  · cases h

theorem readOperator_of_endsExpression {rest : List Char} (h : endsExpression rest = true) :
    readOperator rest = none := by
  unfold endsExpression at h
  split at h
  · rfl
  · exact readOperator_cons_of_ne (by decide) _
  · obtain ⟨tail, rfl⟩ := head_of_isSeparator h
    exact readOperator_cons_of_ne (by decide) _

/-- What follows an operand starts with a character that no atom holds outside its literals. -/
theorem head_of_endsOperand {rest : List Char} (h : endsOperand rest = true) :
    rest = [] ∨ (∃ tail, rest = ')' :: tail) ∨ isSeparator rest = true ∨
      ∃ tail, rest = ' ' :: tail ∧ (readOperator rest).isSome = true := by
  rw [endsOperand, Bool.or_eq_true] at h
  rcases h with h | h
  · unfold endsExpression at h
    split at h
    · exact .inl rfl
    · exact .inr (.inl ⟨_, rfl⟩)
    · exact .inr (.inr (.inl h))
  · cases rest with
    | nil => exact .inl rfl
    | cons c tail =>
      by_cases hc : c = ' '
      · subst hc
        exact .inr (.inr (.inr ⟨tail, rfl, h⟩))
      · rw [readOperator_cons_of_ne hc] at h
        cases h

structure StopsWord (rest : List Char) : Prop where
  comma : isSeparator (',' :: rest) = false
  head : ∀ c tail, rest = c :: tail → isWordChar c = false ∨ isSeparator rest = true

theorem stopsWord_of_endsOperand {rest : List Char} (h : endsOperand rest = true) : StopsWord rest := by
  obtain rfl | ⟨tail, rfl⟩ | hs | ⟨tail, rfl, hop⟩ := head_of_endsOperand h
  · exact ⟨rfl, by simp⟩
  · exact ⟨rfl, fun c t ht => by cases ht; exact .inl (by decide)⟩
  · obtain ⟨tail, rfl⟩ := head_of_isSeparator hs
    exact ⟨rfl, fun _ _ _ => .inr hs⟩
  · refine ⟨?_, fun c t ht => by cases ht; exact .inl (by decide)⟩
    rw [isSeparator, Option.isNone_eq_false_iff.mpr hop, Bool.and_false]

theorem stopsWord_parenthesis (rest : List Char) : StopsWord ('(' :: rest) :=
  ⟨rfl, fun c t ht => by cases ht; exact .inl (by decide)⟩

theorem spanWord_append {word rest : List Char} (hw : ∀ c ∈ word, isWordChar c = true) (hr : StopsWord rest) :
    spanWord (word ++ rest) = (word, rest) := by
  induction word with
  | nil =>
    cases rest with
    | nil => rfl
    | cons c tail =>
      rw [List.nil_append, spanWord, if_neg]
      rcases hr.head c tail rfl with hc | hs
      · simp [hc]
      · simp [hs]
  | cons c others ih =>
    have hsep : isSeparator (c :: (others ++ rest)) = false := by
      by_cases hc : c = ','
      · subst hc
        cases others with
        | nil => exact hr.comma
        | cons d others =>
          -- the comma stands inside the word, and no word holds a blank
          have hd : d ≠ ' ' := fun hd => absurd (hd ▸ hw d (by simp)) (by decide)
          simp [isSeparator, hd]
      · unfold isSeparator
        split
        · rename_i heq
          cases heq
          exact absurd rfl hc
        · rfl
    rw [List.cons_append, spanWord, hsep, hw c (by simp), ih fun d hd => hw d (by simp [hd])]
    rfl

structure IsOperand (cs : List Char) (t : Tree) : Prop where
  opens : ∃ c rest, cs = c :: rest ∧ opensOperand c = true
  reads : ∀ depth rest, cs.length ≤ depth → endsOperand rest = true →
    readOperand depth (cs ++ rest) = some (t, rest)

/-- A text that is read as an expression wherever it stands. It starts like an operand, or with `!` and then
like an operand. -/
structure IsExpression (cs : List Char) (t : Tree) : Prop where
  opens : ∃ c rest, cs = c :: rest ∧
    (opensOperand c = true ∨ c = '!' ∧ ∃ d tail, rest = d :: tail ∧ opensOperand d = true)
  reads : ∀ depth rest, cs.length ≤ depth → endsExpression rest = true →
    readExpression (readOperand depth) (cs ++ rest) = some (t, rest)

theorem endsOperand_of_endsExpression {rest : List Char} (h : endsExpression rest = true) :
    endsOperand rest = true := by
  rw [endsOperand, h, Bool.true_or]

theorem endsOperand_sign (op : Operator) (rest : List Char) :
    endsOperand (' ' :: (op.sign.toList ++ ' ' :: rest)) = true := by
  rw [endsOperand, readOperator_sign, Option.isSome_some, Bool.or_true]

theorem readExpression_of_ne {operand : Reader Tree} {c : Char} (h : c ≠ '!') (rest : List Char) :
    readExpression operand (c :: rest) = (operand (c :: rest)).bind fun (left, r) =>
      match readOperator r with
      | some (op, r) => (operand r).map fun (right, r) => (.binary op left right, r)
      | none => some (left, r) := by
  unfold readExpression
  split
  · rename_i heq
    cases heq
    exact absurd rfl h
  · rfl

theorem ne_bang_of_opensOperand {c : Char} (h : opensOperand c = true) : c ≠ '!' := by
  rintro rfl
  exact absurd h (by decide)

variable {cs ds : List Char} {t u : Tree}

theorem IsOperand.expression (h : IsOperand cs t) : IsExpression cs t := by
  obtain ⟨c, tail, rfl, hc⟩ := h.opens
  refine ⟨⟨c, tail, rfl, .inl hc⟩, fun depth rest hd hr => ?_⟩
  have hread := h.reads depth rest hd (endsOperand_of_endsExpression hr)
  rw [List.cons_append] at hread ⊢
  rw [readExpression_of_ne (ne_bang_of_opensOperand hc), hread]
  simp [readOperator_of_endsExpression hr]

theorem IsOperand.negate (h : IsOperand cs t) : IsExpression ('!' :: cs) (.negate t) := by
  obtain ⟨c, tail, hcs, hc⟩ := h.opens
  refine ⟨⟨'!', cs, rfl, .inr ⟨rfl, c, tail, hcs, hc⟩⟩, fun depth rest hd hr => ?_⟩
  have hread := h.reads depth rest (Nat.le_of_succ_le hd) (endsOperand_of_endsExpression hr)
  simp [readExpression, hread]

theorem IsOperand.binary (op : Operator) (h : IsOperand cs t) (h' : IsOperand ds u) :
    IsExpression (cs ++ ' ' :: (op.sign.toList ++ ' ' :: ds)) (.binary op t u) := by
  obtain ⟨c, tail, rfl, hc⟩ := h.opens
  refine ⟨⟨c, _, List.cons_append, .inl hc⟩, fun depth rest hd hr => ?_⟩
  simp only [List.length_append, List.length_cons] at hd
  have hleft := h.reads depth (' ' :: (op.sign.toList ++ ' ' :: (ds ++ rest))) (by simp; omega)
    (endsOperand_sign op _)
  have hright := h'.reads depth rest (by omega) (endsOperand_of_endsExpression hr)
  have happend : (c :: tail) ++ ' ' :: (op.sign.toList ++ ' ' :: ds) ++ rest =
      c :: (tail ++ ' ' :: (op.sign.toList ++ ' ' :: (ds ++ rest))) := by simp
  rw [List.cons_append] at hleft
  rw [happend, readExpression_of_ne (ne_bang_of_opensOperand hc), hleft]
  simp [readOperator_sign, hright]

theorem IsExpression.parens (h : IsExpression cs t) : IsOperand ('(' :: (cs ++ [')'])) t := by
  refine ⟨⟨'(', _, rfl, rfl⟩, fun depth rest hd hr => ?_⟩
  simp only [List.length_cons, List.length_append] at hd
  obtain ⟨depth, rfl⟩ : ∃ k, depth = k + 1 := ⟨depth - 1, by omega⟩
  have hread := h.reads depth (')' :: rest) (by omega) rfl
  have happend : '(' :: (cs ++ [')']) ++ rest = '(' :: (cs ++ ')' :: rest) := by simp
  rw [happend, readOperand, hread]
  rfl

theorem isOperatorChar_of_opensOperand {c : Char} (h : opensOperand c = true) : isOperatorChar c = false := by
  simp only [opensOperand, Bool.or_eq_true, decide_eq_true_eq] at h
  obtain (rfl | rfl) | h := h
  · rfl
  · rfl
  · simp only [isWordChar, Bool.and_eq_true, Bool.not_eq_true'] at h
    exact h.2

theorem readOperator_blank_of_not {c : Char} (h : isOperatorChar c = false) (rest : List Char) :
    readOperator (' ' :: c :: rest) = none := by
  unfold readOperator
  split
  case h_6 => rfl
  all_goals
    rename_i heq
    simp only [List.cons.injEq, true_and] at heq
    obtain ⟨rfl, -⟩ := heq
    exact absurd h (by decide)

theorem readOperator_blank_bang {d : Char} (h : d ≠ '=') (rest : List Char) :
    readOperator (' ' :: '!' :: d :: rest) = none := by
  unfold readOperator
  split
  case h_6 => rfl
  case h_5 heq =>
    simp only [List.cons.injEq, true_and] at heq
    exact absurd heq.1 h
  all_goals
    rename_i heq
    cases heq

theorem IsExpression.isSeparator (h : IsExpression cs t) (rest : List Char) :
    isSeparator (',' :: ' ' :: (cs ++ rest)) = true := by
  have hnone : readOperator (' ' :: (cs ++ rest)) = none := by
    obtain ⟨c, tail, rfl, hc | ⟨rfl, d, others, rfl, hd⟩⟩ := h.opens
    · exact readOperator_blank_of_not (isOperatorChar_of_opensOperand hc) _
    · refine readOperator_blank_bang (fun hd' => ?_) _
      exact absurd (isOperatorChar_of_opensOperand (hd' ▸ hd)) (by decide)
  rw [Expression.isSeparator, hnone]
  rfl

theorem endsExpression_of_isSeparator {rest : List Char} (h : Expression.isSeparator rest = true) :
    endsExpression rest = true := by
  obtain ⟨tail, rfl⟩ := head_of_isSeparator h
  exact h

theorem readArguments_intercalate {css : List (List Char)} {ts : List Tree}
    (h : List.Forall₂ IsExpression css ts) (hne : css ≠ []) (depth n : Nat) (rest : List Char)
    (hn : css.length ≤ n) (hd : ([',', ' '].intercalate css).length ≤ depth) :
    readArguments (readExpression (readOperand depth)) n ([',', ' '].intercalate css ++ ')' :: rest) =
      some (ts, rest) := by
  induction h generalizing n with
  | nil => exact absurd rfl hne
  | @cons cs t css ts hcs hcss ih =>
    obtain ⟨n, rfl⟩ : ∃ k, n = k + 1 := ⟨n - 1, by simp only [List.length_cons] at hn; omega⟩
    cases hcss with
    | nil =>
      have hread := hcs.reads depth (')' :: rest) (by simpa using hd) rfl
      rw [List.intercalate_singleton, readArguments, hread]
      rfl
    | @cons ds u css ts hds hcss =>
      have hothers := ih (by simp) n (by simpa using hn)
      rw [List.intercalate_cons_cons] at hd ⊢
      simp only [List.length_append, List.length_cons, List.length_nil] at hd
      have hsep : Expression.isSeparator (',' :: ' ' :: ([',', ' '].intercalate (ds :: css) ++ ')' :: rest)) =
          true := by
        obtain ⟨tail, htail⟩ : ds <+: [',', ' '].intercalate (ds :: css) := by
          cases css <;> simp [List.intercalate_cons_cons]
        rw [← htail, List.append_assoc]
        exact hds.isSeparator _
      have hread := hcs.reads depth _ (by omega) (endsExpression_of_isSeparator hsep)
      have happend : cs ++ [',', ' '] ++ [',', ' '].intercalate (ds :: css) ++ ')' :: rest =
          cs ++ ',' :: ' ' :: ([',', ' '].intercalate (ds :: css) ++ ')' :: rest) := by simp
      rw [happend, readArguments, hread]
      simp [hothers (by omega)]

theorem length_le_intercalate (a b : Char) (css : List (List Char)) :
    css.length ≤ ([a, b].intercalate css).length + 1 := by
  induction css with
  | nil => simp
  | cons cs css ih =>
    cases css with
    | nil => simp
    | cons ds css =>
      rw [List.intercalate_cons_cons]
      simp only [List.length_append, List.length_cons, List.length_nil] at ih ⊢
      omega

theorem readArgumentList_intercalate {css : List (List Char)} {ts : List Tree}
    (h : List.Forall₂ IsExpression css ts) (depth : Nat) (rest : List Char)
    (hd : ([',', ' '].intercalate css).length ≤ depth) :
    readArgumentList (readExpression (readOperand depth)) ([',', ' '].intercalate css ++ ')' :: rest) =
      some (ts, rest) := by
  cases h with
  | nil => rfl
  | @cons cs t css ts hcs hcss =>
    have hn : (cs :: css).length ≤ ([',', ' '].intercalate (cs :: css) ++ ')' :: rest).length := by
      have := length_le_intercalate ',' ' ' (cs :: css)
      simp only [List.length_append, List.length_cons] at this ⊢
      omega
    have hread := readArguments_intercalate (.cons hcs hcss) (by simp) depth _ rest hn hd
    -- the text does not start with the parenthesis that closes an empty list
    obtain ⟨c, tail, hcons, hc⟩ : ∃ c tail, [',', ' '].intercalate (cs :: css) = c :: tail ∧ c ≠ ')' := by
      obtain ⟨c, others, rfl, hc⟩ := hcs.opens
      have hne : c ≠ ')' := by
        rintro rfl
        exact absurd hc (by simp [opensOperand, isWordChar])
      cases css with
      | nil => exact ⟨c, others, List.intercalate_singleton, hne⟩
      | cons ds css => exact ⟨c, _, by rw [List.intercalate_cons_cons]; rfl, hne⟩
    rw [hcons, List.cons_append] at hread ⊢
    rw [readArgumentList, hread]
    rintro others hcons
    cases hcons
    exact absurd rfl hc

theorem readOperand_word {word rest : List Char} (hne : word ≠ []) (hw : ∀ c ∈ word, isWordChar c = true)
    (hr : StopsWord rest) (depth : Nat) : readOperand (depth + 1) (word ++ rest) =
      readBehind (readExpression (readOperand depth)) (String.ofList word) rest := by
  obtain ⟨c, tail, rfl⟩ := List.exists_cons_of_ne_nil hne
  have hc := hw c (List.mem_cons_self ..)
  have hspan := spanWord_append hw hr
  rw [List.cons_append] at hspan ⊢
  rw [readOperand, hspan]
  · intro others hcons
    cases hcons
    exact absurd hc (by decide)
  · intro others hcons
    cases hcons
    exact absurd hc (by decide)

theorem head_ne_of_endsOperand {rest : List Char} (h : endsOperand rest = true) {c : Char}
    (hc : opensOperand c = true) (hcomma : c ≠ ',') : rest.head? ≠ some c := by
  obtain rfl | ⟨tail, rfl⟩ | hs | ⟨tail, rfl, -⟩ := head_of_endsOperand h
  · simp
  · rintro ⟨⟩
    exact absurd hc (by decide)
  · obtain ⟨tail, rfl⟩ := head_of_isSeparator hs
    simpa using hcomma.symm
  · rintro ⟨⟩
    exact absurd hc (by decide)

theorem IsOperand.of_word {word : List Char} (hne : word ≠ []) (hw : ∀ c ∈ word, isWordChar c = true)
    (h : ofWord? (String.ofList word) = some t) : IsOperand word t := by
  obtain ⟨c, tail, hword⟩ := List.exists_cons_of_ne_nil hne
  have hc := hw c (hword ▸ List.mem_cons_self ..)
  refine ⟨⟨c, tail, hword, by simp [opensOperand, hc]⟩, fun depth rest hd hr => ?_⟩
  have hlength := List.length_pos_of_ne_nil hne
  obtain ⟨depth, rfl⟩ : ∃ k, depth = k + 1 := ⟨depth - 1, by omega⟩
  have hhead := head_ne_of_endsOperand hr (c := '(') rfl (by decide)
  rw [readOperand_word hne hw (stopsWord_of_endsOperand hr)]
  unfold readBehind
  split
  · exact absurd rfl hhead
  · rw [h]
    rfl

theorem readLiteral_doubled (text : List Char) {rest : List Char} (h : rest.head? ≠ some '\'') :
    readLiteral ((text.flatMap fun c => if c = '\'' then ['\'', '\''] else [c]) ++ '\'' :: rest) =
      some (text, rest) := by
  induction text with
  | nil =>
    cases rest with
    | nil => rfl
    | cons c rest =>
      have hc : c ≠ '\'' := by simpa using h
      simp [readLiteral, hc]
  | cons c text ih =>
    by_cases hc : c = '\''
    · subst hc
      simp [readLiteral, ih]
    · simp [hc, readLiteral, ih]

theorem IsOperand.of_literal (text : String) : IsOperand (quote text).toList (.literal text) := by
  rw [toList_quote]
  refine ⟨⟨'\'', _, rfl, rfl⟩, fun depth rest hd hr => ?_⟩
  simp only [List.length_cons] at hd
  obtain ⟨depth, rfl⟩ : ∃ k, depth = k + 1 := ⟨depth - 1, by omega⟩
  have hread := readLiteral_doubled text.toList (head_ne_of_endsOperand hr (c := '\'') rfl (by decide))
  rw [List.cons_append, readOperand, List.append_assoc, List.singleton_append, hread]
  simp

theorem IsOperand.of_call {name : List Char} {css : List (List Char)} {ts : List Tree} (hne : name ≠ [])
    (hw : ∀ c ∈ name, isWordChar c = true) (h : List.Forall₂ IsExpression css ts)
    (hcall : ofCall? (String.ofList name) ts = some t) :
    IsOperand (name ++ '(' :: ([',', ' '].intercalate css ++ [')'])) t := by
  obtain ⟨c, tail, hname⟩ := List.exists_cons_of_ne_nil hne
  have hc := hw c (hname ▸ List.mem_cons_self ..)
  refine ⟨⟨c, tail ++ _, by rw [hname, List.cons_append], by simp [opensOperand, hc]⟩, fun depth rest hd hr => ?_⟩
  have hlength := List.length_pos_of_ne_nil hne
  simp only [List.length_append, List.length_cons, List.length_nil] at hd
  obtain ⟨depth, rfl⟩ : ∃ k, depth = k + 1 := ⟨depth - 1, by omega⟩
  have hargs := readArgumentList_intercalate h depth rest (by omega)
  have happend : name ++ '(' :: ([',', ' '].intercalate css ++ [')']) ++ rest =
      name ++ '(' :: ([',', ' '].intercalate css ++ ')' :: rest) := by simp
  rw [happend, readOperand_word hne hw (stopsWord_parenthesis _), readBehind, hargs]
  simp [hcall]

end CiWorkflow.Expression
