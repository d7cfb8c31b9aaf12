import CiWorkflow.Proofs.Expression.Call
import CiWorkflow.Proofs.Expression.Tree

set_option autoImplicit false

namespace CiWorkflow.Expression

open Text

/-- A text that leaves the scanners for groups and for operators as they were. -/
structure Closed (cs : List Char) : Prop where
  depth : ∀ d rest, closesAtEnd (d + 1) false (cs ++ rest) = closesAtEnd (d + 1) false rest
  operator : ∀ rest, hasOperator false rest = true → hasOperator false (cs ++ rest) = true

namespace Closed

theorem nil : Closed [] := ⟨fun _ _ => rfl, fun _ h => h⟩

theorem append {cs ds : List Char} (h : Closed cs) (h' : Closed ds) : Closed (cs ++ ds) := by
  refine ⟨fun d rest => ?_, fun rest hr => ?_⟩
  · rw [List.append_assoc, h.depth, h'.depth]
  · rw [List.append_assoc]
    exact h.operator _ (h'.operator _ hr)

theorem cons {c : Char} {cs : List Char} (hq : c ≠ '\'') (ho : c ≠ '(') (hc : c ≠ ')') (h : Closed cs) :
    Closed (c :: cs) := by
  refine ⟨fun d rest => ?_, fun rest hr => ?_⟩
  · rw [List.cons_append, closesAtEnd, if_neg hq, if_neg (by simp [ho]), if_neg (by simp [hc]), h.depth]
  · rw [List.cons_append, hasOperator, if_neg hq, h.operator rest hr, Bool.or_true]

theorem of_word {word : List Char} (h : ∀ c ∈ word, isWordChar c = true) : Closed word := by
  induction word with
  | nil => exact nil
  | cons c word ih =>
    have hc := h c (List.mem_cons_self ..)
    simp only [isWordChar, Bool.and_eq_true, decide_eq_true_eq] at hc
    obtain ⟨⟨⟨⟨-, hq⟩, ho⟩, hcl⟩, -⟩ := hc
    exact cons hq ho hcl (ih fun d hd => h d (List.mem_cons_of_mem _ hd))

theorem parens {cs : List Char} (h : Closed cs) : Closed ('(' :: (cs ++ [')'])) := by
  refine ⟨fun d rest => ?_, fun rest hr => ?_⟩
  · have hopen : closesAtEnd (d + 1) false ('(' :: (cs ++ ')' :: rest)) =
        closesAtEnd (d + 2) false (cs ++ ')' :: rest) := rfl
    have hclose : closesAtEnd (d + 2) false (')' :: rest) = closesAtEnd (d + 1) false rest := by
      simp [closesAtEnd]
    rw [List.cons_append, List.append_assoc, List.singleton_append, hopen, h.depth, hclose]
  · have hclose : hasOperator false (')' :: rest) = true := hr
    rw [List.cons_append, List.append_assoc, List.singleton_append]
    exact h.operator _ hclose

theorem of_literal (text : String) : Closed (quote text).toList := by
  have hdepth : ∀ (cs : List Char) d rest,
      closesAtEnd d true ((cs.flatMap fun c => if c = '\'' then ['\'', '\''] else [c]) ++ rest) =
        closesAtEnd d true rest := by
    intro cs d rest
    induction cs with
    | nil => rfl
    | cons c cs ih =>
      by_cases hc : c = '\''
      · subst hc
        simpa [closesAtEnd] using ih
      · simpa [closesAtEnd, hc] using ih
  have hoperator : ∀ (cs : List Char) rest,
      hasOperator true ((cs.flatMap fun c => if c = '\'' then ['\'', '\''] else [c]) ++ rest) =
        hasOperator true rest := by
    intro cs rest
    induction cs with
    | nil => rfl
    | cons c cs ih =>
      by_cases hc : c = '\''
      · subst hc
        simpa [hasOperator] using ih
      · simpa [hasOperator, hc] using ih
  rw [toList_quote]
  refine ⟨fun d rest => ?_, fun rest hr => ?_⟩
  · rw [List.cons_append, closesAtEnd, if_pos rfl, List.append_assoc, Bool.not_false, hdepth]
    rfl
  · rw [List.cons_append, hasOperator, if_pos rfl, List.append_assoc, Bool.not_false, hoperator]
    exact hr

theorem intercalate {css : List (List Char)} (h : ∀ cs ∈ css, Closed cs) :
    Closed ([',', ' '].intercalate css) := by
  induction css with
  | nil => exact nil
  | cons cs css ih =>
    have hcs := h cs (List.mem_cons_self ..)
    have hcss := ih fun ds hds => h ds (List.mem_cons_of_mem _ hds)
    cases css with
    | nil => simpa using hcs
    | cons ds css =>
      have hcomma : Closed [',', ' '] :=
        cons (by decide) (by decide) (by decide) (cons (by decide) (by decide) (by decide) nil)
      rw [List.intercalate_cons_cons]
      exact (hcs.append hcomma).append hcss

theorem sign (op : Operator) : Closed op.sign.toList := by
  cases op
  all_goals exact cons (by decide) (by decide) (by decide) (cons (by decide) (by decide) (by decide) nil)

end Closed

theorem isSingleGroup_of_head {text : String} (h : text.toList.head? ≠ some '(') : isSingleGroup text = false := by
  simp [isSingleGroup, h]

theorem isSingleGroup_parens {text : String} {cs : List Char} (ht : text.toList = '(' :: (cs ++ [')']))
    (h : Closed cs) : isSingleGroup text = true := by
  have hhead : text.toList.head? = some '(' := by rw [ht, List.head?_cons]
  have hlast : text.toList.getLast? = some ')' := by rw [ht, ← List.cons_append, List.getLast?_concat]
  have hends : closesAtEnd 0 false text.toList = true := by
    have hopen : closesAtEnd 0 false ('(' :: (cs ++ [')'])) = closesAtEnd 1 false (cs ++ [')']) := rfl
    rw [ht, hopen, h.depth]
    rfl
  simp [isSingleGroup, hhead, hlast, hends]

/-- A group with more behind it is no single group, even if another one ends the text. -/
theorem isSingleGroup_parens_append {text : String} {cs rest : List Char}
    (ht : text.toList = '(' :: (cs ++ [')']) ++ rest) (h : Closed cs) (hne : rest ≠ []) :
    isSingleGroup text = false := by
  have hends : closesAtEnd 0 false text.toList = false := by
    have hopen : closesAtEnd 0 false ('(' :: (cs ++ ')' :: rest)) = closesAtEnd 1 false (cs ++ ')' :: rest) := rfl
    rw [ht, List.cons_append, List.append_assoc, List.singleton_append, hopen, h.depth]
    simp [closesAtEnd, hne]
  simp [isSingleGroup, hends]

end CiWorkflow.Expression
