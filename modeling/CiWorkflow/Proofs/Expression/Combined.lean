import CiWorkflow.Proofs.Expression.Arguments

/-!
# Pieces made of pieces

Operators, parentheses and calls put blanks, commas, quotes and parentheses between the texts they join, and none of
these is part of an opening mark. So no mark comes together where two texts meet, and what is made of wrappable pieces
is wrappable, however deep it nests.
-/
set_option autoImplicit false

namespace CiWorkflow.Expression

open Text

section Joined

variable {x y sign : String}

theorem not_blank_at_end (h : isWrappable x = true) : x.toList.getLast?.any isBlank = false :=
  ((trim_eq_self_iff _).mp ((isWrappable_iff _).mp h).2.1).2

theorem not_marked (h : isWrappable x = true) : ¬ openMark.toList <:+: x.toList := ((isWrappable_iff _).mp h).2.2

theorem isWrappable_around (hx : isWrappable x = true) (hy : isWrappable y = true)
    (hsign : ¬ openMark.toList <:+: sign.toList) : isWrappable (x ++ " " ++ sign ++ " " ++ y) = true := by
  obtain ⟨c, rest, hc, hblank⟩ := head_of_isWrappable hx
  have hjoined : (x ++ " " ++ sign ++ " " ++ y).toList = x.toList ++ ' ' :: (sign.toList ++ ' ' :: y.toList) := by
    simp
  have hlast : (x ++ " " ++ sign ++ " " ++ y).toList.getLast?.any isBlank = false := by
    obtain ⟨d, others, hd, -⟩ := head_of_isWrappable hy
    have hend := not_blank_at_end hy
    simp_all [List.getLast?_append, List.getLast?_cons]
  have hhead : (x ++ " " ++ sign ++ " " ++ y).toList = c :: (rest ++ ' ' :: (sign.toList ++ ' ' :: y.toList)) := by
    rw [hjoined, hc, List.cons_append]
  rw [isWrappable_iff_of_head hhead hblank, hjoined, infix_append_cons_iff (by decide),
    infix_append_cons_iff (by decide)]
  exact ⟨hjoined ▸ hlast, by simp [not_marked hx, hsign, not_marked hy]⟩

theorem isWrappable_inParens (hx : isWrappable x = true) : isWrappable (Fragment.inParens x) = true := by
  have hparens : (Fragment.inParens x).toList = '(' :: (x.toList ++ [')']) := by simp [Fragment.inParens]
  have hnil : ¬ openMark.toList <:+: [] := by decide
  rw [isWrappable_iff_of_head hparens (by decide), hparens, ← List.nil_append ('(' :: _),
    infix_append_cons_iff (by decide), infix_append_cons_iff (by decide)]
  refine ⟨?_, by simp [hnil, not_marked hx]⟩
  rw [List.nil_append, ← List.cons_append, List.getLast?_concat]
  decide

theorem isWrappable_bang (hx : isWrappable x = true) : isWrappable ("!" ++ x) = true := by
  obtain ⟨c, rest, hc, -⟩ := head_of_isWrappable hx
  have hbang : ("!" ++ x).toList = '!' :: x.toList := by simp
  have hnil : ¬ openMark.toList <:+: [] := by decide
  rw [isWrappable_iff_of_head hbang (by decide), hbang, ← List.nil_append ('!' :: _), infix_append_cons_iff (by decide)]
  refine ⟨?_, by simp [hnil, not_marked hx]⟩
  have hend := not_blank_at_end hx
  rw [hc] at hend ⊢
  rwa [List.nil_append, List.getLast?_cons_cons]

end Joined

namespace Fragment

variable {a b : Fragment}

theorem isWrappable_operand (h : isWrappable a.inner = true) : isWrappable a.operand = true := by
  rw [operand]
  split
  · exact isWrappable_inParens h
  · exact h

theorem isWrappable_apply (op : Operator) (ha : isWrappable a.inner = true) (hb : isWrappable b.inner = true) :
    isWrappable (op.apply a b).inner = true := by
  have hsign : ¬ openMark.toList <:+: op.sign.toList := by cases op <;> decide
  rw [op.apply_eq]
  exact isWrappable_around (isWrappable_operand ha) (isWrappable_operand hb) hsign

theorem isWrappable_negate (h : isWrappable a.inner = true) : isWrappable a.negate.inner = true :=
  isWrappable_bang (isWrappable_operand h)

theorem isWrappable_group (h : isWrappable a.inner = true) : isWrappable a.group.inner = true := by
  rw [group]
  split
  · exact h
  · exact isWrappable_inParens h

end Fragment

/-- A value that stands for a wrappable text among the arguments of a call. -/
def Argument.GivesWrappable (name : String) (a : Argument) : Prop :=
  ∃ text, Call.argument name a = .ok text ∧ isWrappable text = true

namespace Argument

theorem GivesWrappable.isClean {name : String} {a : Argument} (h : a.GivesWrappable name) : a.isClean = true := by
  obtain ⟨text, htext, hwrap⟩ := h
  rw [← Bool.not_eq_false, ← marked_argument_iff htext]
  exact not_marked hwrap

theorem givesWrappable_fragment (name : String) {f : Fragment} (h : isWrappable f.inner = true) :
    (Argument.fragment f).GivesWrappable name := ⟨f.inner, rfl, h⟩

end Argument

section Calls

variable {f : Function} {args : List Argument} {c : Fragment}

theorem isWrappable_call (h : f.call args = .ok c) (hargs : ∀ a ∈ args, a.GivesWrappable f.name)
    (hliterals : ∀ s ∈ f.literals, contains s openMark = false) : isWrappable c.inner = true :=
  (isWrappable_call_iff h).mpr ⟨hliterals, fun a ha => (hargs a ha).isClean⟩

theorem exists_texts {name : String} (hargs : ∀ a ∈ args, a.GivesWrappable name) :
    ∃ texts, args.mapM (Call.argument name) = .ok texts := by
  induction args with
  | nil => exact ⟨[], rfl⟩
  | cons a args ih =>
    obtain ⟨⟨text, htext, -⟩, hrest⟩ := List.forall_mem_cons.mp hargs
    obtain ⟨texts, htexts⟩ := ih hrest
    exact ⟨text :: texts, by rw [List.mapM_cons, htext, htexts]; rfl⟩

/-- With enough values that stand for wrappable texts there is a call, and it is wrappable. -/
theorem exists_call (hn : f.takes args.length = true) (hargs : ∀ a ∈ args, a.GivesWrappable f.name)
    (hliterals : ∀ s ∈ f.literals, contains s openMark = false) :
    ∃ c, f.call args = .ok c ∧ isWrappable c.inner = true := by
  obtain ⟨texts, htexts⟩ := exists_texts hargs
  have hcall : f.call args = .ok (Call.make f.name (f.around quote texts)) := by
    rw [Function.call_eq hn, htexts]
    rfl
  exact ⟨_, hcall, isWrappable_call hcall hargs hliterals⟩

end Calls

/-- What operators, parentheses and calls make of wrappable pieces. Among the arguments of a call stand such pieces
again, and other values that stand for wrappable texts. -/
inductive Fragment.IsCombined : Fragment → Prop where
  | piece {a : Fragment} (h : isWrappable a.inner = true) : IsCombined a
  | apply (op : Operator) {a b : Fragment} (ha : IsCombined a) (hb : IsCombined b) : IsCombined (op.apply a b)
  | negate {a : Fragment} (ha : IsCombined a) : IsCombined a.negate
  | group {a : Fragment} (ha : IsCombined a) : IsCombined a.group
  | call {f : Function} {args : List Argument} {c : Fragment} (h : f.call args = .ok c)
      (hliterals : ∀ s ∈ f.literals, contains s openMark = false)
      (hpieces : ∀ a, .fragment a ∈ args → IsCombined a)
      (hothers : ∀ a ∈ args, (∃ g, a = .fragment g) ∨ a.GivesWrappable f.name) : IsCombined c

theorem Fragment.IsCombined.isWrappable {a : Fragment} (h : a.IsCombined) : isWrappable a.inner = true := by
  induction h with
  | piece h => exact h
  | apply op _ _ iha ihb => exact isWrappable_apply op iha ihb
  | negate _ ih => exact isWrappable_negate ih
  | group _ ih => exact isWrappable_group ih
  | call h hliterals _ hothers ih =>
    refine isWrappable_call h (fun a ha => ?_) hliterals
    obtain ⟨g, rfl⟩ | hother := hothers a ha
    · exact Argument.givesWrappable_fragment _ (ih g ha)
    · exact hother

/-- Operators, negation and parentheses keep pieces wrappable, and so do calls of every function with values that
stand for wrappable texts; a list joined without separator is joined by commas. So every nesting of them has content
without blanks at its ends and without opening marks, is wrapped, and unwraps to itself. -/
theorem combined_survives :
    (∀ (op : Operator) (a b : Fragment), isWrappable a.inner = true → isWrappable b.inner = true →
      isWrappable (op.apply a b).inner = true) ∧
    (∀ a : Fragment, isWrappable a.inner = true →
      isWrappable a.negate.inner = true ∧ isWrappable a.group.inner = true) ∧
    (∀ (f : Function) (args : List Argument), f.takes args.length = true →
      (∀ a ∈ args, a.GivesWrappable f.name) → (∀ s ∈ f.literals, contains s openMark = false) →
        ∃ c, f.call args = .ok c ∧ isWrappable c.inner = true) ∧
    (∀ array : Argument, Call.join array none = (Function.join ",").call [array]) ∧
    ∀ a : Fragment, a.IsCombined →
      (a.inner.toList ≠ [] ∧ trim a.inner.toList = a.inner.toList ∧ ¬ openMark.toList <:+: a.inner.toList) ∧
        ∃ w, a.wrap = .ok w ∧ unwrap w.text = .ok a.inner := by
  refine ⟨fun op a b => Fragment.isWrappable_apply op, fun a ha => ?_, fun f args => exists_call, fun array => rfl,
    fun a ha => ?_⟩
  · exact ⟨Fragment.isWrappable_negate ha, Fragment.isWrappable_group ha⟩
  · exact ⟨(isWrappable_iff _).mp ha.isWrappable, (unwrap_wrap_iff a).mpr ha.isWrappable⟩

/-- A dollar sign at the end of one text and braces at the start of the next make no mark, beside an operator, among
arguments and behind a parenthesis. -/
theorem combined_survives_split_mark :
    isWrappable "env.PRICE$" = true ∧ isWrappable "\x7b\x7bn" = true ∧
      (∃ c, (Function.join "\x7b\x7b").call [.fragment ⟨"env.PRICE$", .token⟩] = .ok c ∧ isWrappable c.inner = true) ∧
      ∃ a : Fragment, a.inner = "!(env.PRICE$ && join(\x7b\x7bn, '$'))" ∧
        ∃ w, a.wrap = .ok w ∧ unwrap w.text = .ok a.inner := by
  obtain ⟨-, -, hcall, -, hcombined⟩ := combined_survives
  have hprice : isWrappable "env.PRICE$" = true := by decide
  have hbraces : isWrappable "\x7b\x7bn" = true := by decide
  have hjoin : (Function.join "$").call [.fragment ⟨"\x7b\x7bn", .composed⟩] =
      .ok ⟨"join(\x7b\x7bn, '$')", .call⟩ := rfl
  have hpieces : ∀ a, Argument.fragment a ∈ [Argument.fragment ⟨"\x7b\x7bn", .composed⟩] → a.IsCombined := by
    intro a ha
    obtain rfl := Argument.fragment.inj (List.mem_singleton.mp ha)
    exact .piece hbraces
  have hnested : (Operator.and.apply ⟨"env.PRICE$", .token⟩ ⟨"join(\x7b\x7bn, '$')", .call⟩).negate.IsCombined :=
    .negate (.apply .and (.piece hprice) (.call hjoin (by decide) hpieces fun a ha =>
      .inl ⟨_, List.mem_singleton.mp ha⟩))
  refine ⟨hprice, hbraces, hcall _ _ rfl ?_ (by decide), _, rfl, (hcombined _ hnested).2⟩
  intro a ha
  obtain rfl := List.mem_singleton.mp ha
  exact Argument.givesWrappable_fragment _ hprice

end CiWorkflow.Expression
