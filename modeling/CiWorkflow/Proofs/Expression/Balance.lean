import CiWorkflow.Proofs.Expression.Call

/-!
# Balanced texts

A reader of an expression knows how many parentheses are open and whether a literal is. A text is balanced if the
reader comes out of it where it went in, outside everything, and it is one argument if no comma stands there on the
way. Further in, below some parentheses, the reader takes the same way and no comma parts anything.
-/
set_option autoImplicit false

namespace CiWorkflow.Expression

open Text

/-- Where a reader of an expression stands: below so many open parentheses, in a literal or not. -/
structure Place where
  depth : Nat
  inLiteral : Bool
  deriving DecidableEq, Repr

namespace Place

def top : Place := ⟨0, false⟩

/-- The place behind a character; there is none behind a parenthesis that closes nothing. -/
def next (p : Place) (c : Char) : Option Place :=
  if c = '\'' then some ⟨p.depth, !p.inLiteral⟩
  else if p.inLiteral then some p
  else if c = '(' then some ⟨p.depth + 1, false⟩
  else if c = ')' then if p.depth = 0 then none else some ⟨p.depth - 1, false⟩
  else some p

def after (p : Place) (cs : List Char) : Option Place := cs.foldlM next p

/-- The place behind a character of an argument, which a comma outside everything would end. -/
def inside (p : Place) (c : Char) : Option Place := if p = top ∧ c = ',' then none else p.next c

theorem after_cons_eq_some_iff {p r : Place} {c : Char} {cs : List Char} :
    p.after (c :: cs) = some r ↔ ∃ q, p.next c = some q ∧ q.after cs = some r := by
  rw [after, List.foldlM_cons]
  exact Option.bind_eq_some_iff

theorem after_append {p q : Place} {front : List Char} (h : p.after front = some q) (back : List Char) :
    p.after (front ++ back) = q.after back := by
  unfold after at h ⊢
  rw [List.foldlM_append, h]
  rfl

theorem inside_eq_some_iff {p q : Place} {c : Char} :
    p.inside c = some q ↔ ¬ (p = top ∧ c = ',') ∧ p.next c = some q := by
  rw [inside]
  split
  · rename_i h
    simp [h]
  · rename_i h
    simp [h]

/-- A reader of an argument gets to its end exactly if no comma stands outside everything before. -/
theorem foldlM_inside_iff {p q : Place} {cs : List Char} : cs.foldlM inside p = some q ↔
    p.after cs = some q ∧ ∀ front back, cs = front ++ ',' :: back → p.after front ≠ some top := by
  induction cs generalizing p with
  | nil => simp [after]
  | cons c cs ih =>
    rw [List.foldlM_cons, after_cons_eq_some_iff]
    refine Option.bind_eq_some_iff.trans ?_
    simp only [inside_eq_some_iff, ih]
    constructor
    · rintro ⟨r, ⟨hcomma, hr⟩, hq, hcommas⟩
      refine ⟨⟨r, hr, hq⟩, fun front back hfront hback => ?_⟩
      cases front with
      | nil =>
        -- a comma in front stands where the reader starts
        obtain ⟨rfl, -⟩ := List.cons.inj hfront
        exact hcomma ⟨Option.some.inj hback, rfl⟩
      | cons d front =>
        obtain ⟨rfl, rfl⟩ := List.cons.inj hfront
        obtain ⟨s, hs, hback⟩ := after_cons_eq_some_iff.mp hback
        obtain rfl := Option.some.inj (hr.symm.trans hs)
        exact hcommas front back rfl hback
    · rintro ⟨⟨r, hr, hq⟩, hcommas⟩
      refine ⟨r, ⟨fun hcomma => ?_, hr⟩, hq, fun front back hfront hback => ?_⟩
      · exact hcommas [] cs (by rw [hcomma.2]; rfl) (by rw [hcomma.1]; rfl)
      · exact hcommas (c :: front) back (by rw [hfront]; rfl) (after_cons_eq_some_iff.mpr ⟨r, hr, hback⟩)

def below (p : Place) (k : Nat) : Place := ⟨p.depth + k, p.inLiteral⟩

theorem next_below {p q : Place} {c : Char} (h : p.next c = some q) (k : Nat) :
    (p.below k).next c = some (q.below k) := by
  unfold next below at *
  grind

theorem foldlM_inside_below {p q : Place} {cs : List Char} (h : p.after cs = some q) (k : Nat) :
    cs.foldlM inside (p.below (k + 1)) = some (q.below (k + 1)) := by
  induction cs generalizing p with
  | nil =>
    obtain rfl := Option.some.inj h
    rfl
  | cons c cs ih =>
    obtain ⟨r, hr, hq⟩ := after_cons_eq_some_iff.mp h
    have hstep : (p.below (k + 1)).inside c = some (r.below (k + 1)) :=
      inside_eq_some_iff.mpr ⟨by simp [below, top], next_below hr (k + 1)⟩
    rw [List.foldlM_cons, hstep]
    exact ih hq

end Place

/-- Literals are closed, and the parentheses outside of them are balanced. -/
def IsBalanced (cs : List Char) : Prop := Place.top.after cs = some .top

/-- A balanced text whose commas stand in parentheses or in literals is one argument. -/
structure IsArgument (cs : List Char) : Prop where
  balanced : IsBalanced cs
  commas : ∀ front back, cs = front ++ ',' :: back → Place.top.after front ≠ some .top

theorem isArgument_iff (cs : List Char) : IsArgument cs ↔ cs.foldlM Place.inside .top = some .top := by
  rw [Place.foldlM_inside_iff]
  exact ⟨fun h => ⟨h.balanced, h.commas⟩, fun h => ⟨h.1, h.2⟩⟩

namespace IsBalanced

theorem append {cs ds : List Char} (h : IsBalanced cs) (h' : IsBalanced ds) : IsBalanced (cs ++ ds) :=
  (Place.after_append h ds).trans h'

theorem intercalate {css : List (List Char)} (h : ∀ cs ∈ css, IsBalanced cs) :
    IsBalanced ([',', ' '].intercalate css) := by
  induction css with
  | nil => exact rfl
  | cons cs css ih =>
    obtain ⟨hcs, hcss⟩ := List.forall_mem_cons.mp h
    cases css with
    | nil => simpa using hcs
    | cons ds css =>
      have hcomma : IsBalanced [',', ' '] := rfl
      rw [List.intercalate_cons_cons]
      exact (hcs.append hcomma).append (ih hcss)

end IsBalanced

namespace IsArgument

theorem append {cs ds : List Char} (h : IsArgument cs) (h' : IsArgument ds) : IsArgument (cs ++ ds) := by
  rw [isArgument_iff] at *
  rw [List.foldlM_append, h]
  exact h'

theorem of_plain {cs : List Char} (h : ∀ c ∈ cs, c ≠ '\'' ∧ c ≠ '(' ∧ c ≠ ')' ∧ c ≠ ',') : IsArgument cs := by
  rw [isArgument_iff]
  induction cs with
  | nil => rfl
  | cons c cs ih =>
    obtain ⟨⟨hquote, hopen, hclose, hcomma⟩, hcs⟩ := List.forall_mem_cons.mp h
    have hstep : Place.top.inside c = some .top := by
      simp [Place.inside, Place.next, Place.top, hquote, hopen, hclose, hcomma]
    rw [List.foldlM_cons, hstep]
    exact ih hcs

theorem of_parens {cs : List Char} (h : IsBalanced cs) : IsArgument ('(' :: (cs ++ [')'])) := by
  rw [isArgument_iff, List.foldlM_cons]
  change (cs ++ [')']).foldlM Place.inside (Place.top.below 1) = _
  rw [List.foldlM_append, Place.foldlM_inside_below h 0]
  rfl

theorem of_literal (s : String) : IsArgument (quote s).toList := by
  have hinside : ∀ cs : List Char, (cs.flatMap fun c => if c = '\'' then ['\'', '\''] else [c]).foldlM
      Place.inside ⟨0, true⟩ = some ⟨0, true⟩ := by
    intro cs
    induction cs with
    | nil => rfl
    | cons c cs ih =>
      rw [List.flatMap_cons, List.foldlM_append]
      split
      · exact ih
      · rename_i hc
        have hstep : Place.inside ⟨0, true⟩ c = some ⟨0, true⟩ := by
          simp [Place.inside, Place.next, Place.top, hc]
        simpa [hstep] using ih
  rw [isArgument_iff, toList_quote, List.foldlM_cons]
  change (_ ++ ['\'']).foldlM Place.inside ⟨0, true⟩ = _
  rw [List.foldlM_append, hinside]
  rfl

end IsArgument

end CiWorkflow.Expression
