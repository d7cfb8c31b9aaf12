import CiWorkflow.Proofs.Expression.Balance
import CiWorkflow.Proofs.Expression.Closing
import CiWorkflow.Proofs.Expression.Structure

set_option autoImplicit false

namespace CiWorkflow.Expression

/-- The characters outside literals. A literal is open in front of the text or not. -/
def outside (inLiteral : Bool) : List Char → List Char
  | [] => []
  | c :: rest =>
    if c = '\'' then outside (!inLiteral) rest
    else if inLiteral then outside inLiteral rest
    else c :: outside inLiteral rest

def netDepth (inLiteral : Bool) (cs : List Char) : Int :=
  (outside inLiteral cs).count '(' - (outside inLiteral cs).count ')'

/-- All literals are closed. Outside of them no more parentheses are ever closed than were opened, and in the end as
many. -/
structure IsMatched (cs : List Char) : Prop where
  literals : cs.count '\'' % 2 = 0
  never_below : ∀ front, front <+: cs → 0 ≤ netDepth false front
  closed : netDepth false cs = 0

@[simp] theorem netDepth_nil (inLiteral : Bool) : netDepth inLiteral [] = 0 := rfl

theorem netDepth_cons (inLiteral : Bool) (c : Char) (rest : List Char) :
    netDepth inLiteral (c :: rest) = netDepth inLiteral [c] + netDepth (inLiteral ^^ c == '\'') rest := by
  by_cases hquote : c = '\''
  · simp [netDepth, outside, hquote]
  · have hbeq : (c == '\'') = false := by simpa using hquote
    cases inLiteral with
    | true => simp [netDepth, outside, hquote, hbeq]
    | false =>
      simp only [netDepth, outside, hquote, hbeq, if_false, Bool.false_eq_true, List.count_cons, List.count_nil,
        Bool.xor_false]
      omega

namespace Place

variable {p q : Place} {cs : List Char}

theorem next_eq_some_iff {c : Char} : p.next c = some q ↔
    q.inLiteral = (p.inLiteral ^^ c == '\'') ∧ (q.depth : Int) = p.depth + netDepth p.inLiteral [c] := by
  obtain ⟨d, inLiteral⟩ := p
  obtain ⟨e, inLiteral'⟩ := q
  by_cases hquote : c = '\''
  · subst hquote
    have hflip : (inLiteral ^^ '\'' == '\'') = !inLiteral := by simp
    simp only [hflip, next, netDepth, outside, if_true, Option.some.injEq, mk.injEq, List.count_nil]
    grind
  · have hbeq : (c == '\'') = false := by simpa using hquote
    cases inLiteral with
    | true =>
      simp only [next, netDepth, outside, hquote, hbeq, if_false, if_true, Option.some.injEq, mk.injEq, List.count_nil]
      grind
    | false =>
      simp only [next, netDepth, outside, hquote, hbeq, if_false, Bool.false_eq_true, List.count_cons, List.count_nil]
      grind

/-- A reader gets through a text exactly if no parenthesis in it closes nothing. -/
theorem after_eq_some_iff : p.after cs = some q ↔
    q.inLiteral = literalBehind p.inLiteral cs ∧
      (∀ front, front <+: cs → 0 ≤ p.depth + netDepth p.inLiteral front) ∧
      (q.depth : Int) = p.depth + netDepth p.inLiteral cs := by
  induction cs generalizing p with
  | nil =>
    have hliteral : literalBehind p.inLiteral [] = p.inLiteral := by simp [literalBehind]
    have hsame : p.after [] = some q ↔ p = q := Option.some_inj
    rw [hsame, hliteral, netDepth_nil]
    constructor
    · rintro rfl
      refine ⟨rfl, fun front hfront => ?_, by omega⟩
      rw [List.prefix_nil.mp hfront, netDepth_nil]
      omega
    · rintro ⟨hliteral, -, hdepth⟩
      obtain ⟨d, inLiteral⟩ := p
      obtain ⟨e, inLiteral'⟩ := q
      simp only at hliteral hdepth
      rw [hliteral, Int.ofNat.inj (hdepth.trans (Int.add_zero _))]
  | cons c rest ih =>
    rw [after_cons_eq_some_iff, literalBehind_cons, netDepth_cons]
    constructor
    · rintro ⟨r, hr, hq⟩
      obtain ⟨hliteral, hdepth⟩ := next_eq_some_iff.mp hr
      obtain ⟨hq, hfronts, hclosed⟩ := ih.mp hq
      rw [hliteral] at hq hfronts hclosed
      refine ⟨hq, fun front hfront => ?_, by omega⟩
      rcases List.prefix_cons_iff.mp hfront with rfl | ⟨front, rfl, hrest⟩
      · rw [netDepth_nil]
        omega
      · have hbelow := hfronts front hrest
        rw [netDepth_cons]
        omega
    · rintro ⟨hq, hfronts, hclosed⟩
      have hfirst := hfronts [c] (List.prefix_append [c] rest)
      obtain ⟨d, hd⟩ := Int.eq_ofNat_of_zero_le hfirst
      have hnext : p.next c = some ⟨d, p.inLiteral ^^ c == '\''⟩ := next_eq_some_iff.mpr ⟨rfl, hd.symm⟩
      refine ⟨_, hnext, ih.mpr ⟨hq, fun front hfront => ?_, ?_⟩⟩
      · have hbelow := hfronts (c :: front) (List.cons_prefix_cons.mpr ⟨rfl, hfront⟩)
        rw [netDepth_cons] at hbelow
        simp only
        omega
      · simp only
        omega

/-- A text up to a last closing parenthesis: that is all there is, or a reader goes on behind the first character. -/
theorem exists_closed_iff {c : Char} : (∃ body, c :: cs = body ++ [')'] ∧ p.after body = some top) ↔
    (p = top ∧ c = ')') ∧ cs = [] ∨
      ∃ q, p.next c = some q ∧ ∃ body, cs = body ++ [')'] ∧ q.after body = some top := by
  constructor
  · rintro ⟨body, hcs, hbody⟩
    cases body with
    | nil =>
      obtain ⟨rfl, rfl⟩ := List.cons.inj hcs
      exact .inl ⟨⟨Option.some.inj hbody, rfl⟩, rfl⟩
    | cons d body =>
      obtain ⟨rfl, rfl⟩ := List.cons.inj hcs
      obtain ⟨q, hq, hbody⟩ := after_cons_eq_some_iff.mp hbody
      exact .inr ⟨q, hq, body, rfl, hbody⟩
  · rintro (⟨⟨rfl, rfl⟩, rfl⟩ | ⟨q, hq, body, rfl, hbody⟩)
    · exact ⟨[], rfl, rfl⟩
    · exact ⟨c :: body, rfl, after_cons_eq_some_iff.mpr ⟨q, hq, hbody⟩⟩

theorem next_eq_none_iff {c : Char} : p.next c = none ↔ p = top ∧ c = ')' := by
  obtain ⟨d, inLiteral⟩ := p
  simp only [next, top, mk.injEq]
  grind

theorem closesAtEnd_of_next {c : Char} (h : p.next c = some q) (rest : List Char) :
    closesAtEnd (p.depth + 1) p.inLiteral (c :: rest) = closesAtEnd (q.depth + 1) q.inLiteral rest := by
  obtain ⟨d, inLiteral⟩ := p
  simp only [next] at h
  simp only [closesAtEnd]
  grind

/-- Below one parenthesis, the scanner for groups succeeds exactly if a reader gets out of everything in front of the
last character, which closes that parenthesis. -/
theorem closesAtEnd_iff :
    closesAtEnd (p.depth + 1) p.inLiteral cs = true ↔ ∃ body, cs = body ++ [')'] ∧ p.after body = some top := by
  induction cs generalizing p with
  | nil => simp [closesAtEnd]
  | cons c rest ih =>
    rw [exists_closed_iff, ← next_eq_none_iff]
    cases hnext : p.next c with
    | none =>
      -- the scanner is back outside everything, so this has to be the end
      obtain ⟨rfl, rfl⟩ := next_eq_none_iff.mp hnext
      cases rest with
      | nil => simp [closesAtEnd, top]
      | cons d rest => simp [closesAtEnd, top]
    | some q => simp [closesAtEnd_of_next hnext, ih]

end Place

theorem isBalanced_iff (cs : List Char) : IsBalanced cs ↔ IsMatched cs := by
  have hliteral : false = literalBehind false cs ↔ cs.count '\'' % 2 = 0 := by
    simp [literalBehind]
  rw [IsBalanced, Place.after_eq_some_iff]
  simp only [Place.top, hliteral]
  constructor
  · rintro ⟨hliterals, hfronts, hclosed⟩
    exact ⟨hliterals, by simpa using hfronts, by omega⟩
  · rintro ⟨hliterals, hfronts, hclosed⟩
    exact ⟨hliterals, by simpa using hfronts, by omega⟩

theorem isSingleGroup_iff (text : String) :
    isSingleGroup text = true ↔ ∃ body : String, text = Fragment.inParens body ∧ IsMatched body.toList := by
  simp only [← isBalanced_iff]
  constructor
  · intro h
    simp only [isSingleGroup, Bool.and_eq_true, decide_eq_true_eq] at h
    obtain ⟨⟨hhead, -⟩, hends⟩ := h
    obtain ⟨rest, hrest⟩ := List.head?_eq_some_iff.mp hhead
    have hbelow : closesAtEnd (Place.top.depth + 1) Place.top.inLiteral rest = true := by
      rw [hrest] at hends
      exact hends
    obtain ⟨body, rfl, hbody⟩ := Place.closesAtEnd_iff.mp hbelow
    refine ⟨String.ofList body, ?_, by rwa [String.toList_ofList]⟩
    rw [← String.toList_inj, toList_inParens, hrest, String.toList_ofList]
  · rintro ⟨body, rfl, hbody⟩
    have hbelow : closesAtEnd (Place.top.depth + 1) Place.top.inLiteral (body.toList ++ [')']) = true :=
      Place.closesAtEnd_iff.mpr ⟨_, rfl, hbody⟩
    have hends : closesAtEnd 0 false ('(' :: (body.toList ++ [')'])) = true := hbelow
    have hlast : ('(' :: (body.toList ++ [')'])).getLast? = some ')' := by
      rw [← List.cons_append, List.getLast?_concat]
    simp [isSingleGroup, toList_inParens, hends, hlast]

theorem isSingleGroup_inParens_iff (text : String) :
    isSingleGroup (Fragment.inParens text) = true ↔ IsMatched text.toList := by
  rw [isSingleGroup_iff]
  constructor
  · rintro ⟨body, htext, hbody⟩
    have htext := congrArg String.toList htext
    rw [toList_inParens, toList_inParens, List.cons.injEq, List.append_left_inj] at htext
    rwa [htext.2]
  · exact fun h => ⟨text, rfl, h⟩

theorem isMatched_inParens {text : String} (h : IsMatched text.toList) : IsMatched (Fragment.inParens text).toList := by
  rw [toList_inParens, ← isBalanced_iff]
  exact (IsArgument.of_parens ((isBalanced_iff _).mpr h)).balanced

namespace Fragment

variable {a : Fragment}

theorem group_of_isSingleGroup (h : isSingleGroup a.inner = true) : a.group = a := by rw [group, if_pos h]

theorem group_of_not_isSingleGroup (h : ¬ isSingleGroup a.inner = true) : a.group = ⟨inParens a.inner, .composed⟩ := by
  rw [group, if_neg h]

theorem group_eq_self_iff (a : Fragment) : a.group = a ↔ isSingleGroup a.inner = true := by
  refine ⟨fun h => ?_, group_of_isSingleGroup⟩
  by_contra hsingle
  rw [group_of_not_isSingleGroup hsingle] at h
  have hlength := congrArg (fun f : Fragment => f.inner.toList.length) h
  simp only [toList_inParens, List.length_cons, List.length_append, List.length_nil] at hlength
  omega

theorem isSingleGroup_group_iff (a : Fragment) : isSingleGroup a.group.inner = true ↔ IsMatched a.inner.toList := by
  by_cases hsingle : isSingleGroup a.inner = true
  · obtain ⟨body, hinner, hbody⟩ := (isSingleGroup_iff _).mp hsingle
    rw [group_of_isSingleGroup hsingle, iff_true_left hsingle, hinner]
    exact isMatched_inParens hbody
  · rw [group_of_not_isSingleGroup hsingle, isSingleGroup_inParens_iff]

end Fragment

/-- The scanner for groups finds exactly the texts that are a matched text in parentheses. A piece with a matched text,
and no other, becomes a group by grouping, and is left alone by grouping it again. -/
theorem group_exact :
    (∀ text : String, isSingleGroup text = true ↔
      ∃ body : String, text = "(" ++ body ++ ")" ∧ IsMatched body.toList) ∧
    ∀ a : Fragment,
      (isSingleGroup a.group.inner = true ↔ IsMatched a.inner.toList) ∧
      (a.group.group = a.group ↔ IsMatched a.inner.toList) := by
  refine ⟨isSingleGroup_iff, fun a => ⟨a.isSingleGroup_group_iff, ?_⟩⟩
  rw [Fragment.group_eq_self_iff, Fragment.isSingleGroup_group_iff]

example : isSingleGroup "(f(')') && g('it''s'))" = true ∧ isSingleGroup "(a) || (b)" = false := by decide

end CiWorkflow.Expression
