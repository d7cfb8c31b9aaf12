import CiWorkflow.Proofs.Decimal.Text
import CiWorkflow.Proofs.Expression.Grouped
import CiWorkflow.Proofs.Expression.Reading

set_option autoImplicit false

namespace CiWorkflow.Expression

open Text Decimal

structure Inside (cs : List Char) (t : Tree) : Prop where
  reads : IsExpression cs t
  closed : Closed cs

/-- A text that may stand beside an operator. Its first parenthesis, if it starts with one, belongs to its last
character. -/
structure Beside (cs : List Char) (t : Tree) : Prop where
  reads : IsOperand cs t
  closed : Closed cs
  start : cs.head? ≠ some '(' ∨ ∃ inner, Closed inner ∧ cs = '(' :: (inner ++ [')'])

/-- How the text of a piece reads as a tree. Only an operation needs parentheses beside an operator. -/
inductive Spells (f : Fragment) (t : Tree) : Prop where
  | atom (hkind : f.kind ≠ .composed) (hreads : IsOperand f.inner.toList t) (hclosed : Closed f.inner.toList)
      (hhead : f.inner.toList.head? ≠ some '(')
  | operation (hkind : f.kind = .composed) (hreads : IsExpression f.inner.toList t)
      (hclosed : Closed f.inner.toList) (hoperator : hasOperator false f.inner.toList = true)
      (hsingle : isSingleGroup f.inner = false)
  | group (inner : List Char) (htext : f.inner.toList = '(' :: (inner ++ [')'])) (hreads : IsExpression inner t)
      (hclosed : Closed inner)

theorem toList_inParens (text : String) : (Fragment.inParens text).toList = '(' :: (text.toList ++ [')']) := by
  simp [Fragment.inParens]

theorem isWordChar_of_isDigit {c : Char} (h : c.isDigit = true) : isWordChar c = true := by
  have hne : ∀ d : Char, d.isDigit = false → c ≠ d := by
    rintro d hd rfl
    exact absurd h (by simp [hd])
  simp [isWordChar, isOperatorChar, not_blank_of_isDigit h, hne]

theorem readInteger_toString (n : Int) : readInteger? (toString n).toList = some n := by
  have hall : ∀ d ∈ Nat.toDigits 10 n.natAbs, d.isDigit = true :=
    fun d hd => Nat.isDigit_of_mem_toDigits (by decide) (by decide) hd
  have hsign : takeSign (toString n).toList = (decide (n < 0), Nat.toDigits 10 n.natAbs) := by
    obtain ⟨d, rest, hdigits⟩ := List.exists_cons_of_ne_nil (Nat.toDigits_ne_nil (b := 10) (n := n.natAbs))
    rw [toList_toString_int, hdigits, takeSign_signed _ _ _ (hall d (by simp [hdigits]))]
  have hempty : (Nat.toDigits 10 n.natAbs).isEmpty = false := by simp [Nat.toDigits_ne_nil]
  rw [readInteger?, hsign]
  simp only [hempty, List.all_eq_true.mpr hall, digitsValue_toDigits, decide_eq_true_eq, Bool.not_true,
    Bool.or_self, Bool.false_eq_true, if_false, Option.some.injEq]
  split <;> omega

namespace Spells

variable {f g : Fragment} {t u : Tree}

theorem inside (h : Spells f t) : Inside f.inner.toList t := by
  cases h with
  | atom _ hreads hclosed => exact ⟨hreads.expression, hclosed⟩
  | operation _ hreads hclosed => exact ⟨hreads, hclosed⟩
  | group inner htext hreads hclosed => exact htext ▸ ⟨hreads.parens.expression, hclosed.parens⟩

theorem beside (h : Spells f t) : Beside f.operand.toList t := by
  cases h with
  | atom hkind hreads hclosed hhead =>
    have hoperand : f.operand = f.inner := by simp [Fragment.operand, hkind]
    exact hoperand ▸ ⟨hreads, hclosed, .inl hhead⟩
  | operation hkind hreads hclosed hoperator hsingle =>
    have hoperand : f.operand = Fragment.inParens f.inner := by
      simp [Fragment.operand, hkind, hoperator, hsingle]
    rw [hoperand, toList_inParens]
    exact ⟨hreads.parens, hclosed.parens, .inr ⟨_, hclosed, rfl⟩⟩
  | group inner htext hreads hclosed =>
    have hoperand : f.operand = f.inner := by
      simp [Fragment.operand, isSingleGroup_parens htext hclosed]
    rw [hoperand, htext]
    exact ⟨hreads.parens, hclosed.parens, .inr ⟨_, hclosed, rfl⟩⟩

theorem binary (op : Operator) (h : Spells f t) (h' : Spells g u) : Spells (op.apply f g) (.binary op t u) := by
  have hleft := h.beside
  have hright := h'.beside
  have htext : (op.apply f g).inner.toList =
      f.operand.toList ++ ' ' :: (op.sign.toList ++ ' ' :: g.operand.toList) := by
    rw [op.apply_eq]
    simp [Fragment.binary]
  have hblank : ∀ {cs : List Char}, Closed cs → Closed (' ' :: cs) :=
    Closed.cons (by decide) (by decide) (by decide)
  refine .operation (by rw [op.apply_eq]; rfl) ?_ ?_ ?_ ?_
  · rw [htext]
    exact hleft.reads.binary op hright.reads
  · rw [htext]
    exact hleft.closed.append (hblank ((Closed.sign op).append (hblank hright.closed)))
  · rw [htext]
    refine hleft.closed.operator _ ?_
    cases op <;> rfl
  · rcases hleft.start with hhead | ⟨inner, hinner, hparens⟩
    · refine isSingleGroup_of_head ?_
      obtain ⟨c, tail, hcons, -⟩ := hleft.reads.opens
      rw [hcons] at hhead
      rw [htext, hcons]
      exact hhead
    · -- the first parenthesis closes in front of the operator
      exact isSingleGroup_parens_append (hparens ▸ htext) hinner (by simp)

theorem negate (h : Spells f t) : Spells f.negate (.negate t) := by
  have hbeside := h.beside
  have htext : f.negate.inner.toList = '!' :: f.operand.toList := by simp [Fragment.negate]
  refine .operation rfl ?_ ?_ ?_ ?_
  · rw [htext]
    exact hbeside.reads.negate
  · rw [htext]
    exact Closed.cons (by decide) (by decide) (by decide) hbeside.closed
  · rw [htext]
    rfl
  · refine isSingleGroup_of_head ?_
    rw [htext]
    simp

theorem grouped (h : Spells f t) : Spells f.group t := by
  unfold Fragment.group
  split
  · exact h
  · exact .group f.inner.toList (toList_inParens _) h.inside.reads h.inside.closed

theorem of_word (hkind : f.kind ≠ .composed) (hne : f.inner.toList ≠ [])
    (hw : ∀ c ∈ f.inner.toList, isWordChar c = true) (h : ofWord? f.inner = some t) : Spells f t := by
  refine .atom hkind (.of_word hne hw (by rwa [String.ofList_toList])) (.of_word hw) fun hhead => ?_
  exact absurd (hw '(' (List.mem_of_mem_head? hhead)) (by decide)

theorem of_literal (text : String) : Spells (Fragment.raw text) (.literal text) := by
  refine .atom (by simp [Fragment.raw]) (.of_literal text) (.of_literal text) ?_
  change (quote text).toList.head? ≠ some '('
  rw [toList_quote]
  simp

theorem of_boolean (b : Bool) : Spells (Fragment.boolean b) (.boolean b) := by
  refine of_word (by simp [Fragment.boolean]) ?_ ?_ ?_
  · cases b <;> decide
  · refine forall_mem_of_all ?_
    cases b <;> rfl
  · cases b <;> rfl

theorem of_token {path : String} (h : Fragment.token path = .ok f) (hp : ∀ c ∈ path.toList, isWordChar c = true) :
    Spells f (.token path) := by
  obtain ⟨htoken, rfl⟩ := Fragment.token_eq_ok_iff.mp h
  have hne : path.toList ≠ [] := by
    intro hnil
    rw [String.toList_eq_nil_iff.mp hnil] at htoken
    exact absurd htoken (by decide)
  have htrue : path ≠ "true" := fun heq => absurd (heq ▸ htoken) (by decide)
  have hfalse : path ≠ "false" := fun heq => absurd (heq ▸ htoken) (by decide)
  exact of_word (by simp [Fragment.ofPath]) hne hp (by simp [Fragment.ofPath, ofWord?, htrue, hfalse, htoken])

theorem of_number (n : Int) : Spells (Fragment.number n) (.number n) := by
  have hchar : ∀ c ∈ (toString n).toList, c = '-' ∨ c.isDigit = true := fun c hc => mem_toString_int hc
  have hw : ∀ c ∈ (toString n).toList, isWordChar c = true := by
    intro c hc
    obtain rfl | hd := hchar c hc
    · decide
    · exact isWordChar_of_isDigit hd
  have hread := readInteger_toString n
  have hne : (toString n).toList ≠ [] := by
    intro hnil
    rw [hnil] at hread
    cases hread
  have hname : ∀ name : String, 't' ∈ name.toList ∨ 'f' ∈ name.toList → toString n ≠ name := by
    rintro name hm rfl
    rcases hm with hm | hm
    · exact absurd (hchar _ hm) (by decide)
    · exact absurd (hchar _ hm) (by decide)
  have hdot : '.' ∉ (toString n).toList := fun hm => absurd (hchar _ hm) (by decide)
  have htoken : isTokenPath (toString n) = false := by
    rw [isTokenPath, splitAt_of_not_mem hdot]
    simp
  refine of_word (by simp [Fragment.number]) hne hw ?_
  change ofWord? (toString n) = _
  rw [ofWord?, if_neg (hname _ (by decide)), if_neg (hname _ (by decide)), htoken, hread]
  rfl

theorem of_call {name : String} {texts : List String} {ts : List Tree} (hne : name.toList ≠ [])
    (hw : ∀ c ∈ name.toList, isWordChar c = true) (h : List.Forall₂ Inside (texts.map String.toList) ts)
    (hcall : ofCall? name ts = some t) : Spells (Call.make name texts) t := by
  have hreads : List.Forall₂ IsExpression (texts.map String.toList) ts := h.imp fun _ _ => Inside.reads
  have hclosed : ∀ cs ∈ texts.map String.toList, Closed cs := by
    intro cs hcs
    obtain ⟨i, hi, rfl⟩ := List.mem_iff_getElem.mp hcs
    exact (h.get hi (h.length_eq ▸ hi)).closed
  have htext := toList_make name texts
  refine .atom (by simp [Call.make]) ?_ ?_ ?_
  · rw [htext]
    exact .of_call hne hw hreads (by rwa [String.ofList_toList])
  · rw [htext]
    exact (Closed.of_word hw).append (Closed.intercalate hclosed).parens
  · obtain ⟨c, tail, hname⟩ := List.exists_cons_of_ne_nil hne
    have hc := hw c (hname ▸ List.mem_cons_self ..)
    rw [htext, hname]
    rintro ⟨⟩
    exact absurd hc (by decide)

end Spells

theorem Function.name_spec (f : Function) :
    f.name.toList ≠ [] ∧ ∀ c ∈ f.name.toList, isWordChar c = true := by
  constructor
  · cases f <;> simp [name]
  · refine forall_mem_of_all ?_
    cases f <;> simp only [name] <;> decide

theorem Function.forall₂_around {α β : Type} {R : α → β → Prop} {a : String → α} {b : String → β}
    {xs : List α} {ys : List β} (hR : ∀ s, R (a s) (b s)) (f : Function) (h : List.Forall₂ R xs ys) :
    List.Forall₂ R (f.around a xs) (f.around b ys) := by
  cases f with
  | format template => exact .cons (hR template) h
  | join separator => exact List.rel_append h (.cons (hR separator) .nil)
  | _ => exact h

theorem ofCall_around (f : Function) (ts : List Tree) :
    ofCall? f.name (f.around Tree.literal ts) = some (.call f ts) := by
  cases f with
  | join separator => simp [ofCall?, Function.name, Function.around]
  | format template => rfl
  | _ => rfl

theorem mapM_argument_fragment (name : String) (pieces : List Fragment) :
    (pieces.map Argument.fragment).mapM (Call.argument name) = .ok (pieces.map Fragment.inner) := by
  induction pieces with
  | nil => rfl
  | cons f pieces ih =>
    rw [List.map_cons, List.mapM_cons, ih]
    rfl

theorem Spells.call {f : Function} {pieces : List Fragment} {ts : List Tree} {c : Fragment}
    (h : f.call (pieces.map Argument.fragment) = .ok c) (hs : List.Forall₂ Spells pieces ts) :
    Spells c (.call f ts) := by
  obtain ⟨texts, htexts, rfl⟩ := Function.call_eq_ok h
  obtain rfl : pieces.map Fragment.inner = texts := by
    rw [mapM_argument_fragment] at htexts
    exact Except.ok.inj htexts
  have hinside : List.Forall₂ Inside ((pieces.map Fragment.inner).map String.toList) ts := by
    simpa using hs.imp fun _ _ => Spells.inside
  have hquote : ∀ s, Inside ((String.toList ∘ quote) s) (.literal s) := fun s => (Spells.of_literal s).inside
  refine .of_call f.name_spec.1 f.name_spec.2 ?_ (ofCall_around f ts)
  rw [Function.map_around]
  exact Function.forall₂_around hquote f hinside

mutual

theorem Tree.spells : ∀ (t : Tree) (f : Fragment), t.fragment = .ok f → t.isPlain = true → Spells f t.ungrouped
  | .token path, f, h, hp => .of_token h (List.all_eq_true.mp hp)
  | .literal text, f, h, _ => by
    cases h
    exact .of_literal text
  | .boolean b, f, h, _ => by
    cases h
    exact .of_boolean b
  | .number n, f, h, _ => by
    cases h
    exact .of_number n
  | .call function args, f, h, hp => by
    obtain ⟨pieces, hpieces, hcall⟩ := bind_eq_ok.mp h
    exact .call hcall (Tree.spells_all args pieces hpieces hp)
  | .binary op left right, f, h, hp => by
    obtain ⟨a, ha, hrest⟩ := bind_eq_ok.mp h
    obtain ⟨b, hb, hf⟩ := bind_eq_ok.mp hrest
    obtain ⟨hleft, hright⟩ := Bool.and_eq_true_iff.mp hp
    cases hf
    exact (Tree.spells left a ha hleft).binary op (Tree.spells right b hb hright)
  | .negate inner, f, h, hp => by
    obtain ⟨a, ha, rfl⟩ := map_eq_ok.mp h
    exact (Tree.spells inner a ha hp).negate
  | .group inner, f, h, hp => by
    obtain ⟨a, ha, rfl⟩ := map_eq_ok.mp h
    exact (Tree.spells inner a ha hp).grouped

theorem Tree.spells_all : ∀ (ts : List Tree) (pieces : List Fragment), Tree.fragments ts = .ok pieces →
    Tree.arePlain ts = true → List.Forall₂ Spells pieces (Tree.ungroupedAll ts)
  | [], pieces, h, _ => by
    cases h
    exact .nil
  | t :: rest, pieces, h, hp => by
    obtain ⟨f, hf, hrest⟩ := bind_eq_ok.mp h
    obtain ⟨others, hothers, heq⟩ := bind_eq_ok.mp hrest
    obtain ⟨ht, hts⟩ := Bool.and_eq_true_iff.mp hp
    cases heq
    exact .cons (Tree.spells t f hf ht) (Tree.spells_all rest others hothers hts)

end

theorem Spells.read {f : Fragment} {t : Tree} (h : Spells f t) : Tree.read? f.inner = some t := by
  have hread := h.inside.reads.reads f.inner.toList.length [] (Nat.le_refl _) rfl
  rw [List.append_nil] at hread
  rw [Tree.read?, hread]

/-- A reader that knows no precedence gets the tree back from its text, groups aside. So trees of one text are the
same up to groups. -/
theorem read_fragment (t : Tree) (f : Fragment) (h : t.fragment = .ok f) (hp : t.isPlain = true) :
    Tree.read? f.inner = some t.ungrouped ∧
      ∀ (u : Tree) (g : Fragment), u.fragment = .ok g → u.isPlain = true → g.inner = f.inner →
        u.ungrouped = t.ungrouped := by
  have hread := (t.spells f h hp).read
  refine ⟨hread, fun u g hu hup htext => ?_⟩
  have hother := (u.spells g hu hup).read
  rw [htext, hread] at hother
  exact (Option.some.inj hother).symm

theorem read_fragment_nested :
    let inner := Tree.binary .and (.token "env.A,") (.negate (.literal "it's (a && b)"))
    let call := Tree.call (.format "\x7b0\x7d || x") [.binary .equals (.token "env.N,") (.number (-3)), .boolean true]
    Tree.read? "(env.A, && (!'it''s (a && b)')) || format('\x7b0\x7d || x', env.N, == -3, true)" =
        some (.binary .or inner call) ∧
      (Tree.binary .or (.group inner) call).ungrouped = (Tree.binary .or inner call).ungrouped := by
  intro inner call
  have h := read_fragment (.binary .or inner call)
    ⟨"(env.A, && (!'it''s (a && b)')) || format('\x7b0\x7d || x', env.N, == -3, true)", .composed⟩ rfl rfl
  exact ⟨h.1, h.2 (.binary .or (.group inner) call) _ rfl rfl rfl⟩

example : (Tree.read? "env.A && env.B || env.C").isNone = true := by decide

end CiWorkflow.Expression
