import CiWorkflow.Proofs.Expression.Wrapped
import CiWorkflow.Proofs.Text.Every

set_option autoImplicit false

namespace CiWorkflow.Expression

open Text

/-- What stands behind the first closing mark outside literals. A doubled quote leaves a literal and enters
it again at once. -/
def behindClose (inLiteral : Bool) : List Char → Option (List Char)
  | [] => none
  | c :: rest =>
    if c = '\'' then behindClose (!inLiteral) rest
    else if !inLiteral && c = '\x7d' && rest.head? = some '\x7d' then some rest.tail
    else behindClose inLiteral rest

/-- Whether the closing mark that ends the expression is the last thing in its text. -/
def Wrapped.ClosesAtEnd (w : Wrapped) : Prop :=
  behindClose false (w.text.toList.drop openMark.toList.length) = some []

def literalBehind (inLiteral : Bool) (cs : List Char) : Bool := inLiteral ^^ cs.count '\'' % 2 == 1

theorem literalBehind_cons (inLiteral : Bool) (c : Char) (rest : List Char) :
    literalBehind inLiteral (c :: rest) = literalBehind (inLiteral ^^ c == '\'') rest := by
  by_cases hc : c = '\''
  · subst hc
    rcases Nat.mod_two_eq_zero_or_one (rest.count '\'') with h | h <;>
      cases inLiteral <;> simp [literalBehind, Nat.add_mod, h]
  · have hb : (c == '\'') = false := by simpa using hc
    rw [literalBehind, literalBehind, List.count_cons_of_ne hc, hb, Bool.xor_false]

theorem behindClose_append (inLiteral : Bool) (cs tail : List Char)
    (ht : ¬ tail.head? = some '\x7d') :
    behindClose inLiteral (cs ++ tail) =
      ((behindClose inLiteral cs).map (· ++ tail)).or (behindClose (literalBehind inLiteral cs) tail) := by
  induction cs generalizing inLiteral with
  | nil => simp [behindClose, literalBehind]
  | cons c rest ih =>
    rw [literalBehind_cons, List.cons_append, behindClose, behindClose]
    by_cases hc : c = '\''
    · simp [hc, ih]
    · have hhead : (rest ++ tail).head? = some '\x7d' ↔ rest.head? = some '\x7d' := by
        cases rest with
        | nil => simp [ht]
        | cons d rest => simp
      have hb : (c == '\'') = false := by simpa using hc
      simp only [hc, hb, Bool.xor_false, ↓reduceIte, hhead]
      split
      · rename_i hclose
        cases rest with
        | nil => simp at hclose
        | cons d rest => simp
      · exact ih inLiteral

theorem behindClose_of_blank (inLiteral : Bool) (cs : List Char) (h : ∀ c ∈ cs, isBlank c = true) :
    behindClose inLiteral cs = none := by
  induction cs with
  | nil => rfl
  | cons c rest ih =>
    have hc := h c (by simp)
    have hq : c ≠ '\'' := by rintro rfl; simp [isBlank] at hc
    have hb : c ≠ '\x7d' := by rintro rfl; simp [isBlank] at hc
    simpa [behindClose, hq, hb] using ih fun d hd => h d (by simp [hd])

theorem behindClose_blank_append (inLiteral : Bool) (front cs : List Char)
    (h : ∀ c ∈ front, isBlank c = true) : behindClose inLiteral (front ++ cs) = behindClose inLiteral cs := by
  induction front with
  | nil => rfl
  | cons c rest ih =>
    have hc := h c (by simp)
    have hq : c ≠ '\'' := by rintro rfl; simp [isBlank] at hc
    have hb : c ≠ '\x7d' := by rintro rfl; simp [isBlank] at hc
    simpa [behindClose, hq, hb] using ih fun d hd => h d (by simp [hd])

theorem not_close_of_blank (cs : List Char) (h : ∀ c ∈ cs, isBlank c = true) : ¬ cs.head? = some '\x7d' := by
  intro hc
  simpa [isBlank] using h _ (List.mem_of_head? hc)

theorem exists_trim (cs : List Char) : ∃ front back, cs = front ++ (trim cs ++ back) ∧
    (∀ c ∈ front, isBlank c = true) ∧ ∀ c ∈ back, isBlank c = true := by
  refine ⟨cs.takeWhile isBlank, ((trimStart cs).reverse.takeWhile isBlank).reverse, ?_, ?_, ?_⟩
  · have hback : trim cs ++ ((trimStart cs).reverse.takeWhile isBlank).reverse = trimStart cs := by
      rw [trim, trimEnd, dropEndWhile, ← List.reverse_append, List.takeWhile_append_dropWhile,
        List.reverse_reverse]
    rw [hback, trimStart, List.takeWhile_append_dropWhile]
  · exact fun c hc => List.mem_takeWhile_imp hc
  · exact fun c hc => List.mem_takeWhile_imp (List.mem_reverse.mp hc)

theorem behindClose_trim (cs : List Char) : behindClose false (trim cs) = none ↔ behindClose false cs = none := by
  obtain ⟨front, back, hcs, hf, hb⟩ := exists_trim cs
  have hback := behindClose_append false (trim cs) back (not_close_of_blank back hb)
  rw [behindClose_of_blank _ back hb, Option.or_none] at hback
  have hall : behindClose false cs = (behindClose false (trim cs)).map (· ++ back) :=
    (congrArg (behindClose false) hcs).trans ((behindClose_blank_append false front _ hf).trans hback)
  simp [hall]

theorem count_quote_trim (cs : List Char) : (trim cs).count '\'' = cs.count '\'' := by
  have hzero : ∀ bs : List Char, (∀ c ∈ bs, isBlank c = true) → bs.count '\'' = 0 := fun bs h =>
    List.count_eq_zero.mpr fun hm => by simpa [isBlank] using h _ hm
  obtain ⟨front, back, hcs, hf, hb⟩ := exists_trim cs
  have hcount := congrArg (List.count '\'') hcs
  rw [List.count_append, List.count_append, hzero front hf, hzero back hb] at hcount
  omega

/-- What stands behind the first closing mark of a complete expression: the rest of its content and the mark
that ends it, or nothing. -/
theorem behindClose_text (w : Wrapped) (h : w.inner.toList.count '\'' % 2 = 0) :
    behindClose false (w.text.toList.drop openMark.toList.length) =
      some (((behindClose false w.inner.toList).map (· ++ closeText.toList)).getD []) := by
  have hdrop : w.text.toList.drop openMark.toList.length = ' ' :: (w.inner.toList ++ closeText.toList) := by
    rw [Wrapped.toList_text]
    rfl
  have hend : behindClose (literalBehind false w.inner.toList) closeText.toList = some [] := by
    rw [literalBehind, h]
    rfl
  rw [hdrop, ← List.singleton_append, behindClose_blank_append false [' '] _ (forall_mem_of_all (by decide)),
    behindClose_append _ _ _ (by decide), hend]
  cases behindClose false w.inner.toList <;> rfl

/-- With all its literals closed, a wrapped text is read to its end exactly if it holds no closing mark
outside its literals. -/
theorem closes_at_end_iff (text : String) (w : Wrapped) (h : wrap text = .ok w)
    (hq : text.toList.count '\'' % 2 = 0) : w.ClosesAtEnd ↔ behindClose false text.toList = none := by
  obtain ⟨-, -, hi⟩ := wrap_eq_ok_iff.mp h
  have hinner : w.inner.toList = trim text.toList := by rw [hi, String.toList_ofList]
  rw [Wrapped.ClosesAtEnd, behindClose_text w (by rwa [hinner, count_quote_trim]), hinner,
    ← behindClose_trim]
  cases behindClose false (trim text.toList) with
  | none => simp
  | some rest => simp [closeText]

/-- A closing mark in a literal does no harm, nor does a single brace at the end. -/
theorem closes_at_end_quoted : ∃ w, wrap " a == '\x7d\x7d''s' && b\x7d " = .ok w ∧ w.ClosesAtEnd := by
  obtain ⟨w, hw⟩ : ∃ w, wrap " a == '\x7d\x7d''s' && b\x7d " = .ok w := ⟨_, rfl⟩
  exact ⟨w, hw, (closes_at_end_iff _ w hw (by decide)).mpr (by decide)⟩

/-- A closing mark in the text ends its expression early. -/
theorem closes_before_end :
    ¬ ∀ (text : String) (w : Wrapped), wrap text = .ok w → text.toList.count '\'' % 2 = 0 → w.ClosesAtEnd := by
  intro h
  obtain ⟨w, hw⟩ : ∃ w, wrap "a \x7d\x7d b" = .ok w := ⟨_, rfl⟩
  have hclose := (closes_at_end_iff _ w hw (by decide)).mp (h _ w hw (by decide))
  exact absurd hclose (by decide)

end CiWorkflow.Expression
