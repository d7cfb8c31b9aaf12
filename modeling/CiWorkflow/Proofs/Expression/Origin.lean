import CiWorkflow.Proofs.Context.Path
import CiWorkflow.Proofs.Expression.Content

set_option autoImplicit false

namespace CiWorkflow.Expression

open Text Decimal Context

inductive Origin where
  | token (path : String)
  | raw (text : String)
  | expression (text : String)
  | boolean (b : Bool)
  | number (n : Int)
  | leaf (l : Leaf) (known : l ∈ Leaf.all)
  | member (m : Member)
  /-- A way into the data of the event. -/
  | event (steps : List PathStep)
  /-- A way on from a given path. -/
  | root (path : String) (steps : List PathStep)
  | call (f : Function) (args : List Argument)

namespace Origin

def make : Origin → Except Error Fragment
  | .token path => Fragment.token path
  | .raw text => .ok (Fragment.raw text)
  | .expression text => Fragment.expression text
  | .boolean b => .ok (Fragment.boolean b)
  | .number n => .ok (Fragment.number n)
  | .leaf l _ => .ok l.fragment
  | .member m => m.fragment
  | .event steps => (steps.foldlM PathStep.take Path.event).map Path.fragment
  | .root path steps => do
    let p ← Path.root path
    return (← steps.foldlM PathStep.take p).fragment
  | .call f args => f.call args

/-- No opening mark in a text that nobody checks, and no blank at the end of a path that is used as it is. -/
def IsClean : Origin → Prop
  | .token path => contains path openMark = false ∧ path.toList.getLast?.any isBlank = false
  | .raw text => contains text openMark = false
  | .root path steps =>
    contains path openMark = false ∧ (steps = [] → path.toList.getLast?.any isBlank = false)
  | .call f args => (∀ s ∈ f.literals, contains s openMark = false) ∧ ∀ a ∈ args, a.isClean = true
  | _ => True

end Origin

theorem isWrappable_raw_iff (text : String) :
    isWrappable (Fragment.raw text).inner = true ↔ contains text openMark = false := by
  have hlast : (quote text).toList.getLast?.any isBlank = false := by
    rw [toList_quote, ← List.cons_append, List.getLast?_concat]
    rfl
  change isWrappable (quote text) = true ↔ _
  rw [isWrappable_iff_of_head (toList_quote text) rfl, marked_quote_iff, not_marked_iff]
  simp [hlast]

theorem isWrappable_token_iff {path : String} (h : isTokenPath path = true) :
    isWrappable path = true ↔
      contains path openMark = false ∧ path.toList.getLast?.any isBlank = false := by
  obtain ⟨c, rest, hp, hc⟩ := head_of_isTokenPath h
  rw [isWrappable_iff_of_head hp hc, not_marked_iff, and_comm]

theorem isWrappable_number (n : Int) : isWrappable (toString n) = true := by
  refine isWrappable_of_plain ?_ fun c hc => ?_
  · rw [Decimal.toList_toString_int, Decimal.signed]
    split <;> simp [Nat.toDigits_ne_nil]
  · rcases mem_toString_int hc with rfl | hd
    · decide
    · exact ⟨not_blank_of_isDigit hd, fun hc => absurd (hc ▸ hd) (by decide)⟩

theorem isWrappable_expression {text : String} {f : Fragment} (h : Fragment.expression text = .ok f) :
    isWrappable f.inner = true := by
  obtain ⟨_, hr, h⟩ := bind_eq_ok.mp h
  rw [rejectWrapped] at hr
  split at hr
  · cases hr
  · rename_i hm
    dsimp only at h
    split at h
    · cases h
    · rename_i hb
      obtain rfl := Except.ok.inj h
      exact isWrappable_trim text (by simpa using hm) (by simpa using hb)

theorem deeper_steps {p q : Path} {steps : List PathStep} (hne : steps ≠ [])
    (h : steps.foldlM PathStep.take p = .ok q) : Deeper p.text q.text :=
  deeper_of_foldlM Path.text PathStep.take (fun _ _ _ => PathStep.deeper_take) hne h

theorem Origin.isWrappable_make_iff {o : Origin} {f : Fragment} (h : o.make = .ok f) :
    isWrappable f.inner = true ↔ o.IsClean := by
  cases o with
  | token path =>
    obtain ⟨hpath, rfl⟩ := Fragment.token_eq_ok_iff.mp h
    exact isWrappable_token_iff hpath
  | raw text =>
    obtain rfl := Except.ok.inj h
    exact isWrappable_raw_iff text
  | expression text => exact iff_of_true (isWrappable_expression h) trivial
  | boolean b =>
    obtain rfl := Except.ok.inj h
    exact iff_of_true (by cases b <;> decide) trivial
  | number n =>
    obtain rfl := Except.ok.inj h
    exact iff_of_true (isWrappable_number n) trivial
  | leaf l known =>
    obtain rfl := Except.ok.inj h
    exact iff_of_true (Leaf.isWrappable_path known) trivial
  | member m => exact iff_of_true (Member.isWrappable_fragment h) trivial
  | event steps =>
    obtain ⟨p, hp, rfl⟩ := map_eq_ok.mp h
    refine iff_of_true ?_ trivial
    have hevent : isWrappable Path.event.text = true := by decide
    by_cases hs : steps = []
    · subst hs
      obtain rfl := Except.ok.inj hp
      exact hevent
    · exact (deeper_steps hs hp).isWrappable hevent
  | root path steps =>
    obtain ⟨p, hp, h⟩ := bind_eq_ok.mp h
    obtain ⟨q, hq, h⟩ := bind_eq_ok.mp h
    obtain rfl := Except.ok.inj h
    obtain ⟨f, hf, rfl⟩ := map_eq_ok.mp hp
    have hpath := (Fragment.token_eq_ok_iff.mp hf).1
    by_cases hs : steps = []
    · subst hs
      obtain rfl := Except.ok.inj hq
      change isWrappable path = true ↔ _
      simpa [Origin.IsClean] using isWrappable_token_iff hpath
    · obtain ⟨c, rest, ht, hc⟩ := head_of_isTokenPath hpath
      have hq := (deeper_steps hs hq).isWrappable_iff ht hc
      rw [← not_marked_iff] at hq
      change isWrappable q.text = true ↔ _
      simpa [Origin.IsClean, hs] using hq
  | call f args => exact isWrappable_call_iff h

theorem unwrap_wrap_iff (f : Fragment) :
    (∃ w, f.wrap = .ok w ∧ unwrap w.text = .ok f.inner) ↔ isWrappable f.inner = true := by
  constructor
  · rintro ⟨w, -, hw⟩
    rw [unwrap_text] at hw
    exact Except.ok.inj hw ▸ w.wrappable
  · intro h
    exact ⟨⟨f.inner, h⟩, wrap_of_wrappable ⟨f.inner, h⟩, unwrap_text _⟩

/-- A piece has content without blanks at its ends and without opening marks, and survives wrapping and
unwrapping, exactly if it was made from clean texts. -/
theorem content_iff_isClean (o : Origin) (f : Fragment) (h : o.make = .ok f) :
    (f.inner.toList ≠ [] ∧ trim f.inner.toList = f.inner.toList ∧ ¬ openMark.toList <:+: f.inner.toList ↔
      o.IsClean) ∧
    ((∃ w, f.wrap = .ok w ∧ unwrap w.text = .ok f.inner) ↔ o.IsClean) := by
  rw [← isWrappable_iff, unwrap_wrap_iff]
  exact ⟨o.isWrappable_make_iff h, o.isWrappable_make_iff h⟩

/-- The literal of a call may hold a closing mark, and a complete expression among its arguments gives its
content. -/
theorem content_of_format :
    ∃ f, (Origin.call (.format "\x7b0\x7d \x7d\x7d") [.text "$\x7b\x7b github.sha \x7d\x7d"]).make = .ok f ∧
      ∃ w, f.wrap = .ok w ∧ unwrap w.text = .ok f.inner := by
  obtain ⟨f, hf⟩ : ∃ f, (Origin.call (.format "\x7b0\x7d \x7d\x7d")
      [.text "$\x7b\x7b github.sha \x7d\x7d"]).make = .ok f := ⟨_, rfl⟩
  exact ⟨f, hf, (content_iff_isClean _ f hf).2.mpr ⟨by decide, by decide⟩⟩

/-- A path that holds an opening mark is taken for a context path, but cannot be wrapped. -/
theorem not_content_of_marked_path :
    ¬ ∀ (o : Origin) (f : Fragment), o.make = .ok f → ∃ w, f.wrap = .ok w ∧ unwrap w.text = .ok f.inner := by
  intro h
  have hmake : (Origin.token "github.$\x7b\x7b x \x7d\x7d").make = .ok ⟨"github.$\x7b\x7b x \x7d\x7d", .token⟩ := rfl
  have hclean := (content_iff_isClean _ _ hmake).2.mp (h _ _ hmake)
  exact absurd hclean.1 (by decide)

end CiWorkflow.Expression
