set_option autoImplicit false

namespace CiWorkflow.Text

theorem forall_mem_of_all {α : Type} {p : α → Prop} [DecidablePred p] {as : List α}
    (h : (as.all fun a => decide (p a)) = true) : ∀ a ∈ as, p a := by
  intro a ha
  exact of_decide_eq_true (List.all_eq_true.mp h a ha)

end CiWorkflow.Text
