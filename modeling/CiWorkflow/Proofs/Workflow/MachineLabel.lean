import CiWorkflow.Proofs.Workflow.Canonical

set_option autoImplicit false

namespace CiWorkflow

section Given

variable {α : Type} {p : α → Bool}

theorem findSome?_filter_eq_none_iff {ds : List (Option α)} :
    ds.findSome? (·.filter p) = none ↔ ∀ d ∈ ds, ∀ a, d = some a → p a = false := by
  simp [List.findSome?_eq_none_iff, Option.filter_eq_none_iff]

/-- What is given first is also the first that is accepted, unless it is refused and another one is not. -/
theorem filter_findSome?_eq_iff {ds : List (Option α)} :
    (ds.findSome? id).filter p = ds.findSome? (·.filter p) ↔
      ¬ ((∃ a, ds.findSome? id = some a ∧ p a = false) ∧ ¬ ∀ d ∈ ds, ∀ a, d = some a → p a = false) := by
  induction ds with
  | nil => simp
  | cons d ds ih =>
    cases d with
    | none => simpa using ih
    | some a =>
      cases hp : p a with
      | true => simp [hp]
      | false =>
        have hrefused : (some a).filter p = none := Option.filter_some_neg (by simp [hp])
        have hfirst : ∀ b, some a = some b → p b = false := by
          rintro b ⟨⟩
          exact hp
        simp only [List.findSome?_cons, id, hrefused]
        rw [eq_comm, findSome?_filter_eq_none_iff, not_and, not_not, List.forall_mem_cons]
        exact ⟨fun h _ => ⟨hfirst, h⟩, fun h => (h ⟨a, rfl, hp⟩).2⟩

end Given

namespace Machine

def designations (m : Machine) : List (Option String) :=
  [m.group, m.labels.map fun ls => ",".intercalate ls, m.name]

/-- The first designation that is given and not empty. -/
def firstFull? (m : Machine) : Option String := m.designations.findSome? (·.filter fun s => !s.isEmpty)

def IsNameless (m : Machine) : Prop := ∀ d ∈ m.designations, d = none ∨ d = some ""

/-- The first designation that is given is empty, but another one is not. -/
def IsShadowed (m : Machine) : Prop := m.designations.findSome? id = some "" ∧ ¬ m.IsNameless

theorem label?_eq (m : Machine) : m.label? = (m.designations.findSome? id).filter fun s => !s.isEmpty := by
  obtain ⟨name, group, labels⟩ := m
  cases group <;> cases labels <;> cases name <;> rfl

theorem isNameless_iff (m : Machine) :
    m.IsNameless ↔ ∀ d ∈ m.designations, ∀ s, d = some s → (!s.isEmpty) = false := by
  refine forall₂_congr fun d _ => ?_
  cases d <;> simp

theorem firstFull?_eq_none_iff (m : Machine) : m.firstFull? = none ↔ m.IsNameless := by
  rw [firstFull?, findSome?_filter_eq_none_iff, isNameless_iff]

theorem label?_eq_firstFull?_iff (m : Machine) : m.label? = m.firstFull? ↔ ¬ m.IsShadowed := by
  have hempty : (∃ s, m.designations.findSome? id = some s ∧ (!s.isEmpty) = false) ↔
      m.designations.findSome? id = some "" := by simp
  rw [label?_eq, firstFull?, filter_findSome?_eq_iff, IsShadowed, isNameless_iff, hempty]

theorem label?_eq_none_iff (m : Machine) : m.label? = none ↔ m.IsNameless ∨ m.IsShadowed := by
  by_cases hs : m.IsShadowed
  · simp [label?_eq, hs, hs.1]
  · rw [(m.label?_eq_firstFull?_iff).mpr hs, firstFull?_eq_none_iff]
    simp [hs]

/-- The label of a machine is its first designation that is not empty, unless an empty one stands before it, and
then there is none. Runners have no labels exactly if one of them is a machine without a label. -/
theorem label_eq_firstFull_iff (m : Machine) (r : RunsOn) :
    (m.label? = m.firstFull? ↔ ¬ m.IsShadowed) ∧ (m.firstFull? = none ↔ m.IsNameless) ∧
      (m.label? = none ↔ m.IsNameless ∨ m.IsShadowed) ∧
      (r.labels? = none ↔ ∃ m', .machine m' ∈ r.runners ∧ (m'.IsNameless ∨ m'.IsShadowed)) := by
  refine ⟨m.label?_eq_firstFull?_iff, m.firstFull?_eq_none_iff, m.label?_eq_none_iff, ?_⟩
  rw [← Option.not_isSome_iff_eq_none, r.isSome_labels_iff]
  simp only [not_forall, exists_prop]
  constructor
  · rintro ⟨runner, hrunner, hlabel⟩
    cases runner with
    | label s => simp [Runner.label?] at hlabel
    | machine m' => exact ⟨m', hrunner, m'.label?_eq_none_iff.mp (by simpa [Runner.label?] using hlabel)⟩
  · rintro ⟨m', hm, h⟩
    exact ⟨.machine m', hm, by simpa [Runner.label?] using m'.label?_eq_none_iff.mpr h⟩

/-- A machine with a name and an empty group has no label. -/
theorem not_label_eq_firstFull :
    ¬ ∀ m : Machine, m.label? = m.firstFull? ∧ (m.label? = none ↔ m.IsNameless) := by
  intro hall
  have hlabel := (hall ⟨some "big", some "", none⟩).1
  exact absurd hlabel (by decide)

end Machine

end CiWorkflow
