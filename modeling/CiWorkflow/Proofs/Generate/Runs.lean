import CiWorkflow.Files.Tree
import CiWorkflow.Generate.Task

set_option autoImplicit false

namespace CiWorkflow.Task

open Log

variable {ε δ α β : Type} {t t' t'' : Tree}

/-- On a tree, a task comes to a result and leaves another tree, whatever was reported before. -/
def Runs (x : Task ε (StateM Tree) α) (t : Tree) (r : Except ε α) (t' : Tree) : Prop :=
  ∀ events, ∃ events', ((ExceptT.run x).run events).run t = ((r, events'), t')

/-- What a task is followed by depends on its result and takes over its events and its tree. -/
theorem run_bind (x : Task ε (StateM Tree) α) (f : α → Task ε (StateM Tree) β) (events : List Event) (t : Tree) :
    ((ExceptT.run (x >>= f)).run events).run t =
      let p := ((ExceptT.run x).run events).run t
      (StateT.run (ExceptT.bindCont f p.1.1) p.1.2).run p.2 := rfl

namespace Runs

variable {x : Task ε (StateM Tree) α} {f : α → Task ε (StateM Tree) β} {r r' : Except ε α}

theorem pure (a : α) (t : Tree) : Runs (pure a : Task ε (StateM Tree) α) t (.ok a) t :=
  fun events => ⟨events, rfl⟩

theorem throw (e : ε) (t : Tree) : Runs (throw e : Task ε (StateM Tree) α) t (.error e) t :=
  fun events => ⟨events, rfl⟩

theorem report (e : Event) (t : Tree) : Runs (report e : Task ε (StateM Tree) Unit) t (.ok ()) t :=
  fun _ => ⟨_, rfl⟩

theorem of_except (r : Except ε α) (t : Tree) : Runs (liftM r : Task ε (StateM Tree) α) t r t :=
  fun events => ⟨events, rfl⟩

theorem of_act {act : StateM Tree α} {a : α} (h : act.run t = (a, t')) :
    Runs (liftM act : Task ε (StateM Tree) α) t (.ok a) t' := by
  intro events
  refine ⟨events, ?_⟩
  change (((Except.ok (act.run t).1 : Except ε α), events), (act.run t).2) = _
  rw [h]

theorem bind {a : α} {s : Except ε β} (hx : Runs x t (.ok a) t') (hf : Runs (f a) t' s t'') :
    Runs (x >>= f) t s t'' := by
  intro events
  obtain ⟨events', hx⟩ := hx events
  obtain ⟨events'', hf⟩ := hf events'
  refine ⟨events'', ?_⟩
  rw [run_bind, hx]
  exact hf

theorem fail {e : ε} (hx : Runs x t (.error e) t') : Runs (x >>= f) t (.error e) t' := by
  intro events
  obtain ⟨events', hx⟩ := hx events
  refine ⟨events', ?_⟩
  rw [run_bind, hx]
  rfl

theorem read {g : α → Except ε β} (hx : Runs x t r t) (hf : ∀ a, r = .ok a → Runs (f a) t (g a) t) :
    Runs (x >>= f) t (r >>= g) t := by
  cases r with
  | error e => exact hx.fail
  | ok a => exact hx.bind (hf a rfl)

theorem pass {f : α → Task ε (StateM Tree) α} (hx : Runs x t r t') (hf : ∀ a, Runs (f a) t' (.ok a) t') :
    Runs (x >>= f) t r t' := by
  cases r with
  | error e => exact hx.fail
  | ok a => exact hx.bind (hf a)

theorem unique (h : Runs x t r t') (h' : Runs x t r' t'') : r = r' ∧ t' = t'' := by
  obtain ⟨events, h⟩ := h []
  obtain ⟨events', h'⟩ := h' []
  cases h.symm.trans h'
  exact ⟨rfl, rfl⟩

theorem adapt (f : ε → δ) (h : Runs x t r t') : Runs (ExceptT.adapt f x) t (r.mapError f) t' := by
  intro events
  obtain ⟨events', h⟩ := h events
  refine ⟨events', ?_⟩
  change (fun p : (Except ε α × List Event) × Tree => ((p.1.1.mapError f, p.1.2), p.2))
    (((ExceptT.run x).run events).run t) = _
  rw [h]

theorem run_eq (h : Runs x t r t') :
    ∃ events, (Task.run x : StateM Tree (Except ε α × List Event)).run t = ((r, events), t') := h []

theorem mapM {f : α → Task ε (StateM Tree) β} {g : α → Except ε β} {as : List α}
    (h : ∀ a ∈ as, Runs (f a) t (g a) t) : Runs (as.mapM f) t (as.mapM g) t := by
  induction as with
  | nil => exact pure [] t
  | cons a as ih =>
    rw [List.forall_mem_cons] at h
    rw [List.mapM_cons, List.mapM_cons]
    exact h.1.read fun b _ => (ih h.2).read fun bs _ => pure (b :: bs) t

end Runs

end CiWorkflow.Task
