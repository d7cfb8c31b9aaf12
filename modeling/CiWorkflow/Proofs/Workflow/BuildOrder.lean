import CiWorkflow.Render.Document
import CiWorkflow.Workflow.Edit
import Mathlib.Data.List.Forall2

set_option autoImplicit false

namespace CiWorkflow

open Render

section

variable {σ ε τ : Type} {target : ε → τ} {apply : σ → ε → σ} {xs ys zs : List ε} {x y : ε}

theorem foldl_front (hcomm : ∀ s x y, target x ≠ target y → apply (apply s x) y = apply (apply s y) x)
    {before : List ε} (hbefore : ∀ y ∈ before, target y ≠ target x) (after : List ε) (s : σ) :
    (before ++ x :: after).foldl apply s = (before ++ after).foldl apply (apply s x) := by
  induction before generalizing s with
  | nil => rfl
  | cons y before ih =>
    rw [List.forall_mem_cons] at hbefore
    rw [List.cons_append, List.foldl_cons, ih hbefore.2, hcomm s y x hbefore.1]
    rfl

theorem foldl_eq_of_forall₂ {same : ε → ε → Prop} (hsame : ∀ x y, same x y → ∀ s, apply s x = apply s y)
    (h : List.Forall₂ same xs ys) (s : σ) : xs.foldl apply s = ys.foldl apply s := by
  induction h generalizing s with
  | nil => rfl
  | cons hxy _ ih => rw [List.foldl_cons, List.foldl_cons, hsame _ _ hxy, ih]

variable [DecidableEq τ]

/-- The same calls in another order, where those for one target stay in theirs. -/
structure Reordered (target : ε → τ) (xs ys : List ε) : Prop where
  perm : xs.Perm ys
  kept : ∀ field, xs.filter (target · = field) = ys.filter (target · = field)

namespace Reordered

theorem refl (target : ε → τ) (xs : List ε) : Reordered target xs xs := ⟨.refl xs, fun _ => rfl⟩

theorem trans (h : Reordered target xs ys) (h' : Reordered target ys zs) : Reordered target xs zs :=
  ⟨h.perm.trans h'.perm, fun field => (h.kept field).trans (h'.kept field)⟩

theorem cons (x : ε) (h : Reordered target xs ys) : Reordered target (x :: xs) (x :: ys) where
  perm := h.perm.cons x
  kept field := by rw [List.filter_cons, List.filter_cons, h.kept]

theorem swap (hne : target x ≠ target y) (xs : List ε) : Reordered target (x :: y :: xs) (y :: x :: xs) where
  perm := .swap y x xs
  kept field := by
    simp only [List.filter_cons, decide_eq_true_eq]
    split <;> split <;> simp_all

end Reordered

/-- Where calls for different targets can change places, only the order for each target counts. -/
theorem Reordered.foldl_eq (hcomm : ∀ s x y, target x ≠ target y → apply (apply s x) y = apply (apply s y) x)
    (h : Reordered target xs ys) (s : σ) : xs.foldl apply s = ys.foldl apply s := by
  obtain ⟨-, hkept⟩ := h
  induction xs generalizing ys s with
  | nil =>
    cases ys with
    | nil => rfl
    | cons y ys => simpa using hkept (target y)
  | cons x xs ih =>
    have hfirst := hkept (target x)
    rw [List.filter_cons_of_pos (by simp)] at hfirst
    obtain ⟨before, after, rfl, hbefore, -, hafter⟩ := List.filter_eq_cons_iff.mp hfirst.symm
    have hbefore : ∀ y ∈ before, target y ≠ target x := by simpa using hbefore
    rw [List.foldl_cons, foldl_front hcomm hbefore]
    refine ih (apply s x) fun field => ?_
    by_cases hfield : target x = field
    · subst hfield
      have hnone : before.filter (target · = target x) = [] :=
        List.filter_eq_nil_iff.mpr fun y hy => by simpa using hbefore y hy
      rw [List.filter_append, hnone, hafter, List.nil_append]
    · have hrest := hkept field
      rw [List.filter_append, List.filter_cons_of_neg (by simpa using hfield),
        List.filter_cons_of_neg (by simpa using hfield)] at hrest
      rw [List.filter_append, hrest]

end

/-! ## Steps -/

def StepEdit.field : StepEdit → String
  | .name _ => "name"
  | .id _ => "id"
  | .condition _ => "if"
  | .uses _ => "uses"
  | .input .. => "with"
  | .run _ => "run"
  | .shell _ => "shell"
  | .workingDirectory _ => "working-directory"
  | .env .. => "env"
  | .continueOnError _ => "continue-on-error"
  | .timeoutMinutes _ => "timeout-minutes"

theorem Step.edit_comm (s : Step) (e f : StepEdit) (h : e.field ≠ f.field) :
    (s.edit e).edit f = (s.edit f).edit e := by
  cases e <;> cases f <;> first | exact absurd rfl h | rfl

structure StepPlan where
  start : Step
  calls : List StepEdit

namespace StepPlan

variable {p q : StepPlan}

def build (p : StepPlan) : Step := p.calls.foldl (fun s e => s.edit e) p.start

/-- The same step with its calls in another order. -/
structure Reordered (p q : StepPlan) : Prop where
  start : p.start = q.start
  calls : CiWorkflow.Reordered StepEdit.field p.calls q.calls

theorem Reordered.build_eq (h : p.Reordered q) : p.build = q.build := by
  rw [build, build, h.start]
  exact h.calls.foldl_eq Step.edit_comm q.start

end StepPlan

/-! ## Jobs -/

def JobEdit.field : JobEdit → String
  | .name _ => "name"
  | .needs _ => "needs"
  | .condition _ => "if"
  | .runsOn _ => "runs-on"
  | .permissions _ => "permissions"
  | .environment _ => "environment"
  | .concurrency _ => "concurrency"
  | .output .. => "outputs"
  | .env .. => "env"
  | .defaults _ => "defaults"
  | .timeoutMinutes _ => "timeout-minutes"
  | .continueOnError _ => "continue-on-error"
  | .strategy _ => "strategy"
  | .container _ => "container"
  | .service .. => "services"
  | .uses _ => "uses"
  | .input .. => "with"
  | .secrets _ => "secrets"
  | .step _ => "steps"

theorem Job.edit_comm (j : Job) (e f : JobEdit) (h : e.field ≠ f.field) : (j.edit e).edit f = (j.edit f).edit e := by
  cases e <;> cases f <;> first | exact absurd rfl h | rfl

/-- A part of building a job: a call, or one that adds a step that is built by calls itself. -/
inductive JobPart where
  | edit (e : JobEdit)
  | step (p : StepPlan)

namespace JobPart

def toEdit : JobPart → JobEdit
  | .edit e => e
  | .step p => .step p.build

inductive Same : JobPart → JobPart → Prop where
  | edit (e : JobEdit) : Same (.edit e) (.edit e)
  | step {p q : StepPlan} (h : p.Reordered q) : Same (.step p) (.step q)

theorem Same.toEdit_eq {c d : JobPart} (h : c.Same d) : c.toEdit = d.toEdit := by
  cases h with
  | edit e => rfl
  | step h => rw [toEdit, toEdit, h.build_eq]

end JobPart

structure JobPlan where
  start : Job
  parts : List JobPart

namespace JobPlan

variable {p q : JobPlan}

def build (p : JobPlan) : Job := p.parts.foldl (fun j c => j.edit c.toEdit) p.start

/-- The same job with its calls, and those of its steps, in another order. -/
structure Reordered (p q : JobPlan) : Prop where
  start : p.start = q.start
  parts : ∃ parts, List.Forall₂ JobPart.Same p.parts parts ∧
    CiWorkflow.Reordered (fun c : JobPart => c.toEdit.field) parts q.parts

theorem Reordered.build_eq (h : p.Reordered q) : p.build = q.build := by
  obtain ⟨hstart, parts, hsame, hparts⟩ := h
  rw [build, build, hstart, foldl_eq_of_forall₂ (fun c d h j => by rw [h.toEdit_eq]) hsame]
  exact hparts.foldl_eq (fun j c d hne => j.edit_comm c.toEdit d.toEdit hne) q.start

end JobPlan

/-! ## Workflows -/

def WorkflowEdit.field : WorkflowEdit → String
  | .runName _ => "run-name"
  | .env .. => "env"
  | .permissions _ => "permissions"
  | .concurrency _ => "concurrency"
  | .defaults _ => "defaults"
  | .job .. => "jobs"

theorem Workflow.edit_comm (w : Workflow) (e f : WorkflowEdit) (h : e.field ≠ f.field) :
    (w.edit e).edit f = (w.edit f).edit e := by
  cases e <;> cases f <;> first | exact absurd rfl h | rfl

/-- A part of building a workflow: a call, or one that puts in a job that is built by calls itself. -/
inductive WorkflowPart where
  | edit (e : WorkflowEdit)
  | job (id : String) (p : JobPlan)

namespace WorkflowPart

def toEdit : WorkflowPart → WorkflowEdit
  | .edit e => e
  | .job id p => .job id p.build

inductive Same : WorkflowPart → WorkflowPart → Prop where
  | edit (e : WorkflowEdit) : Same (.edit e) (.edit e)
  | job (id : String) {p q : JobPlan} (h : p.Reordered q) : Same (.job id p) (.job id q)

theorem Same.toEdit_eq {c d : WorkflowPart} (h : c.Same d) : c.toEdit = d.toEdit := by
  cases h with
  | edit e => rfl
  | job id h => rw [toEdit, toEdit, h.build_eq]

end WorkflowPart

structure WorkflowPlan where
  start : Workflow
  parts : List WorkflowPart

namespace WorkflowPlan

variable {p q : WorkflowPlan}

def build (p : WorkflowPlan) : Workflow := p.parts.foldl (fun w c => w.edit c.toEdit) p.start

/-- The same workflow with its calls, and those of its jobs, in another order. -/
structure Reordered (p q : WorkflowPlan) : Prop where
  start : p.start = q.start
  parts : ∃ parts, List.Forall₂ WorkflowPart.Same p.parts parts ∧
    CiWorkflow.Reordered (fun c : WorkflowPart => c.toEdit.field) parts q.parts

theorem Reordered.build_eq (h : p.Reordered q) : p.build = q.build := by
  obtain ⟨hstart, parts, hsame, hparts⟩ := h
  rw [build, build, hstart, foldl_eq_of_forall₂ (fun c d h w => by rw [h.toEdit_eq]) hsame]
  exact hparts.foldl_eq (fun w c d hne => w.edit_comm c.toEdit d.toEdit hne) q.start

end WorkflowPlan

end CiWorkflow
