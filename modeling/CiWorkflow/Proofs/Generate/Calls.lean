import CiWorkflow.Generate.Output

set_option autoImplicit false

namespace CiWorkflow

open Log

variable {ε α β σ : Type} {st st₁ st' : List Event × σ}

namespace Task

/-- What a task comes to, given the events so far and a state: its result, and the events and the state behind it. -/
def outcome (x : Task ε (StateM σ) α) (st : List Event × σ) : Except ε α × List Event × σ :=
  let p := ((ExceptT.run x).run st.1).run st.2
  (p.1.1, p.1.2, p.2)

theorem outcome_pure (a : α) (st : List Event × σ) : (pure a : Task ε (StateM σ) α).outcome st = (.ok a, st) := rfl

theorem outcome_bind (x : Task ε (StateM σ) α) (f : α → Task ε (StateM σ) β) (st : List Event × σ) :
    (x >>= f).outcome st =
      match x.outcome st with
      | (.ok a, st') => (f a).outcome st'
      | (.error e, st') => (.error e, st') := by
  change (fun p : (Except ε α × List Event) × σ =>
    (fun q : (Except ε β × List Event) × σ => (q.1.1, q.1.2, q.2)) ((StateT.run (ExceptT.bindCont f p.1.1) p.1.2).run p.2))
      (((ExceptT.run x).run st.1).run st.2) = _
  rw [outcome]
  obtain ⟨⟨r, events⟩, s⟩ := ((ExceptT.run x).run st.1).run st.2
  cases r <;> rfl

theorem outcome_bind_ok {x : Task ε (StateM σ) α} {f : α → Task ε (StateM σ) β} {b : β} :
    (x >>= f).outcome st = (.ok b, st') ↔ ∃ a st₁, x.outcome st = (.ok a, st₁) ∧ (f a).outcome st₁ = (.ok b, st') := by
  rw [outcome_bind]
  obtain ⟨r, st₁⟩ := x.outcome st
  cases r with
  | error e => exact ⟨nofun, by rintro ⟨_, _, ⟨⟩, _⟩⟩
  | ok a => exact ⟨fun h => ⟨a, st₁, rfl, h⟩, by rintro ⟨_, _, ⟨⟩, h⟩; exact h⟩

theorem outcome_bind_error {x : Task ε (StateM σ) α} {f : α → Task ε (StateM σ) β} {e : ε} :
    (x >>= f).outcome st = (.error e, st') ↔
      x.outcome st = (.error e, st') ∨ ∃ a st₁, x.outcome st = (.ok a, st₁) ∧ (f a).outcome st₁ = (.error e, st') := by
  rw [outcome_bind]
  obtain ⟨r, st₁⟩ := x.outcome st
  cases r with
  | error e' =>
    constructor
    · rintro ⟨⟩
      exact .inl rfl
    · rintro (⟨⟨⟩⟩ | ⟨_, _, ⟨⟩, _⟩)
      rfl
  | ok a => exact ⟨fun h => .inr ⟨a, st₁, rfl, h⟩, by rintro (⟨⟨⟩⟩ | ⟨_, _, ⟨⟩, h⟩); exact h⟩

end Task

open CiWorkflow.Task

variable {handle : β → Task ε (StateM σ) α} {d : β} {ds before after : List β} {a : α} {as : List α} {e : ε}

/-- Calls of a handler, one behind the other, that all succeed, and what they give. -/
inductive Succeed (handle : β → Task ε (StateM σ) α) :
    List β → List Event × σ → List α → List Event × σ → Prop where
  | nil (st : List Event × σ) : Succeed handle [] st [] st
  | cons {d : β} {ds : List β} {a : α} {as : List α} {st st₁ st' : List Event × σ}
      (h : (handle d).outcome st = (.ok a, st₁)) (hs : Succeed handle ds st₁ as st') :
      Succeed handle (d :: ds) st (a :: as) st'

/-- Calls that succeed up to one that fails. Nothing is called behind it. -/
def FailsAt (handle : β → Task ε (StateM σ) α) (ds : List β) (st : List Event × σ) (e : ε) (st' : List Event × σ) :
    Prop :=
  ∃ before d after as st₁, ds = before ++ d :: after ∧ Succeed handle before st as st₁ ∧
    (handle d).outcome st₁ = (.error e, st')

theorem Succeed.length_eq (h : Succeed handle ds st as st') : as.length = ds.length := by
  induction h with
  | nil => rfl
  | cons _ _ ih => rw [List.length_cons, List.length_cons, ih]

theorem failsAt_cons_iff : FailsAt handle (d :: ds) st e st' ↔
    (handle d).outcome st = (.error e, st') ∨
      ∃ a st₁, (handle d).outcome st = (.ok a, st₁) ∧ FailsAt handle ds st₁ e st' := by
  constructor
  · rintro ⟨before, d', after, as, st₁, hds, hbefore, hfail⟩
    cases hbefore with
    | nil =>
      cases hds
      exact .inl hfail
    | cons h hs =>
      cases hds
      exact .inr ⟨_, _, h, _, d', after, _, st₁, rfl, hs, hfail⟩
  · rintro (hfail | ⟨a, st₁, h, before, d', after, as, st₂, rfl, hbefore, hfail⟩)
    · exact ⟨[], d, ds, [], st, rfl, .nil st, hfail⟩
    · exact ⟨d :: before, d', after, a :: as, st₂, rfl, .cons h hbefore, hfail⟩

theorem mapM_outcome_ok_iff : (ds.mapM handle).outcome st = (.ok as, st') ↔ Succeed handle ds st as st' := by
  induction ds generalizing st as with
  | nil =>
    rw [List.mapM_nil, outcome_pure]
    constructor
    · rintro ⟨⟩
      exact .nil _
    · rintro ⟨⟩
      rfl
  | cons d ds ih =>
    rw [List.mapM_cons, outcome_bind_ok]
    constructor
    · rintro ⟨a, st₁, h, hrest⟩
      obtain ⟨as, st₂, hs, hpure⟩ := outcome_bind_ok.mp hrest
      cases hpure
      exact .cons h (ih.mp hs)
    · rintro (_ | ⟨h, hs⟩)
      exact ⟨_, _, h, outcome_bind_ok.mpr ⟨_, _, ih.mpr hs, rfl⟩⟩

theorem mapM_outcome_error_iff : (ds.mapM handle).outcome st = (.error e, st') ↔ FailsAt handle ds st e st' := by
  induction ds generalizing st with
  | nil =>
    rw [List.mapM_nil, outcome_pure]
    constructor
    · rintro ⟨⟩
    · rintro ⟨before, d, after, _, _, hds, -⟩
      simp at hds
  | cons d ds ih =>
    rw [List.mapM_cons, failsAt_cons_iff, outcome_bind_error]
    refine or_congr_right (exists_congr fun a => exists_congr fun st₁ => and_congr_right fun _ => ?_)
    rw [outcome_bind_error, ih]
    -- putting the results together never fails
    exact or_iff_left fun ⟨_, _, _, hpure⟩ => nomatch hpure

section

variable {ds : List Definition} {handle : Definition → Task ε (StateM σ) α}

theorem handleAll_outcome_ok_iff : (handleAll handle ds).outcome st = (.ok as, st') ↔
    ∃ events s, Succeed handle ds st as (events, s) ∧ st' = (events ++ [counted ds.length], s) := by
  rw [handleAll, outcome_bind_ok]
  constructor
  · rintro ⟨as, ⟨events, s⟩, hs, hrest⟩
    obtain ⟨_, _, ⟨⟩, ⟨⟩⟩ := outcome_bind_ok.mp hrest
    exact ⟨events, s, mapM_outcome_ok_iff.mp hs, rfl⟩
  · rintro ⟨events, s, hs, rfl⟩
    exact ⟨as, (events, s), mapM_outcome_ok_iff.mpr hs, rfl⟩

theorem handleAll_outcome_error_iff :
    (handleAll handle ds).outcome st = (.error e, st') ↔ FailsAt handle ds st e st' := by
  rw [handleAll, outcome_bind_error, mapM_outcome_error_iff]
  exact or_iff_left fun ⟨_, _, _, hreport⟩ => nomatch hreport

end

end CiWorkflow
