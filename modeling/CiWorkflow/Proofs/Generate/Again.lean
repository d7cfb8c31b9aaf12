import CiWorkflow.Proofs.Files.Again
import CiWorkflow.Proofs.Generate.Output

/-!
# Generating again

Writing the file of a definition a second time, in any later tree, puts the same text at the same place. So
writing all definitions again leaves the tree as the first time has left it: what a later definition replaced
then, it replaces again.
-/
set_option autoImplicit false

namespace CiWorkflow.Task

open Log CiWorkflow.Tree

variable {ε α β : Type} {x : Task ε (StateM Tree) α} {f : α → Task ε (StateM Tree) β} {t t₁ t' : Tree} {a : α} {b : β}
  {p : Place} {bytes : ByteArray} {ws : List (Place × ByteArray)}

/-- A task that writes a file, and in any later tree writes the same file at the same place. -/
structure WritesFile (x : Task ε (StateM Tree) α) (t : Tree) (a : α) (t' : Tree) (p : Place) (bytes : ByteArray) :
    Prop where
  file : t'.get? p = some (.file bytes)
  grows : Grows (· = p) t t'
  again : ∀ u, Later t' u → Runs x u (.ok a) (u.put p (.file bytes))

theorem WritesFile.behind (h : WritesFile (f a) t₁ b t' p bytes) (hgrows : Grows (· = p) t t₁)
    (hx : ∀ u, Later t₁ u → Runs x u (.ok a) u) : WritesFile (x >>= f) t b t' p bytes where
  file := h.file
  grows := hgrows.trans h.grows
  again u hu := (hx u ((h.grows.mono fun _ _ => trivial).trans hu)).bind (h.again u hu)

/-- A task that writes files one after another, and in any later tree writes the same files. -/
structure WritesFiles (x : Task ε (StateM Tree) α) (t : Tree) (a : α) (t' : Tree) (ws : List (Place × ByteArray)) :
    Prop where
  grows : Grows (· ∈ ws.map Prod.fst) t t'
  files : ∀ p ∈ ws.map Prod.fst, ∃ bytes, t'.get? p = some (.file bytes)
  settled : t'.putFiles ws = t'
  again : ∀ u, Later t' u → Runs x u (.ok a) (u.putFiles ws)

namespace WritesFiles

theorem nil (a : α) (t : Tree) : WritesFiles (pure a : Task ε (StateM Tree) α) t a t [] where
  grows := .refl t
  files _ hp := nomatch hp
  settled := rfl
  again u _ := .pure a u

theorem cons (hx : WritesFile x t a t₁ p bytes) (hf : WritesFiles (f a) t₁ b t' ws) :
    WritesFiles (x >>= f) t b t' ((p, bytes) :: ws) := by
  have hlater : Later t₁ t' := hf.grows.mono fun _ _ => trivial
  obtain ⟨last, hlast⟩ : ∃ last, t'.get? p = some (.file last) := (hlater.file hx.file).elim (⟨_, ·⟩) fun h => h.2
  refine ⟨?_, ?_, ?_, fun u hu => ?_⟩
  · exact (hx.grows.mono fun q hq => by simp [hq]).trans (hf.grows.mono fun q hq => by
      rw [List.map_cons]
      exact List.mem_cons_of_mem _ hq)
  · rw [List.map_cons, List.forall_mem_cons]
    exact ⟨⟨last, hlast⟩, hf.files⟩
  · rw [putFiles_cons]
    by_cases hagain : p ∈ ws.map Prod.fst
    · rw [putFiles_put hagain (mem_places_of_file hlast), hf.settled]
    · -- nothing behind it wrote to its place, so its content is there
      rw [put_eq_self ((hf.grows.file hx.file).resolve_right fun h => hagain h.1), hf.settled]
  · obtain ⟨old, hold⟩ : ∃ old, u.get? p = some (.file old) := (hu.file hlast).elim (⟨_, ·⟩) fun h => h.2
    have hput : Later t' (u.put p (.file bytes)) := hu.trans (.put_file bytes hold trivial)
    exact (hx.again u (hlater.trans hu)).bind (hf.again _ hput)

theorem pass (hx : WritesFiles x t a t' ws) (hf : ∀ u, Runs (f a) u (.ok b) u) : WritesFiles (x >>= f) t b t' ws where
  grows := hx.grows
  files := hx.files
  settled := hx.settled
  again u hu := (hx.again u hu).bind (hf _)

/-- A second time the same files are written, and the tree stays as it is. -/
theorem runs_again (h : WritesFiles x t a t' ws) : Runs x t' (.ok a) t' := by
  have hagain := h.again t' (.refl t')
  rwa [h.settled] at hagain

end WritesFiles

end CiWorkflow.Task

namespace CiWorkflow

open Log CiWorkflow.Task CiWorkflow.Tree

theorem exists_runs_writeFile_again (path text : String) (t : Tree) :
    ∃ r t', Runs (writeFile path text) t r t' ∧
      (r = .ok () → ∃ p, WritesFile (writeFile path text) t () t' p text.toUTF8) := by
  have hruns := runs_writeFile t path text
  rw [Tree.write] at hruns
  cases hwrite : t.writeBytes path text.toUTF8 with
  | error fault =>
    rw [hwrite] at hruns
    exact ⟨_, t, hruns, by rintro ⟨⟩⟩
  | ok t' =>
    rw [hwrite] at hruns
    obtain ⟨p, hfile, hgrows, hagain⟩ := writeBytes_again hwrite
    refine ⟨_, t', hruns, fun _ => ⟨p, hfile, hgrows, fun u hu => ?_⟩⟩
    have hruns := runs_writeFile u path text
    rwa [Tree.write, hagain u hu] at hruns

theorem exists_runs_writeOutput_again (path text : String) (t : Tree) :
    ∃ r t', Runs (writeOutput path text) t r t' ∧
      (r = .ok () → ∃ p, WritesFile (writeOutput path text) t () t' p text.toUTF8) := by
  obtain h | ⟨parent, hne, h⟩ := writeOutput_eq path text
  · rw [h]
    exact exists_runs_writeFile_again path text t
  · rw [h]
    have hcreate := runs_createDirectories t parent
    cases hresult : (t.createDirectories parent).1 with
    | error fault =>
      rw [hresult] at hcreate
      exact ⟨.error _, _, hcreate.fail, by rintro ⟨⟩⟩
    | ok _ =>
      rw [hresult] at hcreate
      obtain ⟨r, t', hruns, hagain⟩ := exists_runs_writeFile_again path text (t.createDirectories parent).2
      refine ⟨r, t', hcreate.bind hruns, fun hr => ?_⟩
      obtain ⟨p, hp⟩ := hagain hr
      refine ⟨p, WritesFile.behind (a := ()) hp (grows_createDirectories t parent) fun u hu => ?_⟩
      have hcreate := runs_createDirectories u parent
      rwa [createDirectories_again hne hresult hu] at hcreate

theorem exists_runs_writeDefinition_again (s : GeneratorSettings) (d : Definition) (t : Tree) :
    ∃ r t', Runs (writeDefinition s d) t r t' ∧
      (r = .ok () → ∃ p bytes, WritesFile (writeDefinition s d) t () t' p bytes) := by
  have hrender := runs_renderWorkflow s.renderer d.workflow
  cases htext : s.renderer.render d.workflow with
  | error e =>
    rw [htext] at hrender
    exact ⟨.error e, t, (hrender t).fail, nofun⟩
  | ok text =>
    rw [htext] at hrender
    obtain ⟨r, t', hruns, hagain⟩ := exists_runs_writeOutput_again d.output text t
    refine ⟨r, t', (hrender t).bind hruns, fun hr => ?_⟩
    obtain ⟨p, hp⟩ := hagain hr
    exact ⟨p, _, hp.behind (.refl t) fun u _ => hrender u⟩

/-- When all definitions have been written, writing them again leaves the tree as it is. -/
theorem exists_runs_writeAll_again (s : GeneratorSettings) (ds : List Definition) (t : Tree) :
    ∃ r t', Runs (ds.mapM (writeDefinition s)) t r t' ∧
      ∀ us, r = .ok us → ∃ ws, WritesFiles (ds.mapM (writeDefinition s)) t us t' ws := by
  induction ds generalizing t with
  | nil =>
    rw [List.mapM_nil]
    refine ⟨_, t, .pure [] t, fun us hus => ⟨[], ?_⟩⟩
    cases hus
    exact .nil [] t
  | cons d ds ih =>
    obtain ⟨r, t₁, hruns, hagain⟩ := exists_runs_writeDefinition_again s d t
    rw [List.mapM_cons]
    cases r with
    | error e => exact ⟨.error e, t₁, hruns.fail, nofun⟩
    | ok _ =>
      obtain ⟨p, bytes, hp⟩ := hagain rfl
      obtain ⟨r, t', hrest, hagainRest⟩ := ih t₁
      cases r with
      | error e => exact ⟨.error e, t', hruns.bind hrest.fail, nofun⟩
      | ok us =>
        obtain ⟨ws, hws⟩ := hagainRest us rfl
        refine ⟨_, t', hruns.bind (hrest.bind (.pure _ t')), fun all hall => ⟨(p, bytes) :: ws, ?_⟩⟩
        cases hall
        exact .cons hp (hws.pass fun u => .pure _ u)

end CiWorkflow
