import CiWorkflow.Proofs.Files.Growth

/-!
# Writing again

What was written can be written again in any later tree: its directories are there, and its place is that of a
file. Writing the same files again, in the same order, leaves the tree as it is, also where a later one of them
replaced an earlier one.
-/
set_option autoImplicit false

namespace CiWorkflow.Tree

variable {t t' u : Tree} {path : String} {p q : Place} {bytes : ByteArray} {e f : TreeEntry}
  {es : List (Place × TreeEntry)}

/-- A later tree has the directories of an earlier one, and a file wherever that had one. -/
abbrev Later (t u : Tree) : Prop := Grows (fun _ => True) t u

/-! ## Entries put in again -/

theorem putAt_eq_self (h : entryAt? p es = some e) : putAt p e es = es := by
  induction es with
  | nil => cases h
  | cons g es ih =>
    rw [entryAt?] at h
    rw [putAt]
    split at h <;> rename_i hplace
    · cases h
      rw [if_pos hplace, ← hplace]
    · rw [if_neg hplace, ih h]

theorem putAt_putAt (p : Place) (e f : TreeEntry) (es : List (Place × TreeEntry)) :
    putAt p f (putAt p e es) = putAt p f es := by
  induction es with
  | nil => simp [putAt]
  | cons g es ih =>
    by_cases hplace : g.1 = p
    · simp [putAt, hplace]
    · simp [putAt, hplace, ih]

/-- Entries at two places can be put in either order, if one of the places is there already. -/
theorem putAt_comm (hp : p ∈ es.map Prod.fst) (hne : p ≠ q) : putAt q f (putAt p e es) = putAt p e (putAt q f es) := by
  induction es with
  | nil => cases hp
  | cons g es ih =>
    by_cases hplace : g.1 = p
    · simp [putAt, hplace, hne]
    · have hrest := ih ((List.mem_cons.mp hp).resolve_left (Ne.symm hplace))
      by_cases hother : g.1 = q
      · simp [putAt, hother, Ne.symm hne]
      · simp [putAt, hplace, hother, hrest]

theorem put_eq_self (h : t.get? p = some (.file bytes)) : t.put p (.file bytes) = t := by
  rw [get?, List.isEmpty_eq_false_iff.mpr (ne_nil_of_get_file h)] at h
  rw [put, putAt_eq_self h]

def putFiles (t : Tree) (ws : List (Place × ByteArray)) : Tree := ws.foldl (fun t w => t.put w.1 (.file w.2)) t

@[simp]
theorem putFiles_cons (t : Tree) (w : Place × ByteArray) (ws : List (Place × ByteArray)) :
    t.putFiles (w :: ws) = (t.put w.1 (.file w.2)).putFiles ws := rfl

theorem putFiles_put {ws : List (Place × ByteArray)} (hw : p ∈ ws.map Prod.fst) (hp : p ∈ t.entries.map Prod.fst) :
    (t.put p e).putFiles ws = t.putFiles ws := by
  induction ws generalizing t with
  | nil => cases hw
  | cons w ws ih =>
    rw [putFiles_cons, putFiles_cons]
    by_cases hplace : w.1 = p
    · rw [hplace, put, put, put, putAt_putAt]
    · have hcomm : (t.put p e).put w.1 (.file w.2) = (t.put w.1 (.file w.2)).put p e := by
        rw [put, put, put, put, putAt_comm hp (Ne.symm hplace)]
      have hthere : p ∈ (t.put w.1 (.file w.2)).entries.map Prod.fst := by
        rw [put, fst_putAt]
        split
        · exact hp
        · exact List.mem_append_left _ hp
      rw [hcomm, ih ((List.mem_cons.mp hw).resolve_left (Ne.symm hplace)) hthere]

/-! ## Directories created again -/

theorem createDirectory_of_find (h : t.find path = .ok .directory) :
    t.createDirectory path = .error .alreadyExists := by
  obtain ⟨p, hp, hget, -⟩ := find_eq_ok_iff.mp h
  simp [createDirectory, hp, hget, bind, Except.bind]

theorem ensureDirectory_of_find (h : t.find path = .ok .directory) : t.ensureDirectory path = (.ok (), t) := by
  have hdir : t.isDirectory path = true := by rw [isDirectory, h]
  rw [ensureDirectory, createDirectory_of_find h]
  simp only [hdir, if_true]

/-- The first of the directories to be created is the one that is asked for. -/
theorem exists_withParents (path : String) : ∃ parents, withParents path.length path = path :: parents := by
  cases path.length <;> exact ⟨_, rfl⟩

theorem createDirectories_of_find (h : t.find path = .ok .directory) : t.createDirectories path = (.ok (), t) := by
  obtain ⟨parents, hparents⟩ := exists_withParents path
  rw [createDirectories, hparents, createAll]
  split
  · rfl
  · simp only [createDirectory_of_find h, ensureDirectory_of_find h]

theorem find_ensureDirectory (h : (t.ensureDirectory path).1 = .ok ()) :
    (t.ensureDirectory path).2.find path = .ok .directory := by
  rw [ensureDirectory] at h ⊢
  cases hcreate : t.createDirectory path with
  | ok t' =>
    rw [hcreate] at h
    have hgrows : Grows (fun _ => True) t t' := grows_of_createDirectory hcreate
    rw [createDirectory, bind_eq_ok] at hcreate
    obtain ⟨p, hp, hput⟩ := hcreate
    split at hput
    · cases hput
    · rename_i hnone
      cases hput
      exact find_eq_ok_iff.mpr ⟨p, hgrows.locate hp, by rw [get?_put t p p _ (ne_nil_of_get_none hnone), if_pos rfl],
        .inl rfl⟩
  | error fault =>
    rw [hcreate] at h
    simp only at h ⊢
    split at h
    · rename_i hdir
      rw [if_pos hdir]
      rw [isDirectory] at hdir
      split at hdir
      · assumption
      · cases hdir
    · cases h

theorem find_createDirectories (hne : path ≠ "") (h : (t.createDirectories path).1 = .ok ()) :
    (t.createDirectories path).2.find path = .ok .directory := by
  obtain ⟨parents, hparents⟩ := exists_withParents path
  rw [createDirectories, hparents, createAll] at h ⊢
  have hempty : path.isEmpty = false := by simpa using hne
  simp only [hempty, Bool.false_eq_true, ↓reduceIte] at h ⊢
  split at h
  · split at h
    · exact find_ensureDirectory h
    · rename_i hfail
      exact (hfail _ (Prod.ext h rfl)).elim
  · exact find_ensureDirectory h

theorem createDirectories_again (hne : path ≠ "") (h : (t.createDirectories path).1 = .ok ())
    (hu : Later (t.createDirectories path).2 u) : u.createDirectories path = (.ok (), u) :=
  createDirectories_of_find (hu.find_directory (find_createDirectories hne h))

/-! ## A file written again -/

/-- A file that was written is put where it was, whatever happened in between. -/
theorem writeBytes_again (h : t.writeBytes path bytes = .ok t') :
    ∃ p, t'.get? p = some (.file bytes) ∧ Grows (· = p) t t' ∧
      ∀ u, Later t' u → u.writeBytes path bytes = .ok (u.put p (.file bytes)) := by
  obtain ⟨p, hp, hold, hmeans, rfl⟩ := writeBytes_eq_ok_iff.mp h
  have hgrows : Grows (· = p) t (t.put p (.file bytes)) := .put_written hp hold rfl
  have hget : (t.put p (.file bytes)).get? p = some (.file bytes) := by
    rw [get?_put t p p _ (ne_nil_of_get_ne hold), if_pos rfl]
  refine ⟨p, hget, hgrows, fun u hu => ?_⟩
  obtain ⟨other, hother⟩ : ∃ other, u.get? p = some (.file other) :=
    (hu.file hget).elim (⟨_, ·⟩) fun hnew => hnew.2
  simp [writeBytes, hu.locate (hgrows.locate hp), hother, hmeans, bind, Except.bind, pure, Except.pure]

end CiWorkflow.Tree
