import CiWorkflow.Proofs.Files.Path

set_option autoImplicit false

namespace CiWorkflow.Tree

open Text

variable {t t' t'' : Tree} {path : String} {p q : Place} {bytes : ByteArray}

def HasNames (place : Place) : Prop := ∀ name ∈ place, '/' ∉ name.toList

structure IsNamed (t : Tree) : Prop where
  base : HasNames t.base
  entries : ∀ p ∈ t.entries.map Prod.fst, HasNames p

/-- A later tree has the directories of an earlier one, its files with the same contents except at some
`outputs`, and further places. -/
structure Grows (outputs : Place → Prop) (t t' : Tree) : Prop where
  base : t'.base = t.base
  named : t.IsNamed → t'.IsNamed
  directory : ∀ {p}, t.get? p = some .directory → t'.get? p = some .directory
  file : ∀ {p bytes}, t.get? p = some (.file bytes) →
    t'.get? p = some (.file bytes) ∨ outputs p ∧ ∃ new, t'.get? p = some (.file new)
  earlier : ∀ {p bytes}, t'.get? p = some (.file bytes) → t.get? p = some (.file bytes) ∨ outputs p
  places : ∃ further, t'.entries.map Prod.fst = t.entries.map Prod.fst ++ further ∧
    ∀ p ∈ further, t.get? p = none

theorem ne_nil_of_get_none (h : t.get? p = none) : p ≠ [] := by
  rintro rfl
  cases h

theorem ne_nil_of_get_file (h : t.get? p = some (.file bytes)) : p ≠ [] := by
  rintro rfl
  cases h

theorem entryAt?_eq_none_iff {es : List (Place × TreeEntry)} : entryAt? p es = none ↔ p ∉ es.map Prod.fst := by
  induction es with
  | nil => simp [entryAt?]
  | cons e es ih =>
    rw [entryAt?]
    split <;> simp_all [eq_comm]

theorem fst_putAt (p : Place) (e : TreeEntry) (es : List (Place × TreeEntry)) :
    (putAt p e es).map Prod.fst =
      if p ∈ es.map Prod.fst then es.map Prod.fst else es.map Prod.fst ++ [p] := by
  induction es with
  | nil => rfl
  | cons f es ih =>
    rw [putAt]
    by_cases hf : f.1 = p
    · simp [hf]
    · simp only [hf, ↓reduceIte, List.map_cons, ih, List.mem_cons, Ne.symm hf, false_or]
      split <;> rfl

theorem fst_put_of_none (e : TreeEntry) (h : t.get? p = none) :
    (t.put p e).entries.map Prod.fst = t.entries.map Prod.fst ++ [p] := by
  have hne := ne_nil_of_get_none h
  rw [get?, List.isEmpty_eq_false_iff.mpr hne] at h
  rw [put, fst_putAt, if_neg (entryAt?_eq_none_iff.mp h)]

theorem mem_places_of_file (h : t.get? p = some (.file bytes)) : p ∈ t.entries.map Prod.fst := by
  rw [get?, List.isEmpty_eq_false_iff.mpr (ne_nil_of_get_file h)] at h
  refine Decidable.not_not.mp fun hmem => ?_
  rw [entryAt?_eq_none_iff.mpr hmem] at h
  cases h

theorem fst_put_of_file (e : TreeEntry) (h : t.get? p = some (.file bytes)) :
    (t.put p e).entries.map Prod.fst = t.entries.map Prod.fst := by
  rw [put, fst_putAt, if_pos (mem_places_of_file h)]

namespace Grows

variable {outputs : Place → Prop}

theorem refl (t : Tree) : Grows outputs t t :=
  ⟨rfl, id, id, .inl, .inl, [], by simp, by simp⟩

theorem trans (h : Grows outputs t t') (h' : Grows outputs t' t'') : Grows outputs t t'' where
  base := h'.base.trans h.base
  named := h'.named ∘ h.named
  directory := h'.directory ∘ h.directory
  file hfile := by
    obtain hsame | ⟨hout, new, hnew⟩ := h.file hfile
    · exact h'.file hsame
    · obtain hsame | ⟨-, newer, hnewer⟩ := h'.file hnew
      · exact .inr ⟨hout, new, hsame⟩
      · exact .inr ⟨hout, newer, hnewer⟩
  earlier hfile := (h'.earlier hfile).elim h.earlier .inr
  places := by
    obtain ⟨further, hfurther, hnone⟩ := h.places
    obtain ⟨others, hothers, hnone'⟩ := h'.places
    refine ⟨further ++ others, by rw [hothers, hfurther, List.append_assoc], fun p hp => ?_⟩
    obtain hp | hp := List.mem_append.mp hp
    · exact hnone p hp
    · -- what the earlier tree has at a place, the later one has in some form
      cases hget : t.get? p with
      | none => rfl
      | some e =>
        have habsent := hnone' p hp
        cases e with
        | directory => cases habsent.symm.trans (h.directory hget)
        | file bytes =>
          obtain hsame | ⟨-, new, hnew⟩ := h.file hget
          · cases habsent.symm.trans hsame
          · cases habsent.symm.trans hnew

theorem mono {others : Place → Prop} (h : Grows outputs t t') (ho : ∀ p, outputs p → others p) :
    Grows others t t' where
  base := h.base
  named := h.named
  directory := h.directory
  file hfile := (h.file hfile).imp_right fun hnew => ⟨ho _ hnew.1, hnew.2⟩
  earlier hfile := (h.earlier hfile).imp_right (ho _)
  places := h.places

theorem put_new (e : TreeEntry) (h : t.get? p = none) (hp : t.IsNamed → HasNames p) (he : e = .directory ∨ outputs p) :
    Grows outputs t (t.put p e) where
  base := rfl
  named ht := by
    refine ⟨ht.base, fun q hq => ?_⟩
    rw [fst_put_of_none e h, List.mem_append, List.mem_singleton] at hq
    obtain hq | rfl := hq
    · exact ht.entries q hq
    · exact hp ht
  directory {q} hq := by
    rw [get?_put t p q e (ne_nil_of_get_none h), if_neg]
    · exact hq
    · rintro rfl
      cases h.symm.trans hq
  file {q bytes} hq := by
    refine .inl ?_
    rw [get?_put t p q e (ne_nil_of_get_none h), if_neg]
    · exact hq
    · rintro rfl
      cases h.symm.trans hq
  earlier {q bytes} hq := by
    rw [get?_put t p q e (ne_nil_of_get_none h)] at hq
    split at hq
    · rename_i hplace
      subst hplace
      cases hq
      exact .inr (he.resolve_left nofun)
    · exact .inl hq
  places := ⟨[p], fst_put_of_none e h, by simpa using h⟩

theorem put_file (new : ByteArray) (h : t.get? p = some (.file bytes)) (hp : outputs p) :
    Grows outputs t (t.put p (.file new)) where
  base := rfl
  named ht := ⟨ht.base, by rw [fst_put_of_file _ h]; exact ht.entries⟩
  directory {q} hq := by
    rw [get?_put t p q _ (ne_nil_of_get_file h), if_neg]
    · exact hq
    · rintro rfl
      cases h.symm.trans hq
  file {q bytes} hq := by
    rw [get?_put t p q _ (ne_nil_of_get_file h)]
    split
    · rename_i hplace
      exact .inr ⟨hplace ▸ hp, new, rfl⟩
    · exact .inl hq
  earlier {q bytes} hq := by
    rw [get?_put t p q _ (ne_nil_of_get_file h)] at hq
    split at hq
    · rename_i hplace
      exact .inr (hplace ▸ hp)
    · exact .inl hq
  places := ⟨[], by rw [fst_put_of_file _ h, List.append_nil], by simp⟩

theorem follow (h : Grows outputs t t') {names : List String} (hq : t.follow p names = .ok q) :
    t'.follow p names = .ok q := by
  induction names generalizing p with
  | nil => exact hq
  | cons name names ih =>
    rw [Tree.follow] at hq ⊢
    cases hp : t.get? p with
    | none => rw [hp] at hq; cases hq
    | some e =>
      cases e with
      | file bytes => rw [hp] at hq; cases hq
      | directory =>
        rw [hp] at hq
        rw [h.directory hp]
        simp only at hq ⊢
        split <;> rename_i hself
        · exact ih (by rwa [if_pos hself] at hq)
        · rw [if_neg hself] at hq
          split <;> rename_i hparent
          · exact ih (by rwa [if_pos hparent] at hq)
          · rw [if_neg hparent] at hq
            split <;> rename_i hlong
            · rw [if_pos hlong] at hq
              cases hq
            · exact ih (by rwa [if_neg hlong] at hq)

theorem locate (h : Grows outputs t t') (hp : t.locate path = .ok p) : t'.locate path = .ok p := by
  rw [locate_eq_ok_iff, startOf] at hp ⊢
  rw [h.base]
  exact ⟨hp.1, hp.2.1, h.follow hp.2.2⟩

theorem find_directory (h : Grows outputs t t') (hd : t.find path = .ok .directory) :
    t'.find path = .ok .directory := by
  obtain ⟨p, hp, hget, hmeans⟩ := find_eq_ok_iff.mp hd
  exact find_eq_ok_iff.mpr ⟨p, h.locate hp, h.directory hget, hmeans⟩

theorem find_file (h : Grows outputs t t') (hf : t.find path = .ok (.file bytes))
    (hout : ∀ p, t.locate path = .ok p → ¬ outputs p) : t'.find path = .ok (.file bytes) := by
  obtain ⟨p, hp, hget, hmeans⟩ := find_eq_ok_iff.mp hf
  exact find_eq_ok_iff.mpr ⟨p, h.locate hp, (h.file hget).resolve_right fun hnew => hout p hp hnew.1, hmeans⟩

end Grows

/-- What the places on the way have of a property, the names that are added to them have too. -/
theorem forall_of_follow {P : String → Prop} {names : List String}
    (hnames : ∀ name ∈ names, name ≠ "." → name ≠ ".." → name.utf8ByteSize ≤ nameLimit → P name)
    (hp : ∀ name ∈ p, P name) (hq : t.follow p names = .ok q) : ∀ name ∈ q, P name := by
  induction names generalizing p with
  | nil =>
    cases hq
    exact hp
  | cons name names ih =>
    rw [List.forall_mem_cons] at hnames
    rw [follow] at hq
    split at hq
    · cases hq
    · cases hq
    · split at hq
      · exact ih hnames.2 hp hq
      · rename_i hself
        split at hq
        · exact ih hnames.2 (fun name hname => hp name (List.dropLast_subset _ hname)) hq
        · rename_i hparent
          split at hq
          · cases hq
          · rename_i hshort
            refine ih hnames.2 (fun other hother => ?_) hq
            obtain hother | hother := List.mem_append.mp hother
            · exact hp other hother
            · rw [List.mem_singleton.mp hother]
              exact hnames.1 hself hparent (Nat.le_of_not_lt hshort)

theorem hasNames_of_locate (ht : t.IsNamed) (hp : t.locate path = .ok p) : HasNames p := by
  obtain ⟨-, -, hfollow⟩ := locate_eq_ok_iff.mp hp
  refine forall_of_follow (fun name hname _ _ _ => ?_) ?_ hfollow
  · obtain ⟨piece, hpiece, rfl⟩ := List.mem_map.mp hname
    simpa using not_mem_of_mem_splitAt (List.mem_filter.mp hpiece).1
  · rw [startOf]
    split
    · intro name hname
      cases hname
    · exact ht.base

/-! ## Creating directories -/

section Keeps

variable {P : Tree → Prop}
  (hput : ∀ u path p, P u → u.locate path = .ok p → u.get? p = none → P (u.put p .directory))

include hput

theorem keeps_createDirectory (ht : P t) (h : t.createDirectory path = .ok t') : P t' := by
  rw [createDirectory, bind_eq_ok] at h
  obtain ⟨p, hp, h⟩ := h
  split at h
  · cases h
  · rename_i hnone
    cases h
    exact hput t path p ht hp hnone

theorem keeps_ensureDirectory (ht : P t) (path : String) : P (t.ensureDirectory path).2 := by
  rw [ensureDirectory]
  split
  · rename_i h
    exact keeps_createDirectory hput ht h
  · split <;> exact ht

theorem keeps_createDirectories (ht : P t) (path : String) : P (t.createDirectories path).2 := by
  have hall : ∀ paths, P (t.createAll paths).2 := by
    intro paths
    induction paths with
    | nil => exact ht
    | cons path parents ih =>
      rw [createAll]
      split
      · exact ht
      · split
        · split
          · rename_i h
            rw [h] at ih
            exact keeps_ensureDirectory hput ih path
          · exact ih
        · exact keeps_ensureDirectory hput ht path
  exact hall _

end Keeps

variable {outputs : Place → Prop}

theorem grows_put_directory (u : Tree) (path : String) (p : Place) (hu : Grows outputs t u)
    (hp : u.locate path = .ok p) (hnone : u.get? p = none) : Grows outputs t (u.put p .directory) :=
  hu.trans (.put_new _ hnone (fun hnamed => hasNames_of_locate hnamed hp) (.inl rfl))

theorem grows_of_createDirectory (h : t.createDirectory path = .ok t') : Grows outputs t t' :=
  keeps_createDirectory grows_put_directory (.refl t) h

theorem grows_createDirectories (t : Tree) (path : String) : Grows outputs t (t.createDirectories path).2 :=
  keeps_createDirectories grows_put_directory (.refl t) path

/-! ## Writing files -/

/-- A file is put where its path leads, if that is no directory and the path does not mean one. -/
theorem writeBytes_eq_ok_iff :
    t.writeBytes path bytes = .ok t' ↔ ∃ p, t.locate path = .ok p ∧ t.get? p ≠ some .directory ∧
      meansDirectory path = false ∧ t' = t.put p (.file bytes) := by
  rw [writeBytes, bind_eq_ok]
  refine exists_congr fun p => and_congr_right fun _ => ?_
  cases t.get? p with
  | none => cases meansDirectory path <;> simp [pure, Except.pure, eq_comm]
  | some e => cases e <;> cases meansDirectory path <;> simp [pure, Except.pure, eq_comm]

theorem ne_nil_of_get_ne (h : t.get? p ≠ some .directory) : p ≠ [] := by
  rintro rfl
  exact h rfl

theorem Grows.put_written (hp : t.locate path = .ok p) (hget : t.get? p ≠ some .directory) (hout : outputs p) :
    Grows outputs t (t.put p (.file bytes)) := by
  cases h : t.get? p with
  | none => exact .put_new _ h (fun ht => hasNames_of_locate ht hp) (.inr hout)
  | some e =>
    cases e with
    | directory => exact absurd h hget
    | file old => exact .put_file bytes h hout

/-- Writing a file changes the tree where the path leads, and there the file has the new content. -/
theorem of_writeBytes (h : t.writeBytes path bytes = .ok t') :
    Grows (fun p => t.locate path = .ok p) t t' ∧ t'.find path = .ok (.file bytes) := by
  obtain ⟨p, hp, hget, hmeans, rfl⟩ := writeBytes_eq_ok_iff.mp h
  have hgrows : Grows (fun p => t.locate path = .ok p) t (t.put p (.file bytes)) := .put_written hp hget hp
  refine ⟨hgrows, find_eq_ok_iff.mpr ⟨p, hgrows.locate hp, ?_, .inr hmeans⟩⟩
  rw [get?_put t p p _ (ne_nil_of_get_ne hget), if_pos rfl]

end CiWorkflow.Tree
