import CiWorkflow.Proofs.Files.Growth
import Mathlib.Data.List.Nodup

/-!
# What a directory lists

A directory lists each of its names once. In which order it does depends on the tree, but not on what the tree
holds, and what a path leads to depends on that alone. The file behind a listed name is the one at the place
of the name.
-/
set_option autoImplicit false

namespace CiWorkflow

open Text

structure IsEntryName (name : String) : Prop extends IsName name where
  noNul : '\x00' ∉ name.toList
  short : name.utf8ByteSize ≤ Tree.nameLimit

instance (name : String) : Decidable (IsEntryName name) :=
  decidable_of_iff (('/' ∉ name.toList ∧ name ≠ "" ∧ name ≠ "." ∧ name ≠ "..") ∧ '\x00' ∉ name.toList ∧
      name.utf8ByteSize ≤ Tree.nameLimit)
    ⟨fun ⟨⟨hslash, hempty, hself, hparent⟩, hnul, hshort⟩ => ⟨⟨hslash, hempty, hself, hparent⟩, hnul, hshort⟩,
      fun h => ⟨⟨h.noSlash, h.notEmpty, h.notSelf, h.notParent⟩, h.noNul, h.short⟩⟩

namespace Tree

variable {t t' : Tree} {p q : Place} {path dir name : String} {bytes : ByteArray} {ns : List String}

/-- The places of a tree are made of names that directories can hold, and none of them stands there twice. -/
structure IsProper (t : Tree) : Prop where
  base : ∀ name ∈ t.base, IsEntryName name
  entries : ∀ p ∈ t.entries.map Prod.fst, ∀ name ∈ p, IsEntryName name
  once : (t.entries.map Prod.fst).Nodup

/-! ## Operations keep a tree proper -/

theorem of_mem_pathNames (h : name ∈ pathNames path) :
    '/' ∉ name.toList ∧ name ≠ "" ∧ ∀ c ∈ name.toList, c ∈ path.toList := by
  obtain ⟨piece, hpiece, rfl⟩ := List.mem_map.mp h
  obtain ⟨hpiece, hne⟩ := List.mem_filter.mp hpiece
  rw [String.toList_ofList]
  refine ⟨not_mem_of_mem_splitAt hpiece, ?_, fun c hc => mem_of_mem_splitAt hpiece hc⟩
  simpa using hne

theorem isEntryName_of_locate (ht : t.IsProper) (hp : t.locate path = .ok p) : ∀ name ∈ p, IsEntryName name := by
  obtain ⟨-, hnul, hfollow⟩ := locate_eq_ok_iff.mp hp
  refine forall_of_follow (fun name hname hself hparent hshort => ?_) ?_ hfollow
  · obtain ⟨hslash, hempty, hchars⟩ := of_mem_pathNames hname
    exact ⟨⟨hslash, hempty, hself, hparent⟩, fun hmem => hnul (hchars _ hmem), hshort⟩
  · rw [startOf]
    split
    · intro name hname
      cases hname
    · exact ht.base

theorem isProper_ofBase {base : String} (h : IsEntryName base) : (ofBase base).IsProper :=
  ⟨by simpa [ofBase] using h, by simpa [ofBase] using h, by simp [ofBase]⟩

namespace IsProper

theorem put (ht : t.IsProper) (hp : t.locate path = .ok p) (e : TreeEntry) : (t.put p e).IsProper := by
  have hplaces := fst_putAt p e t.entries
  refine ⟨ht.base, ?_, ?_⟩ <;> rw [Tree.put, hplaces] <;> split
  · exact ht.entries
  · rw [List.forall_mem_append, List.forall_mem_singleton]
    exact ⟨ht.entries, isEntryName_of_locate ht hp⟩
  · exact ht.once
  · rename_i hnew
    exact List.nodup_append_comm.mpr (List.nodup_cons.mpr ⟨hnew, ht.once⟩)

theorem createDirectories (ht : t.IsProper) (path : String) : (t.createDirectories path).2.IsProper :=
  keeps_createDirectories (fun _ _ _ hu hp _ => hu.put hp .directory) ht path

theorem write (ht : t.IsProper) (path text : String) : (t.write path text).2.IsProper := by
  rw [Tree.write]
  split
  · rename_i h
    obtain ⟨p, hp, -, -, rfl⟩ := writeBytes_eq_ok_iff.mp h
    exact ht.put hp _
  · exact ht

end IsProper

/-! ## Trees that hold the same -/

/-- The trees have the same at every place, though they may list it in different orders. -/
structure HoldsSame (t t' : Tree) : Prop where
  base : t'.base = t.base
  get : ∀ p, t'.get? p = t.get? p

namespace HoldsSame

variable (h : HoldsSame t t')

include h

theorem follow (p : Place) (names : List String) : t'.follow p names = t.follow p names := by
  induction names generalizing p with
  | nil => rfl
  | cons name names ih => simp only [Tree.follow, h.get, ih]

theorem locate (path : String) : t'.locate path = t.locate path := by
  simp only [Tree.locate, h.base, h.follow]

theorem find (path : String) : t'.find path = t.find path := by
  simp only [Tree.find, h.locate, h.get]

theorem read (path : String) : t'.read path = t.read path := by
  simp only [Tree.read, h.find]

end HoldsSame

/-! ## The names in a directory -/

theorem isFile_iff : t.isFile path = true ↔ ∃ bytes, t.find path = .ok (.file bytes) := by
  rw [isFile]
  cases t.find path with
  | error fault => simp
  | ok e => cases e <;> simp

theorem nameIn?_eq_some_iff : nameIn? p q = some name ↔ q = p ++ [name] := by
  rw [nameIn?]
  cases hq : q.getLast? with
  | none => simp_all
  | some last =>
    obtain ⟨front, rfl⟩ := List.getLast?_eq_some_iff.mp hq
    simp only [List.dropLast_concat]
    split
    · rename_i hfront
      subst hfront
      simp
    · rename_i hne
      simp [hne]

theorem names_eq_ok_iff :
    t.names path = .ok ns ↔ t.find path = .ok .directory ∧
      ∃ p, t.locate path = .ok p ∧ ns = (t.entries.map Prod.fst).filterMap (nameIn? p) := by
  rw [names, bind_eq_ok]
  constructor
  · rintro ⟨e, he, h⟩
    cases e with
    | file bytes => cases h
    | directory =>
      obtain ⟨p, hp, h⟩ := bind_eq_ok.mp h
      cases h
      exact ⟨he, p, hp, by rw [List.filterMap_map]; rfl⟩
  · rintro ⟨he, p, hp, rfl⟩
    refine ⟨_, he, bind_eq_ok.mpr ⟨p, hp, ?_⟩⟩
    rw [List.filterMap_map]
    rfl

theorem nodup_names (ht : t.IsProper) (hns : t.names dir = .ok ns) : ns.Nodup := by
  obtain ⟨-, p, -, rfl⟩ := names_eq_ok_iff.mp hns
  refine ht.once.filterMap fun q r name hq hr => ?_
  rw [nameIn?_eq_some_iff.mp hq, nameIn?_eq_some_iff.mp hr]

theorem mem_names_iff (hp : t.locate dir = .ok p) (hns : t.names dir = .ok ns) :
    name ∈ ns ↔ p ++ [name] ∈ t.entries.map Prod.fst := by
  obtain ⟨-, q, hq, rfl⟩ := names_eq_ok_iff.mp hns
  cases hq.symm.trans hp
  rw [List.mem_filterMap]
  constructor
  · rintro ⟨r, hr, hname⟩
    rwa [nameIn?_eq_some_iff.mp hname] at hr
  · exact fun hmem => ⟨_, hmem, nameIn?_eq_some_iff.mpr rfl⟩

theorem meansDirectory_join (dir : String) (h : IsName name) : meansDirectory (Path.join dir name) = false := by
  have hne : name.toList ≠ [] := by simpa using h.notEmpty
  have hlast : (Path.join dir name).toList.getLast? = name.toList.getLast? := by
    obtain ⟨-, hjoin⟩ | ⟨front, -, hjoin⟩ := toList_join dir h
    · rw [hjoin]
    · rw [hjoin, List.getLast?_append, List.getLast?_cons_of_ne_nil hne]
      simp [List.getLast?_eq_some_getLast hne]
  rw [meansDirectory, hlast, decide_eq_false_iff_not]
  exact fun hslash => h.noSlash (List.mem_of_getLast? hslash)

theorem find_join_eq_file_iff (hname : IsEntryName name) (hdir : t.find dir = .ok .directory)
    (hp : t.locate dir = .ok p) :
    t.find (Path.join dir name) = .ok (.file bytes) ↔ t.get? (p ++ [name]) = some (.file bytes) := by
  obtain ⟨d, hd, hget, -⟩ := find_eq_ok_iff.mp hdir
  cases hd.symm.trans hp
  have hplace : t.locate (Path.join dir name) = .ok (p ++ [name]) := by
    rw [locate_join hname.toIsName hp, if_neg hname.noNul, follow_name hname.toIsName hget,
      if_neg (Nat.not_lt.mpr hname.short)]
  rw [find_eq_ok_iff, hplace]
  simp [meansDirectory_join dir hname.toIsName]

end Tree

end CiWorkflow
