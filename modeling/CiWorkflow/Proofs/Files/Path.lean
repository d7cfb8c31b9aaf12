import CiWorkflow.Files.Tree
import CiWorkflow.Proofs.Text.Split

set_option autoImplicit false

namespace CiWorkflow

open Text

/-- What a directory lists: a text without slashes that is not empty and does not mean a directory. -/
structure IsName (name : String) : Prop where
  noSlash : '/' ∉ name.toList
  notEmpty : name ≠ ""
  notSelf : name ≠ "."
  notParent : name ≠ ".."

namespace IsName

variable {name : String}

theorem head_ne (h : IsName name) : name.toList.head? ≠ some '/' := fun hhead =>
  h.noSlash (List.mem_of_mem_head? (by simp [hhead]))

end IsName

namespace Tree

/-- The characters of a path behind a directory: the slash between them may belong to the directory. -/
theorem toList_join (dir : String) {name : String} (h : IsName name) :
    (dir = "" ∧ Path.join dir name = name) ∨
      ∃ front, (dir.toList = front ∧ front ≠ [] ∨ dir.toList = front ++ ['/']) ∧
        (Path.join dir name).toList = front ++ '/' :: name.toList := by
  by_cases hdir : dir = ""
  · subst hdir
    exact .inl ⟨rfl, by simp [Path.join, h.head_ne]⟩
  · by_cases hlast : dir.toList.getLast? = some '/'
    · obtain ⟨front, hfront⟩ := List.getLast?_eq_some_iff.mp hlast
      exact .inr ⟨front, .inr hfront, by simp [Path.join, h.head_ne, hfront]⟩
    · exact .inr ⟨dir.toList, .inl ⟨rfl, by simpa using hdir⟩, by simp [Path.join, h.head_ne, hlast, hdir]⟩

theorem pathNames_empty : pathNames "" = [] := rfl

theorem pathNames_name {name : String} (h : IsName name) : pathNames name = [name] := by
  simp [pathNames, splitAt_of_not_mem h.noSlash, h.notEmpty]

theorem pathNames_append {path : String} {front back : List Char} (h : path.toList = front ++ '/' :: back) :
    pathNames path = pathNames (String.ofList front) ++ pathNames (String.ofList back) := by
  simp [pathNames, h, splitAt_append]

theorem pathNames_join (dir : String) {name : String} (h : IsName name) :
    pathNames (Path.join dir name) = pathNames dir ++ [name] := by
  obtain ⟨rfl, hjoin⟩ | ⟨front, hdir, hjoin⟩ := toList_join dir h
  · rw [hjoin, pathNames_name h, pathNames_empty, List.nil_append]
  · have hback : pathNames (Path.join dir name) = pathNames (String.ofList front) ++ [name] := by
      rw [pathNames_append hjoin, String.ofList_toList, pathNames_name h]
    obtain ⟨hdir, -⟩ | hdir := hdir
    · rw [hback, ← hdir, String.ofList_toList]
    · rw [hback, pathNames_append hdir]
      simp [pathNames_empty]

theorem join_inj {dir name other : String} (h : IsName name) (ho : IsName other)
    (heq : Path.join dir name = Path.join dir other) : name = other := by
  have hnames := pathNames_join dir h
  rw [heq, pathNames_join dir ho] at hnames
  simpa using hnames.symm

theorem head_join (dir : String) {name : String} (h : IsName name) :
    (Path.join dir name).toList.head? = some '/' ↔ dir.toList.head? = some '/' := by
  obtain ⟨rfl, hjoin⟩ | ⟨front, hdir, hjoin⟩ := toList_join dir h
  · simp [hjoin, h.head_ne]
  · obtain ⟨hdir, hne⟩ | hdir := hdir
    · obtain ⟨c, front, rfl⟩ := List.exists_cons_of_ne_nil hne
      simp [hjoin, hdir]
    · cases front <;> simp [hjoin, hdir]

theorem nul_mem_join (dir : String) {name : String} (h : IsName name) :
    '\x00' ∈ (Path.join dir name).toList ↔ '\x00' ∈ dir.toList ∨ '\x00' ∈ name.toList := by
  obtain ⟨rfl, hjoin⟩ | ⟨front, hdir, hjoin⟩ := toList_join dir h
  · simp [hjoin]
  · obtain ⟨hdir, -⟩ | hdir := hdir <;> simp [hjoin, hdir]

theorem join_ne_empty (dir : String) {name : String} (h : IsName name) : Path.join dir name ≠ "" := by
  intro hempty
  have hnames := pathNames_join dir h
  rw [hempty, pathNames_empty] at hnames
  simp at hnames

variable {t : Tree} {p q : Place} {path dir name : String} {bytes : ByteArray}

theorem follow_append (t : Tree) (p : Place) (xs ys : List String) :
    t.follow p (xs ++ ys) = t.follow p xs >>= (t.follow · ys) := by
  induction xs generalizing p with
  | nil => rfl
  | cons x xs ih =>
    rw [List.cons_append, follow, follow]
    split
    · rfl
    · rfl
    · split
      · exact ih _
      · split
        · exact ih _
        · split
          · rfl
          · exact ih _

theorem follow_name (h : IsName name) (hp : t.get? p = some .directory) :
    t.follow p [name] = if nameLimit < name.utf8ByteSize then .error .nameTooLong else .ok (p ++ [name]) := by
  simp [follow, hp, h.notSelf, h.notParent]

theorem getLast_of_follow_name (h : IsName name) (hq : t.follow p [name] = .ok q) : q.getLast? = some name := by
  rw [follow] at hq
  split at hq
  · cases hq
  · cases hq
  · rw [if_neg h.notSelf, if_neg h.notParent] at hq
    split at hq
    · cases hq
    · cases hq
      simp

def startOf (t : Tree) (path : String) : Place := if path.toList.head? = some '/' then [] else t.base

theorem locate_eq_ok_iff :
    t.locate path = .ok p ↔
      path ≠ "" ∧ '\x00' ∉ path.toList ∧ t.follow (t.startOf path) (pathNames path) = .ok p := by
  rw [locate]
  split
  · simp_all
  · split
    · simp_all
    · simp_all [startOf]

theorem locate_join (h : IsName name) (hdir : t.locate dir = .ok p) :
    t.locate (Path.join dir name) =
      if '\x00' ∈ name.toList then .error .nulInName else t.follow p [name] := by
  obtain ⟨-, hnul, hfollow⟩ := locate_eq_ok_iff.mp hdir
  rw [startOf] at hfollow
  have hempty : (Path.join dir name).isEmpty = false := by
    simpa using join_ne_empty dir h
  rw [locate, hempty, pathNames_join dir h, follow_append]
  simp only [List.contains_iff_mem, nul_mem_join dir h, head_join dir h, hnul, false_or, hfollow]
  rfl

theorem getLast_of_locate_join (h : IsName name) (hp : t.locate (Path.join dir name) = .ok p) :
    p.getLast? = some name := by
  obtain ⟨-, -, hfollow⟩ := locate_eq_ok_iff.mp hp
  rw [pathNames_join dir h, follow_append] at hfollow
  obtain ⟨q, -, hq⟩ := bind_eq_ok.mp hfollow
  exact getLast_of_follow_name h hq

theorem find_eq_ok_iff {e : TreeEntry} :
    t.find path = .ok e ↔
      ∃ p, t.locate path = .ok p ∧ t.get? p = some e ∧ (e = .directory ∨ meansDirectory path = false) := by
  rw [find, bind_eq_ok]
  refine exists_congr fun p => and_congr_right fun _ => ?_
  cases t.get? p with
  | none => simp
  | some found =>
    cases found with
    | directory =>
      simp only [pure, Except.pure, Except.ok.injEq, Option.some.injEq, iff_self_and]
      exact fun h => .inl h.symm
    | file bytes => cases hm : meansDirectory path <;> cases e <;> simp [pure, Except.pure]

end Tree

end CiWorkflow
