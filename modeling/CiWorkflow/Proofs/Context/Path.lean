import CiWorkflow.Context.Leaf
import CiWorkflow.Proofs.Expression.Wrapped
import Mathlib.Data.List.Basic

set_option autoImplicit false

namespace CiWorkflow.Context

open Text Expression

theorem toList_dotted (parent name : String) :
    (parent ++ "." ++ name).toList = parent.toList ++ '.' :: name.toList := by
  simp

structure IsName (name : String) : Prop where
  nonempty : name ≠ ""
  plain : ∀ c ∈ name.toList, c ≠ '.' ∧ isBlank c = false
  unopened : ¬ openMark.toList <:+: name.toList
  unclosed : ¬ closeMark.toList <:+: name.toList

theorem IsName.toList_ne_nil {name : String} (h : IsName name) : name.toList ≠ [] := by simpa using h.nonempty

theorem IsName.dot_not_mem {name : String} (h : IsName name) : '.' ∉ name.toList := fun hdot => (h.plain _ hdot).1 rfl

theorem isPart_iff (name : String) : isPart name = true ↔ IsName name := by
  have hnonempty : name.toList.isEmpty = false ↔ name ≠ "" := by simp [List.isEmpty_eq_false_iff]
  have hplain : (name.toList.any fun c => c = '.' || isBlank c) = false ↔
      ∀ c ∈ name.toList, c ≠ '.' ∧ isBlank c = false := by simp [List.any_eq_false]
  have hclosed : contains name closeMark = false ↔ ¬ closeMark.toList <:+: name.toList := by
    simp [← contains_iff]
  simp only [isPart, Bool.and_eq_true, Bool.not_eq_true', hnonempty, hplain, not_marked_iff, hclosed]
  constructor
  · rintro ⟨⟨⟨hne, hopen⟩, hclose⟩, hchars⟩
    exact ⟨hne, hchars, hopen, hclose⟩
  · rintro ⟨hne, hchars, hopen, hclose⟩
    exact ⟨⟨⟨hne, hopen⟩, hclose⟩, hchars⟩

theorem toList_index (p : Path) (i : Nat) :
    (p.index i).text.toList = p.text.toList ++ '[' :: (Nat.toDigits 10 i ++ [']']) := by
  simp [Path.index]

theorem mem_index {i : Nat} {c : Char} (h : c ∈ '[' :: (Nat.toDigits 10 i ++ [']'])) :
    c = '[' ∨ c = ']' ∨ c.isDigit = true := by
  simp only [List.mem_cons, List.mem_append, List.not_mem_nil, or_false] at h
  rcases h with h | h | h
  · exact .inl h
  · exact .inr (.inr (Nat.isDigit_of_mem_toDigits (by decide) (by decide) h))
  · exact .inr (.inl h)

/-- A path goes on below another one: it ends in no blank, and its marks are those of the shorter path. -/
structure Deeper (short long : String) : Prop where
  tail : ∃ more, long.toList = short.toList ++ more ∧ more ≠ [] ∧ more.getLast?.any isBlank = false
  marks : openMark.toList <:+: long.toList ↔ openMark.toList <:+: short.toList

theorem Deeper.trans {a b c : String} (hab : Deeper a b) (hbc : Deeper b c) : Deeper a c := by
  obtain ⟨more, hb, -, -⟩ := hab.tail
  obtain ⟨further, hc, hne, hlast⟩ := hbc.tail
  refine ⟨⟨more ++ further, by rw [hc, hb, List.append_assoc], by simp [hne], ?_⟩, hbc.marks.trans hab.marks⟩
  rwa [List.getLast?_append_of_ne_nil _ hne]

theorem deeper_dotted {name : String} (parent : String) (hlast : name.toList.getLast?.any isBlank = false)
    (hm : ¬ openMark.toList <:+: name.toList) : Deeper parent (parent ++ "." ++ name) := by
  refine ⟨⟨'.' :: name.toList, toList_dotted parent name, by simp, ?_⟩, ?_⟩
  · cases hname : name.toList with
    | nil => decide
    | cons first rest =>
      rw [List.getLast?_cons_cons, ← hname]
      exact hlast
  · rw [toList_dotted, infix_append_cons_iff (by decide)]
    simp [hm]

theorem deeper_child {parent name path : String} (h : child parent name = .ok path) : Deeper parent path := by
  obtain ⟨hpart, rfl⟩ := child_eq_ok_iff.mp h
  have hname := (isPart_iff name).mp hpart
  refine deeper_dotted parent ?_ hname.unopened
  rw [List.getLast?_eq_some_getLast hname.toList_ne_nil]
  exact (hname.plain _ (List.getLast_mem hname.toList_ne_nil)).2

theorem deeper_index (p : Path) (i : Nat) : Deeper p.text (p.index i).text := by
  have hlast : ('[' :: (Nat.toDigits 10 i ++ [']'])).getLast? = some ']' := by
    rw [← List.cons_append, List.getLast?_concat]
  have hmark : ¬ openMark.toList <:+: Nat.toDigits 10 i ++ [']'] := by
    refine not_marked_of_not_mem fun hm => ?_
    exact absurd (mem_index (List.mem_cons_of_mem _ hm)) (by decide)
  refine ⟨⟨_, toList_index p i, by simp, by rw [hlast]; rfl⟩, ?_⟩
  rw [toList_index, infix_append_cons_iff (by decide)]
  simp [hmark]

theorem deeper_of_foldlM {α β : Type} (text : α → String) (step : α → β → Except Error α)
    (hstep : ∀ a x b, step a x = .ok b → Deeper (text a) (text b)) {xs : List β} {a b : α} (hne : xs ≠ [])
    (h : xs.foldlM step a = .ok b) : Deeper (text a) (text b) := by
  obtain ⟨x, rest, rfl⟩ := List.exists_cons_of_ne_nil hne
  obtain ⟨next, hnext, h⟩ := bind_eq_ok.mp h
  have hkeeps : ∀ b x c, Deeper (text a) (text b) → step b x = .ok c → Deeper (text a) (text c) :=
    fun b x c hb hc => hb.trans (hstep b x c hc)
  exact keeps_of_foldlM (P := fun b => Deeper (text a) (text b)) hkeeps (hstep a x next hnext) h

theorem deeper_get {p q : Path} {name : String} (h : p.get name = .ok q) : Deeper p.text q.text := by
  obtain ⟨path, hpath, rfl⟩ := map_eq_ok.mp h
  exact deeper_child hpath

theorem deeper_along {p q : Path} {dotted : String} (h : p.along dotted = .ok q) : Deeper p.text q.text :=
  deeper_of_foldlM Path.text Path.get (fun _ _ _ => deeper_get) (by simp [splitAt, splitWhere_ne_nil]) h

inductive PathStep where
  | get (name : String)
  | along (dotted : String)
  | index (i : Nat)
  deriving DecidableEq, Repr

def PathStep.take (p : Path) : PathStep → Except Error Path
  | .get name => p.get name
  | .along dotted => p.along dotted
  | .index i => .ok (p.index i)

theorem PathStep.deeper_take {p q : Path} {s : PathStep} (h : s.take p = .ok q) : Deeper p.text q.text := by
  cases s with
  | get name => exact deeper_get h
  | along dotted => exact deeper_along h
  | index i => exact Except.ok.inj h ▸ deeper_index p i

theorem Member.deeper_fragment {m : Member} {f : Fragment} (h : m.fragment = .ok f) :
    Deeper m.parts.1 f.inner := by
  obtain ⟨path, hpath, rfl⟩ := map_eq_ok.mp h
  exact deeper_of_foldlM id child (fun _ _ _ => deeper_child) (by cases m <;> simp [Member.parts]) hpath

/-- Below a fit path there are fit paths only; below any path the marks decide. -/
theorem Deeper.isWrappable_iff {short long : String} (h : Deeper short long) {c : Char} {rest : List Char}
    (hs : short.toList = c :: rest) (hc : isBlank c = false) :
    isWrappable long = true ↔ ¬ openMark.toList <:+: short.toList := by
  obtain ⟨more, hl, hne, hlast⟩ := h.tail
  rw [isWrappable_iff_of_head (by rw [hl, hs, List.cons_append]) hc, h.marks, hl,
    List.getLast?_append_of_ne_nil _ hne]
  simp [hlast]

theorem Deeper.isWrappable {short long : String} (h : Deeper short long) (hs : isWrappable short = true) :
    isWrappable long = true := by
  obtain ⟨c, rest, ht, hc⟩ := head_of_isWrappable hs
  exact (h.isWrappable_iff ht hc).mpr ((Expression.isWrappable_iff short).mp hs).2.2

def isContextPath (path : String) : Bool :=
  match splitAt '.' path.toList with
  | [] => false
  | head :: rest => contextNames.contains (String.ofList head) && rest.all fun part => !part.isEmpty

theorem isContextPath_of_isTokenPath {path : String} (h : isTokenPath path = true) : isContextPath path = true := by
  obtain ⟨head, rest, hsplit⟩ := List.exists_cons_of_ne_nil (splitWhere_ne_nil (· = '.') path.toList)
  simp only [isTokenPath, isContextPath, splitAt, hsplit, Bool.and_eq_true] at h ⊢
  exact ⟨h.1.1, h.2⟩

theorem isTokenPath_dotted {parent name : String} (hp : isContextPath parent = true)
    (hn : ((splitAt '.' name.toList).all fun part => !part.isEmpty) = true) :
    isTokenPath (parent ++ "." ++ name) = true := by
  obtain ⟨head, rest, hparent⟩ := List.exists_cons_of_ne_nil (splitWhere_ne_nil (· = '.') parent.toList)
  obtain ⟨first, others, hname⟩ := List.exists_cons_of_ne_nil (splitWhere_ne_nil (· = '.') name.toList)
  rw [isTokenPath, toList_dotted, splitAt_append]
  simp only [isContextPath, splitAt, hparent, hname, Bool.and_eq_true] at hp hn ⊢
  simp only [List.cons_append, List.all_append, hp.1, hp.2, hn]
  simp

theorem isTokenPath_child {parent name path : String} (hp : isContextPath parent = true)
    (h : child parent name = .ok path) : isTokenPath path = true := by
  obtain ⟨hpart, rfl⟩ := child_eq_ok_iff.mp h
  have hname := (isPart_iff name).mp hpart
  refine isTokenPath_dotted hp ?_
  rw [splitAt_of_not_mem hname.dot_not_mem]
  simp [hname.nonempty]

theorem isTokenPath_index {p : Path} (h : isTokenPath p.text = true) (i : Nat) :
    isTokenPath (p.index i).text = true := by
  have hdot : '.' ∉ '[' :: (Nat.toDigits 10 i ++ [']']) := fun hm => absurd (mem_index hm) (by decide)
  obtain ⟨front, last, hsplit, happend⟩ := splitAt_append_of_not_mem hdot p.text.toList
  rw [isTokenPath, hsplit] at h
  rw [isTokenPath, toList_index, happend]
  cases front with
  | nil => simp at h
  | cons head front =>
    simp only [List.cons_append, Bool.and_eq_true, List.all_append] at h ⊢
    exact ⟨⟨h.1.1, by simp⟩, h.2.1, by simp⟩

theorem isTokenPath_get {p q : Path} {name : String} (hp : isTokenPath p.text = true) (h : p.get name = .ok q) :
    isTokenPath q.text = true := by
  obtain ⟨path, hpath, rfl⟩ := map_eq_ok.mp h
  exact isTokenPath_child (isContextPath_of_isTokenPath hp) hpath

theorem PathStep.isTokenPath_take {p q : Path} {s : PathStep} (hp : isTokenPath p.text = true)
    (h : s.take p = .ok q) : isTokenPath q.text = true := by
  cases s with
  | get name => exact isTokenPath_get hp h
  | along dotted => exact keeps_of_foldlM (fun _ _ _ => isTokenPath_get) hp h
  | index i => exact Except.ok.inj h ▸ isTokenPath_index hp i

theorem isTokenPath_steps {p q : Path} {steps : List PathStep} (hp : isTokenPath p.text = true)
    (h : steps.foldlM PathStep.take p = .ok q) : isTokenPath q.text = true :=
  keeps_of_foldlM (fun _ _ _ => PathStep.isTokenPath_take) hp h

theorem head_of_isTokenPath {path : String} (h : isTokenPath path = true) :
    ∃ c rest, path.toList = c :: rest ∧ isBlank c = false := by
  rw [isTokenPath] at h
  split at h
  · cases h
  · rename_i first others hsplit
    simp only [Bool.and_eq_true, List.contains_eq_mem, decide_eq_true_eq] at h
    have hnames : ∀ name ∈ contextNames, isWrappable name = true := by decide
    obtain ⟨c, rest, hfirst, hc⟩ := head_of_isWrappable (hnames _ h.1.1)
    obtain ⟨more, hpath⟩ := isPrefix_of_splitAt hsplit
    rw [String.toList_ofList] at hfirst
    exact ⟨c, rest ++ more, by rw [← hpath, hfirst, List.cons_append], hc⟩

namespace Member

theorem fit_start (m : Member) : isWrappable m.parts.1 = true ∧ isContextPath m.parts.1 = true := by
  have hstarts : ∀ start ∈ ["env", "secrets", "vars", "inputs", "matrix", "steps", "needs", "jobs",
      "job.services"], isWrappable start = true ∧ isContextPath start = true := by decide
  exact hstarts m.parts.1 (by cases m <;> simp [parts])

theorem isWrappable_fragment {m : Member} {f : Fragment} (h : m.fragment = .ok f) : isWrappable f.inner = true :=
  (deeper_fragment h).isWrappable m.fit_start.1

theorem isTokenPath_fragment {m : Member} {f : Fragment} (h : m.fragment = .ok f) :
    isTokenPath f.inner = true := by
  obtain ⟨path, hpath, rfl⟩ := map_eq_ok.mp h
  obtain ⟨first, rest, hparts⟩ : ∃ first rest, m.parts.2 = first :: rest := by
    cases m <;> exact ⟨_, _, rfl⟩
  rw [descend, hparts, List.foldlM_cons] at hpath
  obtain ⟨next, hnext, hpath⟩ := bind_eq_ok.mp hpath
  exact keeps_of_foldlM (fun _ _ _ ha => isTokenPath_child (isContextPath_of_isTokenPath ha))
    (isTokenPath_child m.fit_start.2 hnext) hpath

end Member

namespace Leaf

def isFit (base name : String) : Bool :=
  isWrappable base && isContextPath base && isWrappable name &&
    (splitAt '.' name.toList).all fun part => !part.isEmpty

def IsFit (l : Leaf) : Prop := ∃ base name, l.path = base ++ "." ++ name ∧ isFit base name = true

theorem isFit_named {group : String} {names : List String} (h : ∀ n ∈ names, isFit group n = true) :
    ∀ l ∈ named group names, l.IsFit := by
  intro l hl
  obtain ⟨n, hn, rfl⟩ := List.mem_map.mp hl
  exact ⟨group, n, rfl, h n hn⟩

theorem isFit_below {group base : String} {fields : List (String × String)}
    (h : ∀ p ∈ fields, isFit base p.2 = true) : ∀ l ∈ below group base fields, l.IsFit := by
  intro l hl
  obtain ⟨p, hp, rfl⟩ := List.mem_map.mp hl
  exact ⟨base, p.2, rfl, h p hp⟩

theorem isFit_of_all {l : Leaf} (h : l ∈ all) : l.IsFit := by
  simp only [all, github, job, List.mem_append] at h
  rcases h with (((((h | h) | h) | h) | h) | (h | h)) | h
  · exact isFit_named (by decide +kernel) l h
  · exact isFit_below (by decide +kernel) l h
  · exact isFit_below (by decide +kernel) l h
  · exact isFit_below (by decide +kernel) l h
  · exact isFit_named (by decide +kernel) l h
  · exact isFit_named (by decide +kernel) l h
  · exact isFit_below (by decide +kernel) l h
  · exact isFit_below (by decide +kernel) l h

theorem isWrappable_path {l : Leaf} (h : l ∈ all) : isWrappable l.path = true := by
  obtain ⟨base, name, hpath, hfit⟩ := isFit_of_all h
  simp only [isFit, Bool.and_eq_true] at hfit
  obtain ⟨⟨⟨hbase, -⟩, hname⟩, -⟩ := hfit
  obtain ⟨-, htrim, hm⟩ := (Expression.isWrappable_iff name).mp hname
  exact hpath ▸ (deeper_dotted base ((trim_eq_self_iff _).mp htrim).2 hm).isWrappable hbase

end Leaf

end CiWorkflow.Context
