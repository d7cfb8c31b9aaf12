import Mathlib.Data.List.Forall2
import CiWorkflow.Proofs.Yaml.MapText

set_option autoImplicit false

namespace CiWorkflow.Yaml

def leaf (form : ScalarForm) (text : String) : List (ScalarForm × String) :=
  if form = .plain ∧ text = "" then [] else [(form, text)]

def Token.leaves : Token → List (ScalarForm × String)
  | .scalar form text => leaf form text
  | _ => []

namespace Tree

variable {α : Type}

mutual

def leaves : Tree α → List (ScalarForm × String)
  | .alias _ => []
  | .scalar _ _ form text => leaf form text
  | .sequence _ _ items => itemLeaves items
  | .mapping _ _ entries => entryLeaves entries

def itemLeaves : List (Tree α) → List (ScalarForm × String)
  | [] => []
  | t :: rest => leaves t ++ itemLeaves rest

def entryLeaves : List (Tree α × Tree α) → List (ScalarForm × String)
  | [] => []
  | (k, v) :: rest => leaves k ++ leaves v ++ entryLeaves rest

end

theorem leaves_empty : (empty : Tree α).leaves = [] := by
  simp [empty, leaves, leaf]

end Tree

namespace Node

mutual

def leaves : Node → List (ScalarForm × String)
  | .scalar _ form text => leaf form text
  | .sequence _ items => itemLeaves items
  | .mapping _ entries => entryLeaves entries

def itemLeaves : List Node → List (ScalarForm × String)
  | [] => []
  | n :: rest => leaves n ++ itemLeaves rest

def entryLeaves : List (Node × Node) → List (ScalarForm × String)
  | [] => []
  | (k, v) :: rest => leaves k ++ leaves v ++ entryLeaves rest

end

end Node

/-! ## Parsing -/

def Spans (ts : List Token) (ls : List (ScalarForm × String)) (rest : List Token) : Prop :=
  ts.flatMap Token.leaves = ls ++ rest.flatMap Token.leaves

namespace Spans

variable {ts us vs : List Token} {ls ms : List (ScalarForm × String)}

theorem none : Spans ts [] ts := rfl

theorem append (h : Spans ts ls us) (h' : Spans us ms vs) : Spans ts (ls ++ ms) vs := by
  rw [Spans, h, h', List.append_assoc]

theorem pass (h : Spans ts [] us) (h' : Spans us ms vs) : Spans ts ms vs := h.append h'

theorem behind {t : Token} (ht : t.leaves = []) (h : Spans ts ls us) : Spans (t :: ts) ls us := by
  rw [Spans, List.flatMap_cons, ht, List.nil_append, h]

end Spans

theorem spans_properties {handles : Handles} {ts rest : List Token} {p : Properties}
    (h : readProperties? handles ts = some (p, rest)) : Spans ts [] rest := by
  unfold readProperties? at h
  split at h
  all_goals
    simp only [Option.map_eq_some_iff, Option.some.injEq, Prod.mk.injEq] at h
    grind [Spans, Token.leaves]

structure ParsesLeaves (handles : Handles) (fuel : Nat) : Prop where
  node {block bare : Bool} {ts rest : List Token} {t : Tree String} :
    parseNode handles block bare fuel ts = some (t, rest) → Spans ts t.leaves rest
  optional {block bare : Bool} {stops ts rest : List Token} {t : Tree String} :
    parseOptional handles block bare stops fuel ts = some (t, rest) → Spans ts t.leaves rest
  items {indented : Bool} {ts rest : List Token} {items : List (Tree String)} :
    parseItems handles indented fuel ts = some (items, rest) → Spans ts (Tree.itemLeaves items) rest
  value {ts rest : List Token} {t : Tree String} :
    parseValue handles fuel ts = some (t, rest) → Spans ts t.leaves rest
  entries {ts rest : List Token} {entries : List Entry} :
    parseEntries handles fuel ts = some (entries, rest) → Spans ts (Tree.entryLeaves entries) rest
  flowValue {close : Token} {ts rest : List Token} {t : Tree String} :
    parseFlowValue handles close fuel ts = some (t, rest) → Spans ts t.leaves rest
  pair {ts rest : List Token} {e : Entry} :
    parsePair handles fuel ts = some (e, rest) → Spans ts (e.1.leaves ++ e.2.leaves) rest
  flowItem {ts rest : List Token} {t : Tree String} :
    parseFlowItem handles fuel ts = some (t, rest) → Spans ts t.leaves rest
  flowItems {first : Bool} {ts rest : List Token} {items : List (Tree String)} :
    parseFlowItems handles first fuel ts = some (items, rest) → Spans ts (Tree.itemLeaves items) rest
  flowEntry {ts rest : List Token} {e : Entry} :
    parseFlowEntry handles fuel ts = some (e, rest) → Spans ts (e.1.leaves ++ e.2.leaves) rest
  flowEntries {first : Bool} {ts rest : List Token} {entries : List Entry} :
    parseFlowEntries handles first fuel ts = some (entries, rest) → Spans ts (Tree.entryLeaves entries) rest

section Parser

variable {handles : Handles} {fuel : Nat} (ih : ParsesLeaves handles fuel) {ts rest : List Token}

theorem spans_empty : Spans ts (Tree.empty : Tree String).leaves ts := by
  rw [Tree.leaves_empty]
  exact .none

include ih

theorem spans_optional {block bare : Bool} {stops : List Token} {t : Tree String}
    (h : parseOptional handles block bare stops (fuel + 1) ts = some (t, rest)) : Spans ts t.leaves rest := by
  rw [parseOptional] at h
  split at h
  · cases h
    exact spans_empty
  · exact ih.node h

theorem spans_items {indented : Bool} {items : List (Tree String)}
    (h : parseItems handles indented (fuel + 1) ts = some (items, rest)) : Spans ts (Tree.itemLeaves items) rest := by
  rw [parseItems.eq_def] at h
  split at h
  · cases ‹fuel + 1 = 0›
  · rename_i heq
    cases heq
    simp only [Option.bind_eq_bind, Option.bind_eq_some_iff] at h
    obtain ⟨⟨item, mid⟩, hitem, ⟨others, last⟩, hothers, h⟩ := h
    cases h
    exact .behind rfl ((ih.optional hitem).append (ih.items hothers))
  · split at h
    · cases h
      exact .none
    · split at h
      · cases h
        exact .behind rfl .none
      · cases h

theorem spans_value {t : Tree String} (h : parseValue handles (fuel + 1) ts = some (t, rest)) :
    Spans ts t.leaves rest := by
  rw [parseValue.eq_def] at h
  split at h
  · cases ‹fuel + 1 = 0›
  · rename_i heq
    cases heq
    exact .behind rfl (ih.optional h)
  · cases h
    exact spans_empty

theorem spans_entries {entries : List Entry} (h : parseEntries handles (fuel + 1) ts = some (entries, rest)) :
    Spans ts (Tree.entryLeaves entries) rest := by
  rw [parseEntries.eq_def] at h
  split at h
  · cases ‹fuel + 1 = 0›
  · rename_i heq
    cases heq
    simp only [Option.bind_eq_bind, Option.bind_eq_some_iff] at h
    obtain ⟨⟨key, mid⟩, hkey, ⟨value, behind⟩, hvalue, ⟨others, last⟩, hothers, h⟩ := h
    cases h
    exact .behind rfl (((ih.optional hkey).append (ih.value hvalue)).append (ih.entries hothers))
  · cases h
    exact .behind rfl .none
  · cases h

theorem spans_flowValue {close : Token} {t : Tree String}
    (h : parseFlowValue handles close (fuel + 1) ts = some (t, rest)) : Spans ts t.leaves rest := by
  rw [parseFlowValue.eq_def] at h
  split at h
  · cases ‹fuel + 1 = 0›
  · rename_i heq
    cases heq
    exact .behind rfl (ih.optional h)
  · cases h
    exact spans_empty

theorem spans_pair {e : Entry} (h : parsePair handles (fuel + 1) ts = some (e, rest)) :
    Spans ts (e.1.leaves ++ e.2.leaves) rest := by
  have hvalue (key : Tree String) (mid : List Token)
      (h : ((parseFlowValue handles .flowSequenceEnd fuel mid).bind fun r => some ((key, r.1), r.2)) = some (e, rest)) :
      Spans mid e.2.leaves rest ∧ key = e.1 := by
    obtain ⟨⟨value, last⟩, hvalue, h⟩ := Option.bind_eq_some_iff.mp h
    cases h
    exact ⟨ih.flowValue hvalue, rfl⟩
  simp only [parsePair] at h
  split at h
  · -- The token that shows that the key is left out has no text.
    rename_i hstop
    obtain ⟨hspans, hkey⟩ := hvalue .empty (ts.drop 1) h
    rw [← hkey, Tree.leaves_empty]
    cases ts with
    | nil => cases hstop
    | cons t behind =>
      refine .behind ?_ hspans
      simp only [nextAmong, List.contains_cons, List.contains_nil, Bool.or_false, Bool.or_eq_true, beq_iff_eq] at hstop
      obtain rfl | rfl | rfl := hstop <;> rfl
  · obtain ⟨⟨key, mid⟩, hkey, h⟩ := Option.bind_eq_some_iff.mp h
    obtain ⟨hspans, rfl⟩ := hvalue key mid h
    exact (ih.node hkey).append hspans

theorem spans_flowItem {t : Tree String} (h : parseFlowItem handles (fuel + 1) ts = some (t, rest)) :
    Spans ts t.leaves rest := by
  rw [parseFlowItem.eq_def] at h
  split at h
  · cases ‹fuel + 1 = 0›
  · rename_i heq
    cases heq
    simp only [Option.bind_eq_bind, Option.bind_eq_some_iff] at h
    obtain ⟨⟨entry, last⟩, hentry, h⟩ := h
    cases h
    have hpair := Spans.behind (t := .key) rfl (ih.pair hentry)
    simpa [Tree.leaves, Tree.entryLeaves] using hpair
  · rename_i heq _
    cases heq
    exact ih.node h

theorem spans_flowEntry {e : Entry} (h : parseFlowEntry handles (fuel + 1) ts = some (e, rest)) :
    Spans ts (e.1.leaves ++ e.2.leaves) rest := by
  rw [parseFlowEntry.eq_def] at h
  split at h
  · cases ‹fuel + 1 = 0›
  · rename_i heq
    cases heq
    simp only [Option.bind_eq_bind, Option.bind_eq_some_iff] at h
    obtain ⟨⟨key, mid⟩, hkey, ⟨value, last⟩, hvalue, h⟩ := h
    cases h
    exact .behind rfl ((ih.optional hkey).append (ih.flowValue hvalue))
  · rename_i heq _
    cases heq
    simp only [Option.bind_eq_bind, Option.bind_eq_some_iff] at h
    obtain ⟨⟨key, last⟩, hkey, h⟩ := h
    cases h
    exact (ih.node hkey).append spans_empty

theorem spans_flowItems {first : Bool} {items : List (Tree String)}
    (h : parseFlowItems handles first (fuel + 1) ts = some (items, rest)) :
    Spans ts (Tree.itemLeaves items) rest := by
  have hitem {us : List Token} (h : ((parseFlowItem handles fuel us).bind fun r =>
      (parseFlowItems handles false fuel r.2).bind fun r' => some (r.1 :: r'.1, r'.2)) = some (items, rest)) :
      Spans us (Tree.itemLeaves items) rest := by
    simp only [Option.bind_eq_some_iff] at h
    obtain ⟨⟨item, mid⟩, hitem, ⟨others, last⟩, hothers, h⟩ := h
    cases h
    exact (ih.flowItem hitem).append (ih.flowItems hothers)
  cases ts with
  | nil =>
    cases first with
    | true => exact hitem h
    | false => cases h
  | cons t behind =>
    cases first with
    | true =>
      cases t with
      | flowSequenceEnd =>
        cases h
        exact .behind rfl .none
      | _ => exact hitem h
    | false =>
      cases t with
      | flowSequenceEnd =>
        cases h
        exact .behind rfl .none
      | flowEntry =>
        cases behind with
        | nil => exact .behind rfl (hitem h)
        | cons u behind =>
          cases u with
          | flowSequenceEnd =>
            cases h
            exact .behind rfl (.behind rfl .none)
          | _ => exact .behind rfl (hitem h)
      | _ => cases h

theorem spans_flowEntries {first : Bool} {entries : List Entry}
    (h : parseFlowEntries handles first (fuel + 1) ts = some (entries, rest)) :
    Spans ts (Tree.entryLeaves entries) rest := by
  have hentry {us : List Token} (h : ((parseFlowEntry handles fuel us).bind fun r =>
      (parseFlowEntries handles false fuel r.2).bind fun r' => some (r.1 :: r'.1, r'.2)) = some (entries, rest)) :
      Spans us (Tree.entryLeaves entries) rest := by
    simp only [Option.bind_eq_some_iff] at h
    obtain ⟨⟨entry, mid⟩, hentry, ⟨others, last⟩, hothers, h⟩ := h
    cases h
    exact (ih.flowEntry hentry).append (ih.flowEntries hothers)
  cases ts with
  | nil =>
    cases first with
    | true => exact hentry h
    | false => cases h
  | cons t behind =>
    cases first with
    | true =>
      cases t with
      | flowMappingEnd =>
        cases h
        exact .behind rfl .none
      | _ => exact hentry h
    | false =>
      cases t with
      | flowMappingEnd =>
        cases h
        exact .behind rfl .none
      | flowEntry =>
        cases behind with
        | nil => exact .behind rfl (hentry h)
        | cons u behind =>
          cases u with
          | flowMappingEnd =>
            cases h
            exact .behind rfl (.behind rfl .none)
          | _ => exact .behind rfl (hentry h)
      | _ => cases h

theorem spans_behind {block bare : Bool} {p : Properties} {u : Token} {us : List Token} {t : Tree String}
    (h : parseBehind handles block bare fuel p u us = some (t, rest)) : Spans (u :: us) t.leaves rest := by
  have hnext {v : Token} (hu : u = v) (hv : v.leaves = []) : u.leaves = [] := hu ▸ hv
  unfold parseBehind at h
  split at h
  · simp only [Option.bind_eq_bind, Option.bind_eq_some_iff] at h
    obtain ⟨⟨items, last⟩, hitems, h⟩ := h
    cases h
    exact ih.items hitems
  split at h
  · rename_i hopen
    simp only [Option.bind_eq_bind, Option.bind_eq_some_iff] at h
    obtain ⟨⟨items, last⟩, hitems, h⟩ := h
    cases h
    simp only [Bool.and_eq_true, decide_eq_true_eq] at hopen
    exact .behind (hnext hopen.2 rfl) (ih.items hitems)
  split at h
  · rename_i hopen
    simp only [Option.bind_eq_bind, Option.bind_eq_some_iff] at h
    obtain ⟨⟨entries, last⟩, hentries, h⟩ := h
    cases h
    simp only [Bool.and_eq_true, decide_eq_true_eq] at hopen
    exact .behind (hnext hopen.2 rfl) (ih.entries hentries)
  split at h
  · cases h
  · cases h
    exact spans_empty

theorem spans_node {block bare : Bool} {t : Tree String}
    (h : parseNode handles block bare (fuel + 1) ts = some (t, rest)) : Spans ts t.leaves rest := by
  by_cases halias : ∃ name others, ts = .alias name :: others
  · obtain ⟨name, others, rfl⟩ := halias
    simp only [parseNode, Option.some.injEq, Prod.mk.injEq] at h
    obtain ⟨rfl, rfl⟩ := h
    exact .behind rfl .none
  · rw [parseNode_eq _ _ fun name others h => halias ⟨name, others, h⟩, Option.bind_eq_some_iff] at h
    obtain ⟨⟨p, us⟩, hp, h⟩ := h
    refine (spans_properties hp).pass ?_
    cases us with
    | nil =>
      simp only [Option.ite_none_left_eq_some, Option.some.injEq, Prod.mk.injEq] at h
      obtain ⟨-, rfl, rfl⟩ := h
      exact spans_empty
    | cons u us =>
      cases u with
      | scalar form text =>
        cases h
        rfl
      | flowSequence =>
        simp only [Option.bind_eq_bind, Option.bind_eq_some_iff] at h
        obtain ⟨⟨items, last⟩, hitems, h⟩ := h
        cases h
        exact .behind rfl (ih.flowItems hitems)
      | flowMapping =>
        simp only [Option.bind_eq_bind, Option.bind_eq_some_iff] at h
        obtain ⟨⟨entries, last⟩, hentries, h⟩ := h
        cases h
        exact .behind rfl (ih.flowEntries hentries)
      | _ => exact spans_behind ih h

omit ih in
theorem parsesLeaves (handles : Handles) (fuel : Nat) : ParsesLeaves handles fuel := by
  induction fuel with
  | zero =>
    constructor <;> intros <;> rename_i h <;> cases h
  | succ fuel ih =>
    exact {
      node := spans_node ih
      optional := spans_optional ih
      items := spans_items ih
      value := spans_value ih
      entries := spans_entries ih
      flowValue := spans_flowValue ih
      pair := spans_pair ih
      flowItem := spans_flowItem ih
      flowItems := spans_flowItems ih
      flowEntry := spans_flowEntry ih
      flowEntries := spans_flowEntries ih }

end Parser

/-! ## Documents -/

theorem spans_directives {version : Bool} {handles handles' : Handles} {ts rest : List Token}
    (h : readDirectives? version handles ts = some (handles', rest)) : Spans ts [] rest := by
  induction ts generalizing version handles with
  | nil =>
    cases h
    exact .none
  | cons t others ih =>
    cases t with
    | version major minor =>
      rw [readDirectives?, Option.ite_none_left_eq_some] at h
      exact .behind rfl (ih h.2)
    | tagHandle handle lead =>
      rw [readDirectives?, Option.ite_none_left_eq_some] at h
      exact .behind rfl (ih h.2)
    | _ =>
      cases h
      exact .none

theorem spans_document {fuel : Nat} {ts rest : List Token} {t : Tree String}
    (h : parseDocument fuel ts = some (t, rest)) : Spans ts t.leaves rest := by
  simp only [parseDocument, Option.bind_eq_bind, Option.bind_eq_some_iff] at h
  obtain ⟨⟨handles, us⟩, hus, h⟩ := h
  have hnode {handles : Handles} {us : List Token} (h : parseNode handles true false fuel us = some (t, rest)) :
      Spans us t.leaves rest := (parsesLeaves handles fuel).node h
  split at h
  · cases h
    exact spans_empty
  · rename_i heq
    cases heq
    refine (spans_directives hus).pass (.behind rfl ?_)
    split at h
    · cases h
      exact spans_empty
    · exact hnode h
  · cases h
  · cases h
  · exact hnode h

theorem leaves_of_parse {ts : List Token} {t : Tree String} (h : parse? ts = some t) :
    t.leaves = ts.flatMap Token.leaves := by
  simp only [parse?, Option.bind_eq_bind, Option.bind_eq_some_iff, Option.ite_none_right_eq_some] at h
  obtain ⟨⟨root, rest⟩, hroot, hrest, heq⟩ := h
  cases heq
  have hend : rest.flatMap Token.leaves = [] := by
    simp only [List.all_eq_true, decide_eq_true_eq] at hrest
    rw [List.flatMap_eq_nil_iff]
    intro u hu
    rw [hrest u hu]
    rfl
  rw [spans_document hroot, hend, List.append_nil]

/-! ## Anchors and aliases -/

namespace Tree

mutual

theorem leaves_of_number {names names' : Names} (t : Tree String) {u : Tree Nat}
    (h : number? names t = some (u, names')) : u.leaves = t.leaves := by
  cases t with
  | «alias» name =>
    simp only [number?, Option.map_eq_some_iff] at h
    obtain ⟨n, -, h⟩ := h
    cases h
    rfl
  | scalar anchor tag form text =>
    cases h
    rfl
  | sequence anchor tag items =>
    simp only [number?, Option.bind_eq_bind, Option.bind_eq_some_iff] at h
    obtain ⟨⟨us, last⟩, hus, h⟩ := h
    cases h
    exact leaves_of_numberItems items hus
  | mapping anchor tag entries =>
    simp only [number?, Option.bind_eq_bind, Option.bind_eq_some_iff] at h
    obtain ⟨⟨us, last⟩, hus, h⟩ := h
    cases h
    exact leaves_of_numberEntries entries hus

theorem leaves_of_numberItems {names names' : Names} (ts : List (Tree String)) {us : List (Tree Nat)}
    (h : numberItems? names ts = some (us, names')) : itemLeaves us = itemLeaves ts := by
  cases ts with
  | nil =>
    cases h
    rfl
  | cons t rest =>
    simp only [numberItems?, Option.bind_eq_bind, Option.bind_eq_some_iff] at h
    obtain ⟨⟨u, mid⟩, hu, ⟨us, last⟩, hus, h⟩ := h
    cases h
    rw [itemLeaves, itemLeaves, leaves_of_number t hu, leaves_of_numberItems rest hus]

theorem leaves_of_numberEntries {names names' : Names} (es : List (Tree String × Tree String))
    {us : List (Tree Nat × Tree Nat)} (h : numberEntries? names es = some (us, names')) :
    entryLeaves us = entryLeaves es := by
  cases es with
  | nil =>
    cases h
    rfl
  | cons e rest =>
    simp only [numberEntries?, Option.bind_eq_bind, Option.bind_eq_some_iff] at h
    obtain ⟨⟨k, mid⟩, hk, ⟨v, behind⟩, hv, ⟨us, last⟩, hus, h⟩ := h
    cases h
    rw [entryLeaves, entryLeaves, leaves_of_number e.1 hk, leaves_of_number e.2 hv, leaves_of_numberEntries rest hus]

end

/-- What stands for an alias has all its scalars, of which there are none. -/
theorem leaves_subset_follow {table : List (Nat × Tree Nat)} {t u : Tree Nat} {k left : Nat}
    (h : (follow table t).run k = some (u, left)) : t.leaves ⊆ u.leaves := by
  cases t with
  | «alias» n => exact List.nil_subset _
  | _ =>
    cases h
    exact List.Subset.refl _

theorem forall₂_of_run_mapM {α β : Type} {step : α → StateT Nat Option β} (xs : List α) {ys : List β} {k left : Nat}
    (h : (xs.mapM step).run k = some (ys, left)) :
    List.Forall₂ (fun x y => ∃ k left, (step x).run k = some (y, left)) xs ys := by
  induction xs generalizing k ys with
  | nil =>
    cases h
    exact .nil
  | cons x rest ih =>
    simp only [List.mapM_cons, StateT.run_bind, Option.bind_eq_bind, Option.bind_eq_some_iff] at h
    obtain ⟨⟨y, mid⟩, hy, ⟨others, last⟩, hothers, h⟩ := h
    cases h
    exact .cons ⟨k, mid, hy⟩ (ih hothers)

theorem itemLeaves_subset {ts : List (Tree Nat)} {ns : List Node}
    (h : List.Forall₂ (fun t n => t.leaves ⊆ n.leaves) ts ns) : itemLeaves ts ⊆ Node.itemLeaves ns := by
  induction h with
  | nil => exact List.nil_subset _
  | cons hn _ ih =>
    refine List.append_subset.mpr ⟨List.Subset.trans hn ?_, List.Subset.trans ih ?_⟩
    · exact List.subset_append_left ..
    · exact List.subset_append_right ..

theorem entryLeaves_subset {es : List (Tree Nat × Tree Nat)} {fs : List (Node × Node)}
    (h : List.Forall₂ (fun e f => e.1.leaves ⊆ f.1.leaves ∧ e.2.leaves ⊆ f.2.leaves) es fs) :
    entryLeaves es ⊆ Node.entryLeaves fs := by
  induction h with
  | nil => exact List.nil_subset _
  | cons hn _ ih =>
    rw [entryLeaves, Node.entryLeaves]
    refine List.append_subset.mpr ⟨?_, List.Subset.trans ih (List.subset_append_right ..)⟩
    refine List.Subset.trans (List.append_subset.mpr ⟨?_, ?_⟩) (List.subset_append_left ..)
    · exact List.Subset.trans hn.1 (List.subset_append_left ..)
    · exact List.Subset.trans hn.2 (List.subset_append_right ..)

theorem leaves_subset_expand {table : List (Nat × Tree Nat)} {d : Nat} {t : Tree Nat} {n : Node} {k left : Nat}
    (h : (expand table d t).run k = some (n, left)) : t.leaves ⊆ n.leaves := by
  induction d generalizing t n k left with
  | zero =>
    simp only [expand, StateT.run_bind, Option.bind_eq_bind, Option.bind_eq_some_iff] at h
    obtain ⟨⟨u, mid⟩, hu, h⟩ := h
    refine List.Subset.trans (leaves_subset_follow hu) ?_
    cases u with
    | scalar anchor tag form text =>
      cases h
      exact List.Subset.refl _
    | _ => cases h
  | succ d ih =>
    simp only [expand, StateT.run_bind, Option.bind_eq_bind, Option.bind_eq_some_iff] at h
    obtain ⟨⟨u, mid⟩, hu, h⟩ := h
    refine List.Subset.trans (leaves_subset_follow hu) ?_
    cases u with
    | «alias» name => cases h
    | scalar anchor tag form text =>
      cases h
      exact List.Subset.refl _
    | sequence anchor tag items =>
      simp only [StateT.run_bind, Option.bind_eq_bind, Option.bind_eq_some_iff] at h
      obtain ⟨⟨ns, last⟩, hns, h⟩ := h
      cases h
      exact itemLeaves_subset ((forall₂_of_run_mapM items hns).imp fun t n ⟨k, left, hn⟩ => ih hn)
    | mapping anchor tag entries =>
      simp only [StateT.run_bind, Option.bind_eq_bind, Option.bind_eq_some_iff] at h
      obtain ⟨⟨fs, last⟩, hfs, h⟩ := h
      cases h
      refine entryLeaves_subset ((forall₂_of_run_mapM entries hfs).imp fun e f ⟨k, left, hf⟩ => ?_)
      simp only [StateT.run_bind, Option.bind_eq_bind, Option.bind_eq_some_iff] at hf
      obtain ⟨⟨n, behind⟩, hn, ⟨m, last⟩, hm, hf⟩ := hf
      cases hf
      exact ⟨ih hn, ih hm⟩

theorem leaves_subset_resolve {t : Tree String} {n : Node} (h : t.resolve? = some n) : t.leaves ⊆ n.leaves := by
  simp only [resolve?, Option.bind_eq_bind, Option.bind_eq_some_iff, Option.map_eq_some_iff] at h
  obtain ⟨⟨u, names⟩, hu, ⟨m, left⟩, hm, rfl⟩ := h
  rw [← leaves_of_number t hu]
  exact leaves_subset_expand hm

end Tree

end CiWorkflow.Yaml
