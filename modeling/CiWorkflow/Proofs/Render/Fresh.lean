import CiWorkflow.Proofs.Decimal.Text
import CiWorkflow.Render.Marker
import Mathlib.Data.Finset.Card
import Mathlib.Order.Bounds.Basic

/-!
# Fresh markers

At each place of a text at most one marker starts. So a text holds no more markers than it has characters,
and one of the first numbers is the number of a marker that no text holds. The search for a marker ends at
the first of them. It does not look at tags, so it ends at the first marker that stands nowhere in the value
exactly if no tag holds the marker where it ends.
-/
set_option autoImplicit false

namespace CiWorkflow.Render

open Text Decimal

theorem toList_marker (n : Nat) : (marker n).toList = markerStem.toList ++ (Nat.toDigits 10 n ++ ['_', '_']) := by
  simp [marker]

theorem eq_of_marker_start {n m : Nat} (h : (marker n).toList <+: (marker m).toList) : n = m := by
  obtain ⟨rest, h⟩ := h
  rw [toList_marker, toList_marker, List.append_assoc, List.append_cancel_left_eq, List.append_assoc] at h
  have hspan : ∀ (k : Nat) (tail : List Char),
      (Nat.toDigits 10 k ++ '_' :: tail).takeWhile Char.isDigit = Nat.toDigits 10 k := by
    intro k tail
    have hds : ∀ d ∈ Nat.toDigits 10 k, d.isDigit = true :=
      fun d hd => Nat.isDigit_of_mem_toDigits (by decide) (by decide) hd
    rw [List.takeWhile_append_of_pos hds]
    simp
  have hn := hspan n ('_' :: rest)
  have hm := hspan m ['_']
  have hdigits : Nat.toDigits 10 n = Nat.toDigits 10 m := by
    rw [← hn, ← hm]
    exact congrArg (List.takeWhile Char.isDigit) h
  have := congrArg digitsValue hdigits
  simpa using this

theorem eq_of_markers_start {n m : Nat} {cs : List Char} (hn : (marker n).toList <+: cs)
    (hm : (marker m).toList <+: cs) : n = m := by
  rcases List.prefix_or_prefix_of_prefix hn hm with h | h
  · exact eq_of_marker_start h
  · exact (eq_of_marker_start h).symm

def held (bound : Nat) (cs : List Char) : Finset Nat :=
  (Finset.range bound).filter fun n => occursIn (marker n).toList cs = true

theorem card_held_le (bound : Nat) (cs : List Char) : (held bound cs).card ≤ cs.length := by
  induction cs with
  | nil =>
    have hempty : held bound [] = ∅ := by
      refine Finset.filter_eq_empty_iff.mpr ?_
      intro n _
      simp [occursIn, toList_marker]
    simp [hempty]
  | cons c rest ih =>
    have hcover : held bound (c :: rest) ⊆
        ((Finset.range bound).filter fun n => (marker n).toList <+: c :: rest) ∪ held bound rest := by
      intro n hn
      simp only [held, Finset.mem_filter, occursIn, Bool.or_eq_true, List.isPrefixOf_iff_prefix] at hn
      simp only [Finset.mem_union, Finset.mem_filter, held]
      rcases hn with ⟨hlt, hp | ho⟩
      · exact .inl ⟨hlt, hp⟩
      · exact .inr ⟨hlt, ho⟩
    have hone : ((Finset.range bound).filter fun n => (marker n).toList <+: c :: rest).card ≤ 1 := by
      refine Finset.card_le_one.mpr ?_
      intro n hn m hm
      exact eq_of_markers_start (Finset.mem_filter.mp hn).2 (Finset.mem_filter.mp hm).2
    have hunion := Finset.card_le_card hcover
    have hsum := Finset.card_union_le ((Finset.range bound).filter fun n => (marker n).toList <+: c :: rest)
      (held bound rest)
    rw [List.length_cons]
    omega

def totalLength (ts : List String) : Nat := (ts.map String.length).sum

theorem card_not_fresh_le (bound : Nat) (ts : List String) :
    ((Finset.range bound).filter fun n => isFresh ts n = false).card ≤ totalLength ts := by
  induction ts with
  | nil => simp [isFresh]
  | cons t rest ih =>
    have hcover : ((Finset.range bound).filter fun n => isFresh (t :: rest) n = false) ⊆
        held bound t.toList ∪ (Finset.range bound).filter fun n => isFresh rest n = false := by
      intro n hn
      simp only [isFresh, contains, List.all_cons, Finset.mem_filter, Bool.and_eq_false_iff,
        Bool.not_eq_false'] at hn
      rcases hn with ⟨hlt, ho | hr⟩
      · exact Finset.mem_union_left _ (Finset.mem_filter.mpr ⟨hlt, ho⟩)
      · exact Finset.mem_union_right _ (Finset.mem_filter.mpr ⟨hlt, hr⟩)
    have hheld := card_held_le bound t.toList
    have hunion := Finset.card_le_card hcover
    have hsum := Finset.card_union_le (held bound t.toList)
      ((Finset.range bound).filter fun n => isFresh rest n = false)
    have hlength : totalLength (t :: rest) = t.toList.length + totalLength rest := by
      simp [totalLength, String.length_toList]
    omega

/-- The number that is chosen for the scripts of a document belongs to a marker that none of its texts
holds. -/
theorem isFresh_freshNumber (ts : List String) : isFresh ts (freshNumber ts) = true := by
  have hroom : ∀ k, ts.foldl (fun n t => n + t.length) k = k + totalLength ts := by
    induction ts with
    | nil => simp [totalLength]
    | cons t rest ih =>
      intro k
      rw [List.foldl_cons, ih]
      simp [totalLength, Nat.add_assoc]
  have hnumber : freshNumber ts = ((List.range (totalLength ts + 1)).find? (isFresh ts)).getD 0 := by
    rw [freshNumber, hroom, Nat.zero_add]
  rw [hnumber]
  cases hfind : (List.range (totalLength ts + 1)).find? (isFresh ts) with
  | some n =>
    rw [Option.getD_some]
    exact List.find?_some hfind
  | none =>
    have hall : ((Finset.range (totalLength ts + 1)).filter fun n => isFresh ts n = false) =
        Finset.range (totalLength ts + 1) := by
      refine Finset.filter_true_of_mem ?_
      intro n hn
      have := List.find?_eq_none.mp hfind n (List.mem_range.mpr (Finset.mem_range.mp hn))
      simpa using this
    have hcard := card_not_fresh_le (totalLength ts + 1) ts
    rw [hall, Finset.card_range] at hcard
    omega

theorem mem_marker {n : Nat} {c : Char} (h : c ∈ (marker n).toList) : c ∈ markerStem.toList ∨ c.isDigit = true := by
  rw [toList_marker] at h
  simp only [List.mem_append, List.mem_cons, List.not_mem_nil, or_false, or_self] at h
  rcases h with h | h | rfl
  · exact .inl h
  · exact .inr (Nat.isDigit_of_mem_toDigits (by decide) (by decide) h)
  · exact .inl (by decide)

theorem marker_ne_nil (n : Nat) : (marker n).toList ≠ [] := by
  simp [toList_marker]

theorem head_marker (n : Nat) : (marker n).toList.head? = some '_' := by
  rw [toList_marker]
  rfl

section Escaping

variable {f : Char → List Char} {pattern cs : List Char}

/-- Characters stay as they are, or become texts that the pattern neither holds nor starts in. -/
def Spares (f : Char → List Char) (pattern : List Char) : Prop :=
  ∀ c, f c = [c] ∨ ∃ d tail, f c = d :: tail ∧ d ∉ pattern ∧ ∀ x, pattern.head? = some x → x ∉ f c

theorem start_of_flatMap (hf : ∀ c, f c = [c] ∨ ∃ d tail, f c = d :: tail ∧ d ∉ pattern)
    (h : pattern <+: cs.flatMap f) : pattern <+: cs := by
  induction cs generalizing pattern with
  | nil => simpa using h
  | cons c cs ih =>
    cases pattern with
    | nil => exact List.nil_prefix
    | cons x pattern =>
      rw [List.flatMap_cons] at h
      rcases hf c with hc | ⟨d, tail, hc, hd⟩
      · rw [hc, List.singleton_append, List.cons_prefix_cons] at h
        refine List.cons_prefix_cons.mpr ⟨h.1, ih (fun c => ?_) h.2⟩
        rcases hf c with hc | ⟨d, tail, hc, hd⟩
        · exact .inl hc
        · exact .inr ⟨d, tail, hc, fun hm => hd (by simp [hm])⟩
      · rw [hc, List.cons_append, List.cons_prefix_cons] at h
        exact absurd (by simp [h.1]) hd

theorem infix_of_append {front : List Char} (hstart : ∀ x, pattern.head? = some x → x ∉ front)
    (hne : pattern ≠ []) (h : pattern <:+: front ++ cs) : pattern <:+: cs := by
  induction front with
  | nil => exact h
  | cons d front ih =>
    rw [List.cons_append, List.infix_cons_iff] at h
    rcases h with h | h
    · obtain ⟨x, rest, rfl⟩ := List.exists_cons_of_ne_nil hne
      rw [List.cons_prefix_cons] at h
      exact absurd (by simp [h.1]) (hstart x rfl)
    · exact ih (fun x hx hm => hstart x hx (by simp [hm])) h

theorem infix_of_concat {c : Char} (hc : c ∉ pattern) (hne : pattern ≠ []) (h : pattern <:+: cs ++ [c]) :
    pattern <:+: cs := by
  rw [← List.reverse_infix, List.reverse_append, List.reverse_singleton, List.singleton_append,
    List.infix_cons_iff] at h
  rcases h with h | h
  · obtain ⟨x, rest, hr⟩ := List.exists_cons_of_ne_nil (List.reverse_eq_nil_iff.not.mpr hne)
    rw [hr, List.cons_prefix_cons] at h
    have hx : x ∈ pattern := by
      rw [← List.mem_reverse, hr]
      simp
    exact absurd (h.1 ▸ hx) hc
  · exact List.reverse_infix.mp h

theorem infix_of_flatMap (hf : Spares f pattern) (hne : pattern ≠ []) (h : pattern <:+: cs.flatMap f) :
    pattern <:+: cs := by
  induction cs with
  | nil => simpa using h
  | cons c cs ih =>
    rw [List.flatMap_cons] at h
    rcases hf c with hc | ⟨d, tail, hc, hd, hstart⟩
    · rw [hc, List.singleton_append, List.infix_cons_iff] at h
      rcases h with h | h
      · have hfull : pattern <+: (c :: cs).flatMap f := by simpa [hc] using h
        refine (start_of_flatMap (fun c => ?_) hfull).isInfix
        rcases hf c with hc | ⟨d, tail, hc, hd, -⟩
        · exact .inl hc
        · exact .inr ⟨d, tail, hc, hd⟩
      · exact List.infix_cons_iff.mpr (.inr (ih h))
    · exact List.infix_cons_iff.mpr (.inr (ih (infix_of_append hstart hne h)))

end Escaping

/-! ## The search for a marker -/

open Yaml

/-- The search goes on from one number to the next until a marker is fresh. -/
inductive Search (ts : List String) : Nat → Nat → Prop
  | found {n : Nat} : isFresh ts n = true → Search ts n n
  | next {n m : Nat} : isFresh ts n = false → Search ts (n + 1) m → Search ts n m

theorem search_of_first {ts : List String} {m : Nat} (hm : isFresh ts m = true)
    (hfirst : ∀ k < m, isFresh ts k = false) {n : Nat} (hn : n ≤ m) : Search ts n m := by
  induction hn using Nat.decreasingInduction with
  | self => exact .found hm
  | of_succ k hk ih => exact .next (hfirst k hk) ih

theorem not_isFresh_of_lt (ts : List String) {k : Nat} (hk : k < freshNumber ts) : isFresh ts k = false := by
  unfold freshNumber at hk
  cases hfind : (List.range (ts.foldl (fun n t => n + t.length) 0 + 1)).find? (isFresh ts) with
  | none => simp [hfind] at hk
  | some n =>
    obtain ⟨-, -, hfirst⟩ := List.find?_range_eq_some.mp hfind
    simpa using hfirst k (by simpa [hfind] using hk)

theorem search_freshNumber (ts : List String) : Search ts 0 (freshNumber ts) :=
  search_of_first (isFresh_freshNumber ts) (fun _ hk => not_isFresh_of_lt ts hk) (Nat.zero_le _)

/-! ## Tags -/

mutual

/-- All tags of a value as they are shown, those of keys included. -/
def tags : Value → List String
  | .sequence items => itemTags items
  | .mapping entries => entryTags entries
  | .tagged t v => Value.shownTag t :: tags v
  | _ => []

def itemTags : List Value → List String
  | [] => []
  | v :: rest => tags v ++ itemTags rest

def entryTags : List (Value × Value) → List String
  | [] => []
  | (k, v) :: rest => tags k ++ tags v ++ entryTags rest

end

/-- The marker with number `n` stands nowhere in a value: in no text, in no key and in no tag. -/
def IsUnused (v : Value) (n : Nat) : Prop := ∀ w ∈ texts v ++ tags v, ¬ (marker n).toList <:+: w.toList

theorem isFresh_iff {ts : List String} {n : Nat} :
    isFresh ts n = true ↔ ∀ t ∈ ts, ¬ (marker n).toList <:+: t.toList := by
  simp only [isFresh, contains, List.all_eq_true, Bool.not_eq_true', Bool.eq_false_iff, ne_eq, occursIn_iff]

/-- The search for a marker ends at the first one that stands nowhere in the value exactly if no tag holds it. -/
theorem isLeast_freshNumber_iff (v : Value) : IsLeast {n | IsUnused v n} (freshNumber (texts v)) ↔
    ∀ t ∈ tags v, ¬ (marker (freshNumber (texts v))).toList <:+: t.toList := by
  refine ⟨fun h t ht => h.1 t (List.mem_append_right _ ht), fun h => ⟨?_, ?_⟩⟩
  · intro w hw
    obtain hw | hw := List.mem_append.mp hw
    · exact isFresh_iff.mp (isFresh_freshNumber (texts v)) w hw
    · exact h w hw
  · intro n hn
    by_contra hlt
    have hheld := not_isFresh_of_lt (texts v) (Nat.lt_of_not_le hlt)
    rw [isFresh_iff.mpr fun t ht => hn t (List.mem_append_left _ ht)] at hheld
    cases hheld

end CiWorkflow.Render
