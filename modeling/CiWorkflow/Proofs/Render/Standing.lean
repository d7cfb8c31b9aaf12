import CiWorkflow.Proofs.Render.Restore

set_option autoImplicit false

namespace CiWorkflow.Render

open Text

def standings (n : Nat) (cs : List Char) : List (List Char) := cs.tails.filter (marker n).toList.isPrefixOf

/-- The text starts with the reference to script `i`, whose index ends there. -/
def StartsReference (n : Nat) (cs : List Char) (i : Nat) : Prop :=
  ∃ back, cs = (reference n i).toList ++ back ∧ back.head?.any isDecimalDigit = false

/-- The marker stands in the text where the references with the given indices start, in this order, and nowhere
else. -/
def HoldsAt (n : Nat) (cs : List Char) (indices : List Nat) : Prop :=
  List.Forall₂ (StartsReference n) (standings n cs) indices

/-! ## Parts -/

def isReferenceChar (c : Char) : Bool := c = '_' || c.isAlphanum || isDecimalDigit c

/-- Where the parts meet there is a character that no reference has next to it. -/
def Parted (A B : List Char) : Prop :=
  ∀ a ∈ A.getLast?, ∀ b ∈ B.head?, isReferenceChar a = false ∨ isReferenceChar b = false

theorem isReferenceChar_marker (n : Nat) : ∀ c ∈ (marker n).toList, isReferenceChar c = true := by
  intro c hc
  have hstem : ∀ c ∈ markerStem.toList, isReferenceChar c = true := forall_mem_of_all (by decide)
  rcases mem_marker hc with hc | hc
  · exact hstem c hc
  · simp [isReferenceChar, isDecimalDigit_of_isDigit c hc]

theorem mem_standings {n : Nat} {cs rest : List Char} :
    rest ∈ standings n cs ↔ (marker n).toList <+: rest ∧ rest <:+ cs := by
  simp [standings, and_comm]

theorem prefix_of_parted {m A B : List Char} (hm : ∀ c ∈ m, isReferenceChar c = true) (hA : A ≠ [])
    (hparted : Parted A B) : m <+: A ++ B ↔ m <+: A := by
  refine ⟨fun ⟨rest, hrest⟩ => ?_, fun h => h.trans (List.prefix_append A B)⟩
  obtain ⟨tail, rfl, -⟩ | ⟨tail, rfl, rfl⟩ := List.append_eq_append_iff.mp hrest
  · exact List.prefix_append _ _
  · cases tail with
    | nil => simp
    | cons b tail =>
      -- The pattern would reach across the border, so the characters next to it would both be its own.
      exfalso
      have ha := List.getLast?_eq_some_getLast hA
      obtain h | h := hparted _ ha b (by simp)
      · rw [hm _ (List.mem_append_left _ (List.mem_of_getLast? ha))] at h
        cases h
      · rw [hm b (by simp)] at h
        cases h

theorem Parted.of_suffix {A A' B : List Char} (h : Parted A B) (hsuffix : A' <:+ A) : Parted A' B := by
  intro a ha
  obtain ⟨front, rfl⟩ := hsuffix
  refine h a ?_
  rw [List.getLast?_append, ha]
  rfl

theorem standings_append {n : Nat} {A B : List Char} (h : Parted A B) :
    standings n (A ++ B) = (standings n A).map (· ++ B) ++ standings n B := by
  induction A with
  | nil =>
    have hnone : (marker n).toList.isPrefixOf [] = false := by
      simpa [Bool.eq_false_iff] using marker_ne_nil n
    simp [standings, hnone]
  | cons a A ih =>
    have htail : standings n (A ++ B) = (standings n A).map (· ++ B) ++ standings n B := by
      cases A with
      | nil => exact ih (by simp [Parted])
      | cons b A => exact ih (h.of_suffix (List.suffix_cons a _))
    have hstart := prefix_of_parted (isReferenceChar_marker n) (List.cons_ne_nil a A) h
    unfold standings at htail ⊢
    rw [List.cons_append, List.tails_cons, List.tails_cons, List.filter_cons, List.filter_cons, htail]
    by_cases hm : (marker n).toList <+: a :: A
    · have hm' := hstart.mpr hm
      rw [List.cons_append] at hm'
      simp [hm, hm']
    · have hm' := mt hstart.mp hm
      rw [List.cons_append] at hm'
      simp [hm, hm']

theorem isDigit_getLast_reference (n i : Nat) : ∀ c ∈ (reference n i).toList.getLast?, c.isDigit = true := by
  intro c hc
  have hlast := List.getLast?_eq_some_getLast (Nat.toDigits_ne_nil (n := i) (b := 10))
  have heq : (reference n i).toList = ((marker n).toList ++ [':']) ++ Nat.toDigits 10 i := by simp [reference]
  rw [heq, List.getLast?_append, hlast, Option.some_or] at hc
  exact Nat.isDigit_of_mem_toDigits (by decide) (by decide) (List.mem_of_getLast? (hlast.trans hc))

theorem StartsReference.append {n i : Nat} {A B : List Char} (h : StartsReference n A i) (hparted : Parted A B) :
    StartsReference n (A ++ B) i := by
  obtain ⟨back, rfl, hback⟩ := h
  refine ⟨back ++ B, by rw [List.append_assoc], ?_⟩
  cases back with
  | cons c back => exact hback
  | nil =>
    rw [List.append_nil] at hparted
    cases B with
    | nil => rfl
    | cons b B =>
      have hne : (reference n i).toList ≠ [] := by simp [reference_eq, spelled]
      have ha := List.getLast?_eq_some_getLast hne
      have hdigit := isDecimalDigit_of_isDigit _ (isDigit_getLast_reference n i _ ha)
      obtain h | h := hparted _ ha b rfl
      · simp [isReferenceChar, hdigit] at h
      · simp only [isReferenceChar, Bool.or_eq_false_iff] at h
        simpa using h.2

theorem standings_marker (n : Nat) : standings n (marker n).toList = [(marker n).toList] := by
  obtain ⟨c, tail, heq⟩ := List.exists_cons_of_ne_nil (marker_ne_nil n)
  have hnone : tail.tails.filter (c :: tail).isPrefixOf = [] := by
    rw [List.filter_eq_nil_iff]
    intro rest hrest hstart
    have hsuffix := ((List.mem_tails _ _).mp hrest).length_le
    have hlong := (List.isPrefixOf_iff_prefix.mp hstart).length_le
    simp only [List.length_cons] at hlong
    omega
  rw [standings, heq, List.tails_cons, List.filter_cons, hnone]
  simp

namespace HoldsAt

variable {n : Nat} {A B : List Char} {is js : List Nat}

theorem append (hA : HoldsAt n A is) (hB : HoldsAt n B js) (h : Parted A B) : HoldsAt n (A ++ B) (is ++ js) := by
  unfold HoldsAt at hA ⊢
  rw [standings_append h]
  have hparts : ∀ rest ∈ standings n A, Parted rest B := fun rest hrest => h.of_suffix (mem_standings.mp hrest).2
  have hfront := ((List.forall₂_and_left (p := (Parted · B)) _ _).mpr ⟨hparts, hA⟩).imp
    fun rest i hrest => hrest.2.append hrest.1
  exact List.rel_append (List.forall₂_map_left_iff.mpr hfront) hB

theorem nil_iff : HoldsAt n A [] ↔ ¬ (marker n).toList <:+: A := by
  rw [HoldsAt, List.forall₂_nil_right_iff, List.eq_nil_iff_forall_not_mem]
  constructor
  · rintro h ⟨front, back, rfl⟩
    refine h ((marker n).toList ++ back) (mem_standings.mpr ⟨List.prefix_append _ _, ?_⟩)
    exact ⟨front, by rw [List.append_assoc]⟩
  · intro h rest hrest
    obtain ⟨hstart, hsuffix⟩ := mem_standings.mp hrest
    exact h (hstart.isInfix.trans hsuffix.isInfix)

theorem nil_of_infix (h : HoldsAt n A []) (hin : B <:+: A) : HoldsAt n B [] :=
  nil_iff.mpr fun hmarker => nil_iff.mp h (hmarker.trans hin)

theorem of_not_mem (h : '_' ∉ A) : HoldsAt n A [] :=
  nil_iff.mpr fun hmarker => h (hmarker.subset (List.mem_of_mem_head? (head_marker n)))

theorem of_reference (n i : Nat) : HoldsAt n (reference n i).toList [i] := by
  have hindex : '_' ∉ ':' :: Nat.toDigits 10 i := by
    rintro (_ | ⟨_, h⟩)
    exact absurd (Nat.isDigit_of_mem_toDigits (by decide) (by decide) h) (by decide)
  have heq : (reference n i).toList = (marker n).toList ++ ':' :: Nat.toDigits 10 i := by simp [reference]
  have hnone : standings n (':' :: Nat.toDigits 10 i) = [] := List.forall₂_nil_right_iff.mp (of_not_mem hindex)
  have hparted : Parted (marker n).toList (':' :: Nat.toDigits 10 i) := by
    rintro a - b hb
    cases hb
    exact .inr (by decide)
  have hstandings : standings n (reference n i).toList = [(reference n i).toList] := by
    rw [heq, standings_append hparted, standings_marker, hnone]
    rfl
  rw [HoldsAt, hstandings]
  exact .cons ⟨[], by simp, rfl⟩ .nil

/-- Between other characters the text holds the marker where it does alone. -/
theorem behind (h : HoldsAt n A is) (front : List Char) (hnone : '_' ∉ front)
    (hend : ∀ c ∈ front.getLast?, isReferenceChar c = false) : HoldsAt n (front ++ A) is :=
  (of_not_mem hnone).append h fun c hc _ _ => .inl (hend c hc)

theorem before (h : HoldsAt n A is) (back : List Char) (hnone : '_' ∉ back)
    (hstart : ∀ c ∈ back.head?, isReferenceChar c = false) : HoldsAt n (A ++ back) is := by
  have hboth := h.append (of_not_mem hnone) fun _ _ c hc => .inr (hstart c hc)
  rwa [List.append_nil] at hboth

end HoldsAt

/-! ## Texts of a value -/

/-- Each of the texts is the reference with the next index, or holds no marker. -/
inductive Mentions (n : Nat) : List String → List Nat → Prop
  | nil : Mentions n [] []
  | free {t : String} {ts : List String} {is : List Nat} :
    HoldsAt n t.toList [] → Mentions n ts is → Mentions n (t :: ts) is
  | reference {i : Nat} {ts : List String} {is : List Nat} :
    Mentions n ts is → Mentions n (reference n i :: ts) (i :: is)

namespace Mentions

variable {n : Nat} {ts us : List String} {is js : List Nat}

theorem append (h : Mentions n ts is) (h' : Mentions n us js) : Mentions n (ts ++ us) (is ++ js) := by
  induction h with
  | nil => exact h'
  | free ht _ ih => exact .free ht ih
  | reference _ ih => exact .reference ih

theorem of_append (h : Mentions n (ts ++ us) is) : ∃ js ks, is = js ++ ks ∧ Mentions n ts js ∧ Mentions n us ks := by
  induction ts generalizing is with
  | nil => exact ⟨[], is, rfl, .nil, h⟩
  | cons t ts ih =>
    cases h with
    | free ht h =>
      obtain ⟨js, ks, heq, hjs, hks⟩ := ih h
      exact ⟨js, ks, heq, .free ht hjs, hks⟩
    | reference h =>
      obtain ⟨js, ks, rfl, hjs, hks⟩ := ih h
      exact ⟨_ :: js, ks, rfl, .reference hjs, hks⟩

theorem of_free (h : ∀ t ∈ ts, HoldsAt n t.toList []) : Mentions n ts [] := by
  induction ts with
  | nil => exact .nil
  | cons t ts ih =>
    obtain ⟨ht, hts⟩ := List.forall_mem_cons.mp h
    exact .free ht (ih hts)

end Mentions

theorem not_mem_marker {c : Char} (h : isReferenceChar c = false) (n : Nat) : c ∉ (marker n).toList := by
  intro hc
  rw [isReferenceChar_marker n c hc] at h
  cases h

end CiWorkflow.Render
