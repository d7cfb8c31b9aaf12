import CiWorkflow.Yaml.Cell

set_option autoImplicit false

namespace CiWorkflow.Yaml

structure Position where
  index : Nat
  line : Nat
  column : Nat

namespace Position

def start : Position := ⟨0, 0, 0⟩

def next (p : Position) (c : Char) : Position :=
  if isBreak c then ⟨p.index + 1, p.line + 1, 0⟩ else ⟨p.index + 1, p.line, p.column + 1⟩

def after (p : Position) (cs : List Char) : Position := cs.foldl next p

def cell (p : Position) (c : Char) : Cell := ⟨normalBreak c, p.index, p.line, p.column⟩

def cells (p : Position) (cs : List Char) : List Cell := cellsFrom p.index p.line p.column cs

@[simp] theorem after_nil (p : Position) : p.after [] = p := rfl

@[simp] theorem after_cons (p : Position) (c : Char) (cs : List Char) :
    p.after (c :: cs) = (p.next c).after cs := rfl

@[simp] theorem after_append (p : Position) (a b : List Char) : p.after (a ++ b) = (p.after a).after b :=
  List.foldl_append

@[simp] theorem next_index (p : Position) (c : Char) : (p.next c).index = p.index + 1 := by
  unfold next
  split <;> rfl

theorem next_of_not_break (p : Position) (c : Char) (h : isBreak c = false) :
    p.next c = ⟨p.index + 1, p.line, p.column + 1⟩ := by
  simp [next, h]

theorem next_of_break (p : Position) (c : Char) (h : isBreak c = true) :
    p.next c = ⟨p.index + 1, p.line + 1, 0⟩ := by
  simp [next, h]

theorem after_index (p : Position) (cs : List Char) : (p.after cs).index = p.index + cs.length := by
  induction cs generalizing p with
  | nil => simp
  | cons c rest ih =>
    rw [after_cons, ih, next_index, List.length_cons]
    omega

theorem after_line_le (p : Position) (cs : List Char) : p.line ≤ (p.after cs).line := by
  induction cs generalizing p with
  | nil => simp
  | cons c rest ih =>
    have h := ih (p.next c)
    have hn : p.line ≤ (p.next c).line := by
      unfold next
      split <;> simp
    rw [after_cons]
    omega

theorem after_of_no_break (p : Position) (cs : List Char) (h : ∀ c ∈ cs, isBreak c = false) :
    p.after cs = ⟨p.index + cs.length, p.line, p.column + cs.length⟩ := by
  induction cs generalizing p with
  | nil => rfl
  | cons c rest ih =>
    rw [after_cons, next_of_not_break p c (h c (by simp)), ih _ fun d hd => h d (by simp [hd])]
    simp only [List.length_cons, mk.injEq, true_and]
    omega

theorem after_concat_break (p : Position) (cs : List Char) (c : Char) (h : isBreak c = true) :
    p.after (cs ++ [c]) = ⟨p.index + cs.length + 1, (p.after cs).line + 1, 0⟩ := by
  rw [after_append, after_cons, after_nil, next_of_break _ _ h, after_index]

@[simp] theorem cells_nil (p : Position) : p.cells [] = [] := rfl

theorem normalBreak_of_not_break (c : Char) (h : isBreak c = false) : normalBreak c = c := by
  unfold normalBreak
  split
  · rename_i hc
    simp only [Bool.or_eq_true, decide_eq_true_eq] at hc
    rcases hc with rfl | rfl <;> simp [isBreak] at h
  · rfl

@[simp] theorem cells_cons (p : Position) (c : Char) (cs : List Char) (h : c ≠ '\r') :
    p.cells (c :: cs) = p.cell c :: (p.next c).cells cs := by
  have hcells : p.cells (c :: cs) =
      if isBreak c then
        ⟨normalBreak c, p.index, p.line, p.column⟩ :: cellsFrom (p.index + 1) (p.line + 1) 0 cs
      else ⟨c, p.index, p.line, p.column⟩ :: cellsFrom (p.index + 1) p.line (p.column + 1) cs := by
    unfold cells
    cases cs with
    | nil => simp [cellsFrom]
    | cons d rest => simp [cellsFrom, h]
  rw [hcells]
  by_cases hb : isBreak c = true
  · simp [hb, cell, next, cells]
  · have hb : isBreak c = false := by simpa using hb
    simp [hb, cell, next, cells, normalBreak_of_not_break c hb]

theorem cells_append (p : Position) (a b : List Char) (h : '\r' ∉ a) :
    p.cells (a ++ b) = p.cells a ++ (p.after a).cells b := by
  induction a generalizing p with
  | nil => rfl
  | cons c rest ih =>
    have hc : c ≠ '\r' := fun hc => h (by simp [hc])
    have hrest : '\r' ∉ rest := fun hr => h (by simp [hr])
    rw [List.cons_append, cells_cons p c _ hc, cells_cons p c _ hc, ih _ hrest, after_cons,
      List.cons_append]

theorem drop_cells (p : Position) {front : List Char} (h : '\r' ∉ front) (back : List Char) :
    (p.cells (front ++ back)).drop front.length = (p.after front).cells back := by
  induction front generalizing p with
  | nil => rfl
  | cons c front ih =>
    have hc : c ≠ '\r' := fun hc => h (by simp [hc])
    rw [List.cons_append, cells_cons p c _ hc, List.length_cons, List.drop_succ_cons, after_cons]
    exact ih (p.next c) fun hr => h (by simp [hr])

theorem length_cells_after_le (p : Position) (a b : List Char) (h : '\r' ∉ a) :
    ((p.after a).cells b).length ≤ (p.cells (a ++ b)).length := by
  rw [cells_append p a b h, List.length_append]
  omega

theorem isSpaceOrTab_normalBreak (c : Char) : isSpaceOrTab (normalBreak c) = isSpaceOrTab c := by
  unfold normalBreak
  split
  · rename_i hc
    simp only [Bool.or_eq_true, decide_eq_true_eq] at hc
    rcases hc with rfl | rfl <;> decide
  · rfl

theorem isBreak_normalBreak (c : Char) : isBreak (normalBreak c) = isBreak c := by
  unfold normalBreak
  split
  · rename_i hc
    simp only [Bool.or_eq_true, decide_eq_true_eq] at hc
    rcases hc with rfl | rfl <;> decide
  · rfl

@[simp] theorem isBlank_cell (p : Position) (c : Char) : (p.cell c).isBlank = isSpaceOrTab c :=
  isSpaceOrTab_normalBreak c

@[simp] theorem isLineEnd_cell (p : Position) (c : Char) : (p.cell c).isLineEnd = isBreak c :=
  isBreak_normalBreak c

@[simp] theorem cell_column (p : Position) (c : Char) : (p.cell c).column = p.column := rfl

@[simp] theorem cell_index (p : Position) (c : Char) : (p.cell c).index = p.index := rfl

@[simp] theorem cell_line (p : Position) (c : Char) : (p.cell c).line = p.line := rfl

theorem cell_char (p : Position) (c : Char) (h : isBreak c = false) : (p.cell c).char = c :=
  normalBreak_of_not_break c h

theorem cells_eq_cons (p : Position) (c : Char) (cs : List Char) :
    ∃ rest, p.cells (c :: cs) = p.cell c :: rest := by
  by_cases hc : c = '\r'
  · subst hc
    cases cs with
    | nil => exact ⟨_, rfl⟩
    | cons d rest =>
      by_cases hd : d = '\n'
      · subst hd
        exact ⟨_, rfl⟩
      · refine ⟨(p.next '\r').cells (d :: rest), ?_⟩
        simp [cells, cellsFrom, hd, isBreak, cell, next]
  · exact ⟨_, cells_cons p c cs hc⟩

theorem atWordEnd_cells (p : Position) (cs : List Char) : atWordEnd (p.cells cs) = endsWord cs := by
  cases cs with
  | nil => rfl
  | cons c rest =>
    obtain ⟨tail, h⟩ := cells_eq_cons p c rest
    simp [h, atWordEnd, endsWord]

theorem atDocumentMarker_of_column (p : Position) (cs : List Char) (h : p.column ≠ 0) :
    atDocumentMarker (p.cells cs) = false := by
  cases cs with
  | nil => rfl
  | cons c rest =>
    obtain ⟨tail, hc⟩ := cells_eq_cons p c rest
    rw [hc]
    match tail with
    | [] | [_] => rfl
    | _ :: _ :: _ => simp [atDocumentMarker, isMarker, h]

def spellsMarker (mark : Char) : List Char → Bool
  | a :: b :: c :: rest => a = mark && b = mark && c = mark && endsWord rest
  | _ => false

theorem isMarker_cells (mark : Char) (hm : isBreak mark = false) (p : Position) (hp : p.column = 0)
    (cs : List Char) : isMarker mark (p.cells cs) = spellsMarker mark cs := by
  have hchar : ∀ (q : Position) (c : Char), decide ((q.cell c).char = mark) = decide (c = mark) := by
    intro q c
    by_cases hb : isBreak c = true
    · have h₁ : (q.cell c).char ≠ mark := by
        intro h
        have := isLineEnd_cell q c
        rw [Cell.isLineEnd, h, hm, hb] at this
        cases this
      have h₂ : c ≠ mark := by
        rintro rfl
        rw [hb] at hm
        cases hm
      simp [h₁, h₂]
    · rw [cell_char q c (by simpa using hb)]
  have hcr : mark ≠ '\r' := by
    rintro rfl
    simp [isBreak] at hm
  match cs with
  | [] => rfl
  | a :: as =>
    by_cases ha : a = mark
    · subst ha
      rw [cells_cons p a as hcr]
      match as with
      | [] => rfl
      | b :: bs =>
        by_cases hb : b = a
        · subst hb
          rw [cells_cons _ b bs hcr]
          match bs with
          | [] => rfl
          | c :: rest =>
            by_cases hc : c = b
            · subst hc
              rw [cells_cons _ c rest hcr]
              simp [isMarker, spellsMarker, cell_char _ c hm, hp, atWordEnd_cells]
            · obtain ⟨tail, ht⟩ := cells_eq_cons ((p.next b).next b) c rest
              rw [ht]
              simp [isMarker, spellsMarker, hchar, hc]
        · obtain ⟨tail, ht⟩ := cells_eq_cons (p.next a) b bs
          rw [ht]
          cases tail <;> cases bs <;> simp [isMarker, spellsMarker, hchar, hb]
    · obtain ⟨tail, ht⟩ := cells_eq_cons p a as
      rw [ht]
      have hfalse : isMarker mark (p.cell a :: tail) = false := by
        match tail with
        | [] | [_] => rfl
        | _ :: _ :: _ => simp [isMarker, hchar, ha]
      rw [hfalse]
      match as with
      | [] | [_] => rfl
      | _ :: _ :: _ => simp [spellsMarker, ha]

end Position

end CiWorkflow.Yaml
