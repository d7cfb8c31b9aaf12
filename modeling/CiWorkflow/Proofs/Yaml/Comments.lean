import CiWorkflow.Proofs.Text.Split
import CiWorkflow.Proofs.Yaml.Progress
import CiWorkflow.Yaml.Reader

set_option autoImplicit false

namespace CiWorkflow.Yaml

open Text

/-- The lines of a document. A carriage return with a line feed behind it counts as two line ends here, with an
empty line between them. -/
def documentLines (cs : List Char) : List (List Char) := splitWhere isBreak cs

/-- An empty line counts as a comment without text. -/
def IsComment (line : List Char) : Prop := line = [] ∨ line.head? = some '#'

instance (line : List Char) : Decidable (IsComment line) :=
  inferInstanceAs (Decidable (line = [] ∨ line.head? = some '#'))

/-- Whether the text is made of comments, each with its line end; `comment` tells that it starts inside of
one. -/
def holdsComments : Bool → List Char → Bool
  | comment, [] => !comment
  | comment, c :: rest =>
    if isBreak c then holdsComments false rest else (comment || c = '#') && holdsComments true rest

theorem holdsComments_of_lines {comment : Bool} {cs first : List Char} {others : List (List Char)}
    (hlines : documentLines cs = first :: others) (hfirst : comment = true ∨ IsComment first)
    (hothers : ∀ line ∈ others, IsComment line)
    (hend : cs = [] ∧ comment = false ∨ cs.getLast?.any isBreak = true) : holdsComments comment cs = true := by
  induction cs generalizing comment first others with
  | nil => simpa [holdsComments] using hend
  | cons c rest ih =>
    obtain ⟨next, later, hrest⟩ := List.exists_cons_of_ne_nil (splitWhere_ne_nil isBreak rest)
    have hlast : rest = [] ∧ isBreak c = true ∨ rest.getLast?.any isBreak = true := by
      cases rest <;> simpa using hend
    rw [documentLines, splitWhere, hrest] at hlines
    rw [holdsComments]
    split at hlines
    · rename_i hc
      cases hlines
      rw [if_pos hc]
      refine ih hrest (.inr (hothers next (by simp))) (fun line hline => hothers line (by simp [hline])) ?_
      exact hlast.imp_left fun h => ⟨h.1, rfl⟩
    · rename_i hc
      cases hlines
      have hhash : comment = true ∨ c = '#' := hfirst.imp id fun h => by simpa [IsComment] using h
      rw [if_neg hc]
      refine Bool.and_eq_true_iff.mpr ⟨by simpa using hhash, ih hrest (.inl rfl) hothers ?_⟩
      exact .inr (hlast.resolve_left fun h => hc h.2)

theorem getLast?_ne_of_cons {α : Type} {a b : α} {as : List α} (h : (a :: as).getLast? ≠ some b) :
    as.getLast? ≠ some b := by
  cases as with
  | nil => simp
  | cons c as => simpa using h

theorem skipToToken_comments {comment : Bool} {front : List Char} (h : holdsComments comment front = true)
    (hend : front.getLast? ≠ some '\r') (index line column : Nat) (hcolumn : comment = false → column = 0)
    (cs : List Char) :
    ∃ line', Scanner.skipToToken false true comment (cellsFrom index line column (front ++ cs)) =
      Scanner.skipToToken false true false (cellsFrom (index + front.length) line' 0 cs) := by
  induction index, line, column, front using cellsFrom.induct generalizing comment with
  | case1 index line column =>
    obtain rfl : comment = false := by simpa [holdsComments] using h
    obtain rfl := hcolumn rfl
    exact ⟨line, rfl⟩
  | case2 index line column rest ih =>
    have hrest : holdsComments false rest = true := by simpa [holdsComments, isBreak] using h
    obtain ⟨line', hskip⟩ := ih hrest (getLast?_ne_of_cons (getLast?_ne_of_cons hend)) fun _ => rfl
    refine ⟨line', ?_⟩
    have hindex : index + ('\r' :: '\n' :: rest).length = index + 2 + rest.length := by
      simp only [List.length_cons]
      omega
    rw [List.cons_append, List.cons_append, cellsFrom, Scanner.skipToToken, hindex, ← hskip]
    rfl
  | case3 index line column c rest hcr hb ih =>
    have hrest : holdsComments false rest = true := by simpa [holdsComments, hb] using h
    obtain ⟨line', hskip⟩ := ih hrest (getLast?_ne_of_cons hend) fun _ => rfl
    refine ⟨line', ?_⟩
    have hindex : index + (c :: rest).length = index + 1 + rest.length := by
      simp only [List.length_cons]
      omega
    have hbreak : isBreak (normalBreak c) = true := (Position.isBreak_normalBreak c).trans hb
    rw [List.cons_append, cellsFrom, if_pos hb, Scanner.skipToToken, hindex, ← hskip]
    · simp [Cell.isLineEnd, hbreak]
    · rintro after rfl hafter
      -- A carriage return is not the last character, so the line feed belongs to the comments.
      cases rest with
      | nil => simp at hend
      | cons d rest =>
        cases hafter
        exact hcr _ rfl rfl
  | case4 index line column c rest hcr hb ih =>
    have hnormal : (comment = true ∨ c = '#') ∧ holdsComments true rest = true := by
      simpa [holdsComments, hb] using h
    obtain ⟨hhash, hrest⟩ := hnormal
    obtain ⟨line', hskip⟩ := ih hrest (getLast?_ne_of_cons hend) (by simp)
    refine ⟨line', ?_⟩
    have hindex : index + (c :: rest).length = index + 1 + rest.length := by
      simp only [List.length_cons]
      omega
    rw [List.cons_append, cellsFrom, if_neg hb, Scanner.skipToToken, hindex, ← hskip]
    · rcases hhash with rfl | rfl
      · simp [Cell.isLineEnd, hb]
      · cases comment <;> simp [Cell.isLineEnd, isBreak]
    · rintro after rfl
      exact absurd rfl hb

/-! ## Reading on -/

theorem read_of_tokens {s t : String} (h : tokens? s = tokens? t) : read? s = read? t := by
  rw [read?, read?, Node.read?, Node.read?, h]

namespace Scanner

theorem run_start_further (cs : List Char) (chars lines n : Nat) :
    run n (start (cellsFrom chars lines 0 cs)) = run n (start (cellsFrom 0 0 0 cs)) := by
  have hcells := cellsFrom_shift chars lines 0 0 0 cs
  rw [Nat.zero_add, Nat.zero_add] at hcells
  have hstate : start (cellsFrom chars lines 0 cs) = (start (cellsFrom 0 0 0 cs)).shift [] chars lines := by
    rw [hcells]
    simp [shift, start]
  rw [hstate, run_shift]
  simp

end Scanner

theorem tokens_behind_comments {front s : String} (h : holdsComments false front.toList = true)
    (hend : front.toList.getLast? ≠ some '\r') (hallowed : front.toList.all isAllowed = true) :
    tokens? (front ++ s) = tokens? s := by
  rw [tokens?, tokens?, cells?, cells?, String.toList_append, List.all_append, hallowed, Bool.true_and]
  split
  · obtain ⟨line, hskip⟩ := skipToToken_comments h hend 0 0 0 (fun _ => rfl) s.toList
    have hready : (Scanner.start (cellsFrom 0 0 0 (front.toList ++ s.toList))).ready =
        (Scanner.start (cellsFrom (0 + front.toList.length) line 0 s.toList)).ready := by
      simp only [Scanner.ready, Scanner.start, Scanner.inFlow, List.isEmpty_nil, Bool.not_true, hskip]
    have hrun (n : Nat) : Scanner.run n (Scanner.start (cellsFrom 0 0 0 (front.toList ++ s.toList))) =
        Scanner.run n (Scanner.start (cellsFrom 0 0 0 s.toList)) :=
      (Scanner.run_eq_of_ready hready n).trans (Scanner.run_start_further s.toList _ line n)
    exact Scanner.run_eq_of_run_eq hrun
  · rfl

end CiWorkflow.Yaml
