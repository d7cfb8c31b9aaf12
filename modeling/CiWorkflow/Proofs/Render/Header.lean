import CiWorkflow.Proofs.Text.Every
import CiWorkflow.Proofs.Yaml.Comments
import CiWorkflow.Render.Document

set_option autoImplicit false

namespace CiWorkflow.Render

open Text Yaml

/-- Behind every line end that a reader knows inside a line of the header, another comment starts. -/
def StaysInComments (header : String) : Prop :=
  ∀ line ∈ headerLines header.toList, ∀ piece ∈ (documentLines line).tail, IsComment piece

instance (header : String) : Decidable (StaysInComments header) :=
  inferInstanceAs (Decidable (∀ line ∈ _, ∀ piece ∈ (documentLines line).tail, IsComment piece))

/-! ## The lines of a comment block -/

/-- A header line is a comment up to its first line end; the rest of it is as it was. -/
theorem isComment_commentLine_iff (line rest : List Char) :
    (∀ l ∈ documentLines (commentLine line ++ rest), IsComment l) ↔
      (∀ piece ∈ (documentLines line).tail, IsComment piece) ∧ ∀ l ∈ documentLines rest, IsComment l := by
  have hbreak : isBreak '\n' = true := rfl
  have hhash : isBreak '#' = false := rfl
  have hspace : isBreak ' ' = false := rfl
  obtain ⟨first, others, hline⟩ := List.exists_cons_of_ne_nil (splitWhere_ne_nil isBreak line)
  unfold commentLine documentLines
  rw [List.append_assoc, List.singleton_append, splitWhere_append hbreak, List.forall_mem_append]
  refine and_congr_left' ?_
  split
  · rename_i hcomment
    rw [hline, List.forall_mem_cons, List.tail_cons]
    refine and_iff_right ?_
    cases line with
    | nil =>
      cases hline
      exact .inl rfl
    | cons c tail =>
      obtain rfl : c = '#' := by simpa using hcomment
      obtain ⟨next, later, htail⟩ := List.exists_cons_of_ne_nil (splitWhere_ne_nil isBreak tail)
      simp only [splitWhere, hhash, htail, Bool.false_eq_true, if_false] at hline
      cases hline
      exact .inr rfl
  · simp [splitWhere, hhash, hspace, hline, IsComment]

theorem isComment_commentBlock_iff (header : String) :
    (∀ line ∈ documentLines (commentBlock header).toList, IsComment line) ↔ StaysInComments header := by
  rw [commentBlock, String.toList_ofList, StaysInComments]
  induction headerLines header.toList with
  | nil => simp [documentLines, splitWhere, IsComment]
  | cons line lines ih => rw [List.flatMap_cons, isComment_commentLine_iff, ih, List.forall_mem_cons]

theorem getLast?_commentBlock (header : String) :
    (commentBlock header).toList = [] ∨ (commentBlock header).toList.getLast? = some '\n' := by
  rw [commentBlock, String.toList_ofList]
  induction headerLines header.toList with
  | nil => exact .inl rfl
  | cons line lines ih =>
    refine .inr ?_
    obtain hnil | hlast := ih
    · simp [hnil, commentLine]
    · simp [List.getLast?_append, hlast]

/-! ## The characters of a comment block -/

theorem mem_headerLines {c : Char} {cs : List Char} (h : c ∈ cs) (hlf : c ≠ '\n') (hcr : c ≠ '\r') :
    ∃ line ∈ headerLines cs, c ∈ line := by
  obtain ⟨piece, hpiece, hmem⟩ := exists_mem_splitAt hlf h
  have hne : splitAt '\n' cs ≠ [] := splitWhere_ne_nil _ _
  rw [← List.dropLast_concat_getLast hne, List.mem_append, List.mem_singleton] at hpiece
  simp only [headerLines, List.mem_append]
  obtain hpiece | rfl := hpiece
  · refine ⟨_, .inl (List.mem_map_of_mem hpiece), ?_⟩
    split
    · rename_i hend
      obtain ⟨front, rfl⟩ := List.getLast?_eq_some_iff.mp hend
      simpa [hcr] using hmem
    · exact hmem
  · refine ⟨_, .inr ?_, hmem⟩
    rw [List.getLast?_eq_some_getLast hne]
    simp [List.ne_nil_of_mem hmem]

theorem mem_commentBlock {c : Char} {header : String} (h : c ∈ header.toList) (hlf : c ≠ '\n') (hcr : c ≠ '\r') :
    c ∈ (commentBlock header).toList := by
  obtain ⟨line, hline, hmem⟩ := mem_headerLines h hlf hcr
  rw [commentBlock, String.toList_ofList, List.mem_flatMap]
  refine ⟨line, hline, ?_⟩
  unfold commentLine
  split <;> simp [hmem]

theorem mem_of_mem_headerLines {c : Char} {line cs : List Char} (hline : line ∈ headerLines cs) (h : c ∈ line) :
    c ∈ cs := by
  simp only [headerLines, List.mem_append, List.mem_map] at hline
  obtain ⟨piece, hpiece, rfl⟩ | hlast := hline
  · have hmem : c ∈ piece := by
      split at h
      · exact List.dropLast_subset _ h
      · exact h
    exact mem_of_mem_splitAt (List.dropLast_subset _ hpiece) hmem
  · have hlast : line ∈ (splitAt '\n' cs).getLast?.toList := (List.mem_filter.mp hlast).1
    exact mem_of_mem_splitAt (List.mem_of_mem_getLast? (by simpa using hlast)) h

theorem mem_of_mem_commentBlock {c : Char} {header : String} (h : c ∈ (commentBlock header).toList) :
    c ∈ header.toList ∨ c ∈ ['#', ' ', '\n'] := by
  rw [commentBlock, String.toList_ofList, List.mem_flatMap] at h
  obtain ⟨line, hline, hmem⟩ := h
  unfold commentLine at hmem
  by_cases hc : c ∈ line
  · exact .inl (mem_of_mem_headerLines hline hc)
  · refine .inr ?_
    split at hmem <;> simp_all

/-- A comment block holds a character that no document may hold exactly if the header does. -/
theorem all_isAllowed_commentBlock (header : String) :
    (commentBlock header).toList.all isAllowed = true ↔ header.toList.all isAllowed = true := by
  rw [List.all_eq_true, List.all_eq_true]
  constructor
  · intro h c hc
    by_cases hlf : c = '\n'
    · rw [hlf]
      rfl
    by_cases hcr : c = '\r'
    · rw [hcr]
      rfl
    exact h c (mem_commentBlock hc hlf hcr)
  · intro h c hc
    obtain hc | hc := mem_of_mem_commentBlock hc
    · exact h c hc
    · exact Text.forall_mem_of_all (p := fun c => isAllowed c = true) (by decide) c hc

/-! ## Documents behind a header -/

theorem getLast?_commentBlock_ne (header : String) : (commentBlock header).toList.getLast? ≠ some '\r' := by
  obtain hnil | hlast := getLast?_commentBlock header
  · simp [hnil]
  · simp [hlast]

theorem holdsComments_commentBlock {header : String} (h : StaysInComments header) :
    holdsComments false (commentBlock header).toList = true := by
  have hlines := (isComment_commentBlock_iff header).mpr h
  obtain ⟨first, others, hblock⟩ :=
    List.exists_cons_of_ne_nil (splitWhere_ne_nil isBreak (commentBlock header).toList)
  rw [documentLines, hblock, List.forall_mem_cons] at hlines
  refine holdsComments_of_lines hblock (.inr hlines.1) hlines.2 ?_
  refine (getLast?_commentBlock header).imp (fun hnil => ⟨hnil, rfl⟩) fun hlast => ?_
  rw [hlast]
  rfl

theorem read_behind_commentBlock {header : String} (hallowed : header.toList.all isAllowed = true)
    (h : StaysInComments header) (body : String) :
    Yaml.read? (commentBlock header ++ body) = Yaml.read? body :=
  read_of_tokens (tokens_behind_comments (holdsComments_commentBlock h) (getLast?_commentBlock_ne header)
    ((all_isAllowed_commentBlock header).mpr hallowed))

theorem Renderer.read_render {r : Renderer} {w : Workflow} {text : String} (h : r.render w = .ok text)
    (hallowed : r.header.toList.all isAllowed = true) (hstays : StaysInComments r.header) :
    ∃ v body, w.canonical = .ok v ∧ r.body v = .ok body ∧ Yaml.read? text = Yaml.read? body := by
  obtain ⟨v, hv, h⟩ := bind_eq_ok.mp h
  obtain ⟨body, hbody, h⟩ := bind_eq_ok.mp h
  cases h
  exact ⟨v, body, hv, hbody, read_behind_commentBlock hallowed hstays body⟩

/-- A header is read as comments and changes no document exactly if documents may hold its characters and each of
its lines goes on as a comment behind every further line end. -/
theorem commentBlock_harmless_iff (header : String) :
    ((∀ line ∈ documentLines (commentBlock header).toList, IsComment line) ∧
      (∀ c ∈ (commentBlock header).toList.getLast?, isBreak c = true) ∧
      ∀ body : String, Yaml.read? (commentBlock header ++ body) = Yaml.read? body) ↔
      header.toList.all isAllowed = true ∧ StaysInComments header := by
  constructor
  · rintro ⟨hlines, -, hread⟩
    refine ⟨?_, (isComment_commentBlock_iff header).mp hlines⟩
    have hsome : (Yaml.read? (commentBlock header ++ "a")).isSome = true := by
      rw [hread "a"]
      decide +kernel
    rw [Yaml.read?, Node.read?] at hsome
    cases htokens : tokens? (commentBlock header ++ "a") with
    | none => simp [htokens] at hsome
    | some ts =>
      have hall := Scanner.isAllowed_of_tokens htokens
      rw [String.toList_append, List.all_append, Bool.and_eq_true] at hall
      exact (all_isAllowed_commentBlock header).mp hall.1
  · rintro ⟨hallowed, hstays⟩
    refine ⟨(isComment_commentBlock_iff header).mpr hstays, ?_, read_behind_commentBlock hallowed hstays⟩
    obtain hnil | hlast := getLast?_commentBlock header
    · simp [hnil]
    · simp [hlast, isBreak]

/-- Behind the line separator of this header another comment starts. -/
theorem commentBlock_harmless_two_comments :
    (∀ line ∈ documentLines (commentBlock "a\u2028# b").toList, IsComment line) ∧
      (∀ c ∈ (commentBlock "a\u2028# b").toList.getLast?, isBreak c = true) ∧
      ∀ body : String, Yaml.read? (commentBlock "a\u2028# b" ++ body) = Yaml.read? body :=
  (commentBlock_harmless_iff "a\u2028# b").mpr ⟨by decide, by decide +kernel⟩

/-- Behind the carriage return of this header an entry starts. -/
theorem commentBlock_adds_entry : ¬ ∀ header : String,
    (∀ line ∈ documentLines (commentBlock header).toList, IsComment line) ∧
      (∀ c ∈ (commentBlock header).toList.getLast?, isBreak c = true) ∧
      ∀ body : String, Yaml.read? (commentBlock header ++ body) = Yaml.read? body := by
  intro h
  have hbodyTokens : tokens? "name: n\n" =
      some [.blockMapping, .key, .scalar .plain "name", .value, .scalar .plain "n", .blockEnd] := by decide +kernel
  have htextTokens : tokens? (commentBlock "a\rb: c" ++ "name: n\n") =
      some [.blockMapping, .key, .scalar .plain "b", .value, .scalar .plain "c", .key, .scalar .plain "name",
        .value, .scalar .plain "n", .blockEnd] := by decide +kernel
  have hbody : Yaml.read? "name: n\n" = some (.mapping [(.string "name", .string "n")]) := by
    rw [Yaml.read?, Node.read?, hbodyTokens]
    rfl
  have htext : Yaml.read? (commentBlock "a\rb: c" ++ "name: n\n") =
      some (.mapping [(.string "b", .string "c"), (.string "name", .string "n")]) := by
    rw [Yaml.read?, Node.read?, htextTokens]
    rfl
  have hclaim := (h "a\rb: c").2.2 "name: n\n"
  rw [hbody, htext] at hclaim
  simp at hclaim

end CiWorkflow.Render
