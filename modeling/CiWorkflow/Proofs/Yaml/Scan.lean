import CiWorkflow.Proofs.Yaml.Position
import CiWorkflow.Yaml.Token.Scanner

set_option autoImplicit false

namespace CiWorkflow.Yaml.Scanner

def ready (s : Scanner) : Scanner :=
  { s with
    keyAllowed := (skipToToken s.inFlow s.keyAllowed false s.rest).1
    rest := (skipToToken s.inFlow s.keyAllowed false s.rest).2 }

def fresh (c : Cell) (s : Scanner) : Scanner :=
  { s with
    blockKey := s.blockKey.filter fun k => !isStale c k
    brackets := s.brackets.map (Option.filter fun k => !isStale c k) }

def Leads (s t : Scanner) : Prop :=
  ∃ n, n + t.rest.length ≤ s.rest.length ∧ ∀ k, run (n + k) s = run k t

def Fails (s : Scanner) : Prop := ∀ k, s.rest.length < k → run k s = none

/-- Scanning from the state ends with these tokens. -/
def Ends (s : Scanner) (ts : List Token) : Prop := ∀ k, s.rest.length < k → run k s = some ts

theorem run_succ (n : Nat) (s : Scanner) :
    run (n + 1) s =
      match s.ready.dropStale? with
      | none => none
      | some t =>
        match t.rest with
        | [] => (t.closeBlocks none).dropKey?.map fun t => t.tokens.reverse
        | c :: rest =>
          match (t.closeBlocks (some c.column)).token? c rest with
          | none => none
          | some u => run n u := rfl

theorem run_eq_of_ready {s t : Scanner} (h : s.ready = t.ready) (n : Nat) : run n s = run n t := by
  cases n with
  | zero => rfl
  | succ n => rw [run_succ, run_succ, h]

theorem Leads.refl (s : Scanner) : Leads s s := ⟨0, by simp, by simp⟩

theorem Leads.trans {s t u : Scanner} (h : Leads s t) (h' : Leads t u) : Leads s u := by
  obtain ⟨n, hn, hrun⟩ := h
  obtain ⟨m, hm, hrun'⟩ := h'
  refine ⟨n + m, by omega, ?_⟩
  intro k
  rw [Nat.add_assoc, hrun, hrun']

theorem Leads.fails {s t : Scanner} (h : Leads s t) (hf : Fails t) : Fails s := by
  obtain ⟨n, hn, hrun⟩ := h
  intro k hk
  have hk' : k = n + (k - n) := by omega
  rw [hk', hrun]
  exact hf _ (by omega)

theorem Leads.ends {s t : Scanner} {ts : List Token} (h : Leads s t) (he : Ends t ts) : Ends s ts := by
  obtain ⟨n, hn, hrun⟩ := h
  intro k hk
  have hk' : k = n + (k - n) := by omega
  rw [hk', hrun]
  exact he _ (by omega)

/-- States that scan alike can stand for one another where the text of the second is no longer. -/
theorem leads_of_run_eq {s t : Scanner} (h : ∀ k, run k s = run k t)
    (hl : t.rest.length ≤ s.rest.length) : Leads s t :=
  ⟨0, by omega, by simpa using h⟩

theorem dropStale_of_optional {s : Scanner} {c : Cell} {rest : List Cell} (hr : s.rest = c :: rest)
    (hk : ∀ k ∈ s.blockKey, k.required = false) : s.dropStale? = some (s.fresh c) := by
  have hany : (s.blockKey.any fun k => k.required && isStale c k) = false := by
    cases hb : s.blockKey with
    | none => rfl
    | some k => simp [hk k (by simp [hb])]
  simp [dropStale?, hr, hany, fresh]

theorem leads_of_token {s t : Scanner} {c : Cell} {rest : List Cell} (hr : s.ready.rest = c :: rest)
    (hk : ∀ k ∈ s.blockKey, k.required = false)
    (ht : ((s.ready.fresh c).closeBlocks (some c.column)).token? c rest = some t)
    (hl : t.rest.length < s.rest.length) : Leads s t := by
  refine ⟨1, by omega, ?_⟩
  intro k
  rw [Nat.add_comm, run_succ, dropStale_of_optional hr hk]
  have hfresh : (s.ready.fresh c).rest = c :: rest := hr
  simp only [hfresh, ht]

theorem fails_of_token {s : Scanner} {c : Cell} {rest : List Cell} (hr : s.ready.rest = c :: rest)
    (hk : ∀ k ∈ s.blockKey, k.required = false)
    (ht : ((s.ready.fresh c).closeBlocks (some c.column)).token? c rest = none) : Fails s := by
  intro k hlt
  obtain ⟨k, rfl⟩ : ∃ j, k = j + 1 := ⟨k - 1, by omega⟩
  rw [run_succ, dropStale_of_optional hr hk]
  have hfresh : (s.ready.fresh c).rest = c :: rest := hr
  simp only [hfresh, ht]

theorem run_of_rest_nil {s : Scanner} (hr : s.ready.rest = []) (hb : s.brackets = [])
    (hk : ∀ k ∈ s.blockKey, k.required = false) (n : Nat) :
    run (n + 1) s = some (s.tokens.reverse ++ List.replicate s.columns.length .blockEnd) := by
  have hstale : s.ready.dropStale? = some s.ready := by simp [dropStale?, hr]
  have hany : (s.blockKey.any fun k => k.required) = false := by
    cases hbk : s.blockKey with
    | none => rfl
    | some k => simp [hk k (by simp [hbk])]
  rw [run_succ, hstale]
  simp only [hr]
  simp [closeBlocks, inFlow, remaining_none, dropKey?, currentKey, setKey, ready, hb, hany]

theorem ends_of_rest_nil {s : Scanner} (hr : s.ready.rest = []) (hb : s.brackets = [])
    (hk : ∀ k ∈ s.blockKey, k.required = false) :
    Ends s (s.tokens.reverse ++ List.replicate s.columns.length .blockEnd) := by
  intro k hlt
  obtain ⟨k, rfl⟩ : ∃ j, k = j + 1 := ⟨k - 1, by omega⟩
  exact run_of_rest_nil hr hb hk k

theorem leads_comment (p : Position) (line rest : List Char) (h : ∀ c ∈ line, isBreak c = false) :
    Leads (start (p.cells ('#' :: line ++ '\n' :: rest)))
      (start ((p.after ('#' :: line ++ ['\n'])).cells rest)) := by
  have hline : ∀ (q : Position) (cs : List Char), (∀ c ∈ cs, isBreak c = false) →
      skipToToken false true true (q.cells (cs ++ '\n' :: rest)) =
        skipToToken false true false ((q.after (cs ++ ['\n'])).cells rest) := by
    intro q cs
    induction cs generalizing q with
    | nil =>
      intro _
      rw [List.nil_append, Position.cells_cons q '\n' rest (by decide), skipToToken.eq_def]
      simp [isBreak]
    | cons c cs ih =>
      intro hcs
      have hc := hcs c (by simp)
      have hcr : c ≠ '\r' := by
        rintro rfl
        cases hc
      rw [List.cons_append, Position.cells_cons q c _ hcr, skipToToken.eq_def]
      simp only [Position.isLineEnd_cell, hc, Bool.false_eq_true, ↓reduceIte]
      exact ih (q.next c) fun d hd => hcs d (by simp [hd])
  refine leads_of_run_eq (run_eq_of_ready ?_) ?_
  · have hskip : skipToToken false true false (p.cells ('#' :: line ++ '\n' :: rest)) =
        skipToToken false true false ((p.after ('#' :: line ++ ['\n'])).cells rest) := by
      rw [List.cons_append, Position.cells_cons p '#' _ (by decide), skipToToken.eq_def]
      simpa [Position.cell_char p '#' rfl, isBreak] using hline (p.next '#') line h
    simp only [ready, start, inFlow, List.isEmpty_nil, Bool.not_true, hskip]
  · have hcr : '\r' ∉ '#' :: line ++ ['\n'] := by
      intro hmem
      simp only [List.cons_append, List.mem_cons, List.mem_append, List.not_mem_nil, or_false] at hmem
      rcases hmem with hmem | hmem | hmem
      · cases hmem
      · cases h _ hmem
      · cases hmem
    have := Position.length_cells_after_le p ('#' :: line ++ ['\n']) rest hcr
    rwa [List.append_assoc, List.singleton_append] at this

/-- The tokens of a text, all of whose characters may stand in a document. -/
theorem tokens_of_ends {s : String} {ts : List Token} (ha : s.toList.all isAllowed = true)
    (h : Ends (start (Position.start.cells s.toList)) ts) : tokens? s = some ts := by
  have hcells : cells? s.toList = some (Position.start.cells s.toList) := if_pos ha
  rw [tokens?, hcells]
  exact h _ (by simp [start])

theorem tokens_of_fails {s : String} (h : Fails (start (Position.start.cells s.toList))) : tokens? s = none := by
  by_cases ha : s.toList.all isAllowed = true
  · have hcells : cells? s.toList = some (Position.start.cells s.toList) := if_pos ha
    rw [tokens?, hcells]
    exact h _ (by simp [start])
  · have hcells : cells? s.toList = none := if_neg ha
    rw [tokens?, hcells]
    rfl

theorem isAllowed_of_tokens {s : String} {ts : List Token} (h : tokens? s = some ts) :
    s.toList.all isAllowed = true := by
  by_cases ha : s.toList.all isAllowed = true
  · exact ha
  have hcells : cells? s.toList = none := if_neg ha
  rw [tokens?, hcells] at h
  cases h

end CiWorkflow.Yaml.Scanner
