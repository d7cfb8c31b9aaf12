import CiWorkflow.Proofs.Json.Quoted
import CiWorkflow.Proofs.Render.Document
import CiWorkflow.Proofs.Text.Every
import CiWorkflow.Proofs.Yaml.Number
import CiWorkflow.Json.Writer

set_option autoImplicit false

namespace CiWorkflow.Json

open Yaml Yaml.Position Yaml.Scanner Render

def reread? (s : List Char) : Option (List Char) := reread false [] .none s

def isKey (name : List Char) : Bool := !name.any isRawBreak && (quoted name).length ≤ 1024

def stringTokens? (s : List Char) : Option (List Token) :=
  (reread? s).map fun t => [.scalar .quoted (String.ofList t)]

def nameTokens? (name : List Char) : Option (List Token) :=
  (stringTokens? name).map fun ts => (if isKey name then [.key] else []) ++ ts ++ [.value]

mutual

/-- The tokens of the JSON text of a value; none if a string ends the scan. -/
def valueTokens? : Value → Option (List Token)
  | .null => some [.scalar .plain "null"]
  | .bool b => some [.scalar .plain (if b then "true" else "false")]
  | .int n => some [.scalar .plain (toString n)]
  | .float x => some [.scalar .plain (String.ofList ((floatText? x).getD "null".toList))]
  | .string s => stringTokens? s.toList
  | .sequence [] => some [.flowSequence, .flowSequenceEnd]
  | .sequence (v :: rest) => do
    let ts ← valueTokens? v
    let us ← itemsTokens? rest
    return .flowSequence :: (ts ++ us ++ [.flowSequenceEnd])
  | .mapping [] => some [.flowMapping, .flowMappingEnd]
  | .mapping ((.string k, v) :: rest) => do
    let ns ← nameTokens? k.toList
    let ts ← valueTokens? v
    let us ← entriesTokens? rest
    return .flowMapping :: (ns ++ ts ++ us ++ [.flowMappingEnd])
  | .mapping _ => none
  | .tagged .. => none

def itemsTokens? : List Value → Option (List Token)
  | [] => some []
  | v :: rest => do
    let ts ← valueTokens? v
    let us ← itemsTokens? rest
    return .flowEntry :: (ts ++ us)

def entriesTokens? : List (Value × Value) → Option (List Token)
  | [] => some []
  | (.string k, v) :: rest => do
    let ns ← nameTokens? k.toList
    let ts ← valueTokens? v
    let us ← entriesTokens? rest
    return .flowEntry :: (ns ++ ts ++ us)
  | _ => none

end

theorem valueTokens?_sequence (v : Value) (rest : List Value) :
    valueTokens? (.sequence (v :: rest)) = (((valueTokens? v).bind fun us =>
      (itemsTokens? rest).map (us ++ ·)).map (· ++ [.flowSequenceEnd])).map (.flowSequence :: ·) := by
  rw [valueTokens?]
  cases valueTokens? v <;> cases itemsTokens? rest <;> rfl

theorem itemsTokens?_cons (v : Value) (rest : List Value) :
    itemsTokens? (v :: rest) = ((valueTokens? v).bind fun us =>
      (itemsTokens? rest).map (us ++ ·)).map (.flowEntry :: ·) := by
  rw [itemsTokens?]
  cases valueTokens? v <;> cases itemsTokens? rest <;> rfl

theorem valueTokens?_mapping (k : String) (v : Value) (rest : List (Value × Value)) :
    valueTokens? (.mapping ((.string k, v) :: rest)) = ((((nameTokens? k.toList).bind fun us =>
      (valueTokens? v).map (us ++ ·)).bind fun us => (entriesTokens? rest).map (us ++ ·)).map
        (· ++ [.flowMappingEnd])).map (.flowMapping :: ·) := by
  rw [valueTokens?]
  cases nameTokens? k.toList <;> cases valueTokens? v <;> cases entriesTokens? rest <;> rfl

theorem entriesTokens?_cons (k : String) (v : Value) (rest : List (Value × Value)) :
    entriesTokens? ((.string k, v) :: rest) = (((nameTokens? k.toList).bind fun us =>
      (valueTokens? v).map (us ++ ·)).bind fun us => (entriesTokens? rest).map (us ++ ·)).map
        (.flowEntry :: ·) := by
  rw [entriesTokens?]
  cases nameTokens? k.toList <;> cases valueTokens? v <;> cases entriesTokens? rest <;> rfl

theorem not_mem_quoted (x : Char) (hb : isBreak x = true) (hr : isRawBreak x = false) (cs : List Char) :
    x ∉ quoted cs := by
  have hescape : x ∉ cs.flatMap escape := by
    intro h
    obtain ⟨c, -, hc⟩ := List.mem_flatMap.mp h
    by_cases hraw : isRawBreak c = true
    · rw [escape_rawBreak c hraw, List.mem_singleton] at hc
      rw [← hc, hr] at hraw
      cases hraw
    · have := not_break_of_spells _ c (spells_escape c (by simpa using hraw)) _ hc
      rw [hb] at this
      cases this
  have hquote : x ≠ '"' := by
    rintro rfl
    cases hb
  simpa [quoted, hquote] using hescape

theorem cr_not_mem_escape (cs : List Char) : '\r' ∉ cs.flatMap escape := by
  have := not_mem_quoted '\r' rfl rfl cs
  simp only [quoted, List.cons_append, List.mem_cons, List.mem_append, not_or] at this
  exact this.2.1

theorem line_lt_after (p : Position) (cs : List Char) (c : Char) (hc : c ∈ cs) (hb : isBreak c = true) :
    p.line < (p.after cs).line := by
  induction cs generalizing p with
  | nil => cases hc
  | cons d rest ih =>
    rw [after_cons]
    rcases List.mem_cons.mp hc with rfl | hc
    · have := after_line_le (p.next c) rest
      rw [next_of_break p c hb] at this
      rw [next_of_break p c hb]
      exact this
    · have hle : p.line ≤ (p.next d).line := by
        unfold Position.next
        split <;> simp
      have := ih (p.next d) hc
      omega

/-- The colon behind a name finds the key stale unless the name is marked as one. -/
theorem isStale_name (q : Position) (n : Nat) (name : List Char) :
    isStale ((q.after (quoted name)).cell ':') ⟨false, n, q.index, q.line, q.column⟩ = !isKey name := by
  have hindex := after_index q (quoted name)
  by_cases hb : name.any isRawBreak = true
  · obtain ⟨c, hc, hraw⟩ := List.any_eq_true.mp hb
    have hmem : c ∈ quoted name := by
      have : c ∈ name.flatMap escape := List.mem_flatMap.mpr ⟨c, hc, by simp [escape_rawBreak c hraw]⟩
      simp [quoted, this]
    have hline := line_lt_after q (quoted name) c hmem (isBreak_of_rawBreak c hraw)
    simp [isStale, isKey, hb, hline]
  · have hnone : ∀ c ∈ quoted name, isBreak c = false := by
      intro c hc
      simp only [quoted, List.cons_append, List.mem_cons, List.mem_append, List.mem_flatMap,
        List.not_mem_nil, or_false] at hc
      rcases hc with rfl | ⟨d, hd, hc⟩ | rfl
      · rfl
      · have hraw : isRawBreak d = false := by
          rw [Bool.eq_false_iff]
          exact fun h => hb (List.any_eq_true.mpr ⟨d, hd, h⟩)
        exact not_break_of_spells _ d (spells_escape d hraw) c hc
      · rfl
    have hafter := after_of_no_break q (quoted name) hnone
    simp only [isStale, isKey, hb, hafter, cell_line, cell_index, Nat.lt_irrefl, decide_false, Bool.false_or,
      Bool.not_false, Bool.true_and]
    rw [← decide_not]
    congr 1
    simp only [eq_iff_iff]
    omega

variable {s : Scanner} {d : Nat} {cols : List Nat} {ts : List Token} {p : Position}

theorem readDouble_quoted (q : Position) (name rest : List Char) :
    scalarToken .quoted (readDouble .no [] .none ((q.cells (quoted name ++ rest)).drop 1)) =
      (reread? name).map fun t =>
        (.scalar .quoted (String.ofList t), (q.after (quoted name)).cells rest) := by
  have hcol : decide ((q.next '"').column = 0) = false := by
    rw [next_of_not_break q '"' rfl]
    simp
  have htext : quoted name ++ rest = '"' :: (name.flatMap escape ++ '"' :: rest) := by
    simp [quoted]
  have hafter : q.after (quoted name) = (q.next '"').after (name.flatMap escape ++ ['"']) := rfl
  rw [htext, cells_cons q '"' _ (by decide), List.drop_succ_cons, List.drop_zero, readDouble_escape, hcol,
    hafter]
  unfold reread? scalarToken
  rw [Option.map_map]
  rfl

theorem scan_string (ws name cs : List Char) (h : FlowAt s d cols ts p (ws ++ (quoted name ++ cs)))
    (hws : ∀ w ∈ ws, isFlowBlank w = true) :
    (∀ t, reread? name = some t → ∃ v, Leads s v ∧
      FlowAt v d cols (.scalar .quoted (String.ofList t) :: ts) ((p.after ws).after (quoted name)) cs ∧
      (s.keyAllowed = true → v.currentKey =
        some ⟨false, ts.length, (p.after ws).index, (p.after ws).line, (p.after ws).column⟩)) ∧
    (reread? name = none → Fails s) := by
  have htext : quoted name ++ cs = '"' :: (name.flatMap escape ++ '"' :: cs) := by
    simp [quoted]
  have hread := readDouble_quoted (p.after ws) name cs
  rw [htext] at h hread
  have htoken : ∀ u : Scanner, u.brackets.length = d + 1 →
      u.token? ((p.after ws).cell '"') (((p.after ws).next '"').cells (name.flatMap escape ++ '"' :: cs)) =
        u.leaf? fun cs => scalarToken .quoted (readDouble .no [] .none (cs.drop 1)) :=
    fun u _ => token_doubleQuote u _ _
  constructor
  · intro t ht
    rw [ht] at hread
    have hle : (((p.after ws).after (quoted name)).cells cs).length ≤
        (((p.after ws).next '"').cells (name.flatMap escape ++ '"' :: cs)).length := by
      have := length_cells_after_le ((p.after ws).next '"') (name.flatMap escape ++ ['"']) cs
        (by simpa using cr_not_mem_escape name)
      rwa [List.append_assoc, List.singleton_append] at this
    obtain ⟨v, hv, hflow, -, hkey, -⟩ := h.leaf _ _ _ cs hws rfl htoken hread hle
    exact ⟨v, hv, hflow, hkey⟩
  · intro ht
    rw [ht] at hread
    exact h.leaf_fails _ hws rfl htoken hread

theorem scan_name (ws name cs : List Char) (h : FlowAt s d cols ts p (ws ++ (quoted name ++ ':' :: cs)))
    (hws : ∀ w ∈ ws, isFlowBlank w = true) (hk : s.keyAllowed = true) :
    (∀ us, nameTokens? name = some us → ∃ v, Leads s v ∧
      FlowAt v d cols (us.reverse ++ ts) (((p.after ws).after (quoted name)).next ':') cs) ∧
    (nameTokens? name = none → Fails s) := by
  obtain ⟨hsome, hnone⟩ := scan_string ws name (':' :: cs) h hws
  unfold nameTokens? stringTokens?
  constructor
  · intro us hus
    rw [Option.map_map, Option.map_eq_some_iff] at hus
    obtain ⟨t, ht, rfl⟩ := hus
    obtain ⟨v, hv, hflow, hkey⟩ := hsome t ht
    obtain ⟨w, hw, -, hcolon⟩ := hflow.colon _ (hkey hk) rfl
    refine ⟨w, hv.trans hw, ?_⟩
    rw [isStale_name] at hcolon
    cases hkey : isKey name <;> simpa [hkey] using hcolon
  · intro hn
    rw [Option.map_map, Option.map_eq_none_iff] at hn
    exact hnone hn

mutual

/-- What JSON can hold: names that are strings, no tags, and numbers that are finite. -/
def isData : Value → Bool
  | .float x => match x.kind with
    | .finite .. => true
    | _ => false
  | .sequence items => areData items
  | .mapping entries => areNamedData entries
  | .tagged .. => false
  | _ => true

def areData : List Value → Bool
  | [] => true
  | v :: rest => isData v && areData rest

def areNamedData : List (Value × Value) → Bool
  | [] => true
  | (.string _, v) :: rest => isData v && areNamedData rest
  | _ => false

end

/-- The scan finds these tokens and goes on at depth `d` in front of the rest, or it fails. -/
def Scans (s : Scanner) (o : Option (List Token)) (d : Nat) (cols : List Nat) (ts : List Token) (q : Position)
    (rest : List Char) : Prop :=
  (∀ us, o = some us → ∃ v, Leads s v ∧ FlowAt v d cols (us.reverse ++ ts) q rest) ∧ (o = none → Fails s)

def Closes (s : Scanner) (o : Option (List Token)) (d : Nat) (cols : List Nat) (ts : List Token) (q : Position)
    (rest : List Char) : Prop :=
  (∀ us, o = some us → ∃ v, Leads s v ∧ v.brackets.length = d ∧ v.columns = cols ∧ v.Optional ∧
    v.tokens = us.reverse ++ ts ∧ v.rest = q.cells rest ∧ v.keyAllowed = false) ∧ (o = none → Fails s)

theorem Scans.map {s : Scanner} {o : Option (List Token)} {q : Position} {rest : List Char}
    (h : Scans s o d cols ts q rest) (f : List Token → List Token) (ts' : List Token)
    (hf : ∀ us, (f us).reverse ++ ts' = us.reverse ++ ts) : Scans s (o.map f) d cols ts' q rest := by
  constructor
  · intro us hus
    obtain ⟨vs, hvs, rfl⟩ := Option.map_eq_some_iff.mp hus
    rw [hf]
    exact h.1 vs hvs
  · intro hn
    exact h.2 (by simpa using hn)

theorem Scans.of_leads {s v : Scanner} {o : Option (List Token)} {q : Position} {rest : List Char}
    (hl : Leads s v) (h : Scans v o d cols ts q rest) : Scans s o d cols ts q rest := by
  constructor
  · intro us hus
    obtain ⟨w, hw, hflow⟩ := h.1 us hus
    exact ⟨w, hl.trans hw, hflow⟩
  · exact fun hn => hl.fails (h.2 hn)

theorem Scans.append {s : Scanner} {o o' : Option (List Token)} {q q' : Position} {rest rest' : List Char}
    (h : Scans s o d cols ts q rest)
    (h' : ∀ (us : List Token) (v : Scanner), FlowAt v d cols (us.reverse ++ ts) q rest → Scans v o' d cols (us.reverse ++ ts) q' rest') :
    Scans s (o.bind fun us => o'.map (us ++ ·)) d cols ts q' rest' := by
  constructor
  · intro us hus
    rw [Option.bind_eq_some_iff] at hus
    obtain ⟨vs, hvs, hrest⟩ := hus
    obtain ⟨vs', hvs', rfl⟩ := Option.map_eq_some_iff.mp hrest
    obtain ⟨v, hv, hflow⟩ := h.1 vs hvs
    obtain ⟨w, hw, hflow'⟩ := (h' vs v hflow).1 vs' hvs'
    exact ⟨w, hv.trans hw, by simpa using hflow'⟩
  · intro hn
    cases o with
    | none => exact h.2 rfl
    | some us =>
      obtain ⟨v, hv, hflow⟩ := h.1 us rfl
      exact hv.fails ((h' us v hflow).2 (by simpa using hn))

theorem Scans.close {s : Scanner} {o : Option (List Token)} {q : Position} {ws cs : List Char} {c : Char}
    (t : Token) (h : Scans s o d cols ts q (ws ++ c :: cs)) (hws : ∀ w ∈ ws, isFlowBlank w = true)
    (hc : opensToken c = true)
    (ht : ∀ (u : Scanner) (q : Position) rest, u.token? (q.cell c) rest = u.closeBracket? t) :
    Closes s (o.map (· ++ [t])) d cols ts ((q.after ws).next c) cs := by
  constructor
  · intro us hus
    obtain ⟨vs, hvs, rfl⟩ := Option.map_eq_some_iff.mp hus
    obtain ⟨v, hv, hflow⟩ := h.1 vs hvs
    obtain ⟨w, hw, hb, hcol, ho, htok, hr, hk⟩ := hflow.closeBracket t hws hc ht
    exact ⟨w, hv.trans hw, hb, hcol, ho, by simpa using htok, hr, hk⟩
  · intro hn
    exact h.2 (by simpa using hn)

section Values

variable (indent : Nat)

theorem isFlowBlank_newLine (depth : Nat) : ∀ w ∈ newLine indent depth, isFlowBlank w = true := by
  intro w hw
  rcases List.mem_cons.mp hw with rfl | hw
  · rfl
  · rw [List.eq_of_mem_replicate hw]
    rfl

theorem column_newLine (hi : 1 ≤ indent) (depth : Nat) (p : Position) :
    (p.after (newLine indent (depth + 1))).column ≠ 0 := by
  have hblank : ∀ c ∈ List.replicate ((depth + 1) * indent) ' ', isBreak c = false := by
    intro c hc
    rw [List.eq_of_mem_replicate hc]
    rfl
  have hpos : 0 < (depth + 1) * indent := Nat.mul_pos (Nat.succ_pos _) hi
  rw [newLine, after_cons, after_of_no_break _ _ hblank, List.length_replicate]
  simp only
  omega

def EndsPart (cs : List Char) : Prop :=
  ∃ ws c rest, cs = ws ++ c :: rest ∧ (∀ w ∈ ws, isFlowBlank w = true) ∧ isFlowEnd c = true

def ValueScans (v : Value) : Prop :=
  ∀ depth text, valueText indent depth v = .ok text → ∀ (s : Scanner) (d : Nat) (cols : List Nat)
    (ts : List Token) (p : Position) (ws rest : List Char), FlowAt s d cols ts p (ws ++ (text ++ rest)) →
    (∀ w ∈ ws, isFlowBlank w = true) → (p.after ws).column ≠ 0 → EndsPart rest →
    Scans s (valueTokens? v) d cols ts ((p.after ws).after text) rest

/-- The text of a collection behind its opening bracket gives its tokens. -/
def InnerScans (v : Value) (o : Option (List Token)) : Prop :=
  ∀ depth b body, valueText indent depth v = .ok (b :: body) → ∀ (s : Scanner) (d : Nat) (cols : List Nat)
    (ts : List Token) (p : Position) (cs : List Char), FlowAt s d cols ts p (body ++ cs) →
    s.keyAllowed = true → Closes s o d cols ts (p.after body) cs

def ItemsScan (vs : List Value) : Prop :=
  ∀ depth others, itemsText indent (depth + 1) vs = .ok others → ∀ (s : Scanner) (d : Nat) (cols : List Nat)
    (ts : List Token) (p : Position) (rest : List Char), FlowAt s d cols ts p (others ++ rest) →
    EndsPart rest → Scans s (itemsTokens? vs) d cols ts (p.after others) rest

def EntriesScan (es : List (Value × Value)) : Prop :=
  ∀ depth others, entriesText indent (depth + 1) es = .ok others → ∀ (s : Scanner) (d : Nat) (cols : List Nat)
    (ts : List Token) (p : Position) (rest : List Char), FlowAt s d cols ts p (others ++ rest) →
    EndsPart rest → Scans s (entriesTokens? es) d cols ts (p.after others) rest

variable {indent}

theorem endsPart_close (depth : Nat) (c : Char) (cs : List Char) (hc : isFlowEnd c = true) :
    EndsPart (newLine indent depth ++ c :: cs) :=
  ⟨_, _, _, rfl, isFlowBlank_newLine indent depth, hc⟩

theorem endsPart_comma (cs : List Char) : EndsPart (',' :: cs) :=
  ⟨[], ',', cs, rfl, by simp, rfl⟩

theorem valueScans_word (v : Value) (w : List Char) (hw : IsWord w)
    (ht : ∀ depth, valueText indent depth v = .ok w)
    (hv : valueTokens? v = some [.scalar .plain (String.ofList w)]) : ValueScans indent v := by
  intro depth text htext s d cols ts p ws rest h hws hp hrest
  obtain ⟨ws', c, cs, rfl, hws', hc⟩ := hrest
  rw [ht] at htext
  cases htext
  rw [hv]
  refine ⟨?_, by simp⟩
  rintro us ⟨⟩
  exact h.plain ws w ws' cs c hws hp hw.wordy hw.starts hws' hc

theorem valueScans_string (t : String) : ValueScans indent (.string t) := by
  intro depth text htext s d cols ts p ws rest h hws hp hrest
  rw [valueText] at htext
  cases htext
  obtain ⟨hsome, hnone⟩ := scan_string ws t.toList _ h hws
  refine ⟨?_, ?_⟩
  · intro us hus
    obtain ⟨r, hr, rfl⟩ := Option.map_eq_some_iff.mp hus
    obtain ⟨v, hv, hflow, -⟩ := hsome r hr
    exact ⟨v, hv, hflow⟩
  · intro hn
    exact hnone (by simpa [valueTokens?, stringTokens?] using hn)

theorem valueScans_of_inner (v : Value) (b : Char) (t : Token) (o : Option (List Token))
    (hb : opensToken b = true)
    (ht : ∀ (u : Scanner) (q : Position) rest, u.token? (q.cell b) rest = u.openBracket? t)
    (htext : ∀ depth text, valueText indent depth v = .ok text → ∃ body, text = b :: body)
    (hv : valueTokens? v = o.map (t :: ·)) (h : InnerScans indent v o) : ValueScans indent v := by
  intro depth text heq s d cols ts p ws rest hflow hws hp hrest
  obtain ⟨body, rfl⟩ := htext depth text heq
  rw [List.cons_append] at hflow
  obtain ⟨u, hu, hopen, hk⟩ := hflow.openBracket t hws hb ht
  obtain ⟨hsome, hnone⟩ := h depth b body heq u (d + 1) cols (t :: ts) _ _ hopen hk
  rw [hv]
  refine ⟨?_, ?_⟩
  · intro us hus
    obtain ⟨vs, hvs, rfl⟩ := Option.map_eq_some_iff.mp hus
    obtain ⟨w, hw, hdeep, hcol, ho, htok, hr, -⟩ := hsome vs hvs
    refine ⟨w, hu.trans hw, ⟨hdeep, hcol, ho, by simpa using htok, ?_⟩⟩
    rw [hr, after_cons]
  · intro hn
    exact hu.fails (hnone (by simpa using hn))

theorem innerScans_empty_sequence : InnerScans indent (.sequence []) (some [.flowSequenceEnd]) := by
  intro depth b body htext s d cols ts p cs h hk
  rw [valueText] at htext
  cases htext
  have hs : Scans s (some []) d cols ts p ([] ++ ']' :: cs) :=
    ⟨by rintro us ⟨⟩; exact ⟨s, Leads.refl s, h⟩, by simp⟩
  exact hs.close .flowSequenceEnd (by simp) rfl fun u q rest => token_closeSequence u q rest

theorem innerScans_empty_mapping : InnerScans indent (.mapping []) (some [.flowMappingEnd]) := by
  intro depth b body htext s d cols ts p cs h hk
  rw [valueText] at htext
  cases htext
  have hs : Scans s (some []) d cols ts p ([] ++ '\x7d' :: cs) :=
    ⟨by rintro us ⟨⟩; exact ⟨s, Leads.refl s, h⟩, by simp⟩
  exact hs.close .flowMappingEnd (by simp) rfl fun u q rest => token_closeMapping u q rest

theorem valueText_sequence {depth : Nat} {v : Value} {rest : List Value} {text : List Char} :
    valueText indent depth (.sequence (v :: rest)) = .ok text ↔
      ∃ first, valueText indent (depth + 1) v = .ok first ∧ ∃ others, itemsText indent (depth + 1) rest = .ok others ∧
        '[' :: (newLine indent (depth + 1) ++ (first ++ (others ++ (newLine indent depth ++ [']'])))) = text := by
  simp [valueText, bind_eq_ok, pure, Except.pure]

theorem itemsText_cons {depth : Nat} {v : Value} {rest : List Value} {text : List Char} :
    itemsText indent depth (v :: rest) = .ok text ↔
      ∃ first, valueText indent depth v = .ok first ∧ ∃ others, itemsText indent depth rest = .ok others ∧
        ',' :: (newLine indent depth ++ (first ++ others)) = text := by
  simp [itemsText, bind_eq_ok, pure, Except.pure]

def nameText (indent depth : Nat) (k : String) : List Char :=
  newLine indent depth ++ (quoted k.toList ++ [':'])

theorem valueText_mapping {depth : Nat} {k : String} {v : Value} {rest : List (Value × Value)}
    {text : List Char} :
    valueText indent depth (.mapping ((.string k, v) :: rest)) = .ok text ↔
      ∃ first, valueText indent (depth + 1) v = .ok first ∧
        ∃ others, entriesText indent (depth + 1) rest = .ok others ∧
          '\x7b' :: (nameText indent (depth + 1) k ++ (' ' :: (first ++ (others ++
            (newLine indent depth ++ ['\x7d']))))) = text := by
  simp [valueText, keyName, bind_eq_ok, pure, Except.pure, member, nameText]

theorem entriesText_cons {depth : Nat} {k : String} {v : Value} {rest : List (Value × Value)}
    {text : List Char} :
    entriesText indent depth ((.string k, v) :: rest) = .ok text ↔
      ∃ first, valueText indent depth v = .ok first ∧ ∃ others, entriesText indent depth rest = .ok others ∧
        ',' :: (nameText indent depth k ++ (' ' :: (first ++ others))) = text := by
  simp [entriesText, keyName, bind_eq_ok, pure, Except.pure, member, nameText]

theorem scans_name {k : String} {depth : Nat} {cs : List Char}
    (h : FlowAt s d cols ts p (nameText indent depth k ++ cs))
    (hk : s.keyAllowed = true) :
    Scans s (nameTokens? k.toList) d cols ts (p.after (nameText indent depth k)) cs := by
  have htext : nameText indent depth k ++ cs = newLine indent depth ++ (quoted k.toList ++ ':' :: cs) := by
    simp [nameText]
  have hafter : p.after (nameText indent depth k) =
      ((p.after (newLine indent depth)).after (quoted k.toList)).next ':' := by
    simp [nameText, after_append]
  rw [htext] at h
  rw [hafter]
  exact scan_name _ _ cs h (isFlowBlank_newLine indent depth) hk

theorem endsPart_items {depth : Nat} {vs : List Value} {others rest : List Char}
    (h : itemsText indent depth vs = .ok others) (hrest : EndsPart rest) : EndsPart (others ++ rest) := by
  cases vs with
  | nil =>
    rw [itemsText] at h
    cases h
    exact hrest
  | cons v vs =>
    obtain ⟨first, -, others', -, rfl⟩ := itemsText_cons.mp h
    exact endsPart_comma _

theorem endsPart_entries {depth : Nat} {es : List (Value × Value)} (hd : areNamedData es = true)
    {others rest : List Char} (h : entriesText indent depth es = .ok others) (hrest : EndsPart rest) :
    EndsPart (others ++ rest) := by
  match es with
  | [] =>
    rw [entriesText] at h
    cases h
    exact hrest
  | (.string k, v) :: es =>
    obtain ⟨first, -, others', -, rfl⟩ := entriesText_cons.mp h
    exact endsPart_comma _

theorem scans_member (k : String) (v : Value) (hv : ValueScans indent v) {depth : Nat}
    {first rest : List Char} (hfirst : valueText indent (depth + 1) v = .ok first)
    (h : FlowAt s d cols ts p (nameText indent (depth + 1) k ++ (' ' :: (first ++ rest))))
    (hk : s.keyAllowed = true) (hrest : EndsPart rest) :
    Scans s ((nameTokens? k.toList).bind fun us => (valueTokens? v).map (us ++ ·)) d cols ts
      (p.after (nameText indent (depth + 1) k ++ (' ' :: first))) rest := by
  rw [after_append, after_cons]
  refine (scans_name h hk).append fun us u hu => ?_
  have hcol : ((p.after (nameText indent (depth + 1) k)).after [' ']).column ≠ 0 := by
    rw [after_cons, after_nil, next_of_not_break _ ' ' rfl]
    simp
  exact hv (depth + 1) first hfirst u d cols _ _ [' '] rest hu (by simp [isFlowBlank]) hcol hrest

theorem innerScans_sequence (hi : 1 ≤ indent) (v : Value) (rest : List Value) (hv : ValueScans indent v)
    (hr : ItemsScan indent rest) : InnerScans indent (.sequence (v :: rest))
      (((valueTokens? v).bind fun us => (itemsTokens? rest).map (us ++ ·)).map (· ++ [.flowSequenceEnd])) := by
  intro depth b body htext s d cols ts p cs h hk
  obtain ⟨first, hfirst, others, hothers, heq⟩ := valueText_sequence.mp htext
  cases heq
  simp only [List.append_assoc, List.cons_append, List.nil_append] at h
  have hend : EndsPart (newLine indent depth ++ ']' :: cs) := endsPart_close depth ']' cs rfl
  have hfirst' := hv (depth + 1) first hfirst s d cols ts p _ _ h (isFlowBlank_newLine indent (depth + 1))
    (column_newLine indent hi depth p) (endsPart_items hothers hend)
  have hall := hfirst'.append fun us u hu => hr depth others hothers u d cols _ _ _ hu hend
  have hclose := hall.close .flowSequenceEnd (isFlowBlank_newLine indent depth) rfl
    fun u q rest => token_closeSequence u q rest
  simpa only [after_append, after_cons, after_nil] using hclose

theorem innerScans_mapping (k : String) (v : Value) (rest : List (Value × Value)) (hd : areNamedData rest = true)
    (hv : ValueScans indent v) (hr : EntriesScan indent rest) : InnerScans indent (.mapping ((.string k, v) :: rest))
      ((((nameTokens? k.toList).bind fun us => (valueTokens? v).map (us ++ ·)).bind fun us =>
        (entriesTokens? rest).map (us ++ ·)).map (· ++ [.flowMappingEnd])) := by
  intro depth b body htext s d cols ts p cs h hk
  obtain ⟨first, hfirst, others, hothers, heq⟩ := valueText_mapping.mp htext
  cases heq
  simp only [List.append_assoc, List.cons_append, List.nil_append] at h
  have hend : EndsPart (newLine indent depth ++ '\x7d' :: cs) := endsPart_close depth '\x7d' cs rfl
  have hfirst' := scans_member k v hv hfirst h hk (endsPart_entries hd hothers hend)
  have hall := hfirst'.append fun us u hu => hr depth others hothers u d cols _ _ _ hu hend
  have hclose := hall.close .flowMappingEnd (isFlowBlank_newLine indent depth) rfl
    fun u q rest => token_closeMapping u q rest
  simpa only [after_append, after_cons, after_nil] using hclose

theorem itemsScan_nil : ItemsScan indent [] := by
  intro depth others h s d cols ts p rest hflow hrest
  rw [itemsText] at h
  cases h
  exact ⟨by rintro us ⟨⟩; exact ⟨s, Leads.refl s, hflow⟩, by simp [itemsTokens?]⟩

theorem entriesScan_nil : EntriesScan indent [] := by
  intro depth others h s d cols ts p rest hflow hrest
  rw [entriesText] at h
  cases h
  exact ⟨by rintro us ⟨⟩; exact ⟨s, Leads.refl s, hflow⟩, by simp [entriesTokens?]⟩

theorem itemsScan_cons (hi : 1 ≤ indent) (v : Value) (vs : List Value) (hv : ValueScans indent v)
    (hr : ItemsScan indent vs) : ItemsScan indent (v :: vs) := by
  intro depth text h s d cols ts p rest hflow hrest
  obtain ⟨first, hfirst, others, hothers, rfl⟩ := itemsText_cons.mp h
  simp only [List.append_assoc, List.cons_append] at hflow
  obtain ⟨u, hu, hcomma, -⟩ := FlowAt.firstComma hflow
  have hfirst' := hv (depth + 1) first hfirst u d cols _ _ _ _ hcomma (isFlowBlank_newLine indent (depth + 1))
    (column_newLine indent hi depth _) (endsPart_items hothers hrest)
  have hall := hfirst'.append fun us w hw => hr depth others hothers w d cols _ _ _ hw hrest
  have hmap := (hall.map (.flowEntry :: ·) ts (by simp)).of_leads hu
  simpa only [after_append, after_cons, itemsTokens?_cons] using hmap

theorem entriesScan_cons (k : String) (v : Value) (es : List (Value × Value)) (hd : areNamedData es = true)
    (hv : ValueScans indent v) (hr : EntriesScan indent es) : EntriesScan indent ((.string k, v) :: es) := by
  intro depth text h s d cols ts p rest hflow hrest
  obtain ⟨first, hfirst, others, hothers, rfl⟩ := entriesText_cons.mp h
  simp only [List.append_assoc, List.cons_append] at hflow
  obtain ⟨u, hu, hcomma, hk⟩ := FlowAt.firstComma hflow
  have hfirst' := scans_member k v hv hfirst hcomma hk (endsPart_entries hd hothers hrest)
  have hall := hfirst'.append fun us w hw => hr depth others hothers w d cols _ _ _ hw hrest
  have hmap := (hall.map (.flowEntry :: ·) ts (by simp)).of_leads hu
  simpa only [after_append, after_cons, entriesTokens?_cons] using hmap

mutual

theorem valueScans (hi : 1 ≤ indent) (v : Value) (h : isData v = true) : ValueScans indent v := by
  match v, h with
  | .null, _ =>
    exact valueScans_word _ "null".toList ⟨Text.forall_mem_of_all (by decide), by decide⟩
        (fun _ => by rw [valueText]) rfl
  | .bool b, _ =>
    cases b
    · exact valueScans_word _ "false".toList ⟨Text.forall_mem_of_all (by decide), by decide⟩
        (fun _ => by rw [valueText]; rfl) rfl
    · exact valueScans_word _ "true".toList ⟨Text.forall_mem_of_all (by decide), by decide⟩
        (fun _ => by rw [valueText]; rfl) rfl
  | .int n, _ =>
    exact valueScans_word _ _ (isNumberText_int n).isWord (fun _ => by rw [valueText])
      (by rw [valueTokens?, String.ofList_toList])
  | .float x, h =>
    match hk : x.kind with
    | .finite negative m q =>
      have hword := (isNumberText_float floatLayout rfl x negative m q hk).isWord
      have htext : floatText? x = some (floatLayout.write x).toList := by rw [floatText?, hk]
      refine valueScans_word _ _ hword (fun _ => ?_) ?_
      · rw [valueText, htext]
        rfl
      · rw [valueTokens?, htext]
        rfl
    | .nan => simp [isData, hk] at h
    | .infinite _ => simp [isData, hk] at h
  | .string t, _ => exact valueScans_string t
  | .sequence [], _ =>
    exact valueScans_of_inner _ '[' .flowSequence _ rfl (fun u q rest => token_openSequence u q rest)
      (fun _ _ h => by rw [valueText] at h; cases h; exact ⟨_, rfl⟩) rfl innerScans_empty_sequence
  | .sequence (v :: rest), h =>
    obtain ⟨hv, hr⟩ : isData v = true ∧ areData rest = true := by simpa [isData, areData] using h
    refine valueScans_of_inner _ '[' .flowSequence _ rfl (fun u q rest => token_openSequence u q rest) ?_
      (valueTokens?_sequence v rest) (innerScans_sequence hi v rest (valueScans hi v hv) (itemsScan hi rest hr))
    intro depth text htext
    obtain ⟨_, -, _, -, rfl⟩ := valueText_sequence.mp htext
    exact ⟨_, rfl⟩
  | .mapping [], _ =>
    exact valueScans_of_inner _ '\x7b' .flowMapping _ rfl (fun u q rest => token_openMapping u q rest)
      (fun _ _ h => by rw [valueText] at h; cases h; exact ⟨_, rfl⟩) rfl innerScans_empty_mapping
  | .mapping ((.string k, v) :: rest), h =>
    obtain ⟨hv, hr⟩ : isData v = true ∧ areNamedData rest = true := by simpa [isData, areNamedData] using h
    refine valueScans_of_inner _ '\x7b' .flowMapping _ rfl (fun u q rest => token_openMapping u q rest) ?_
      (valueTokens?_mapping k v rest)
      (innerScans_mapping k v rest hr (valueScans hi v hv) (entriesScan hi rest hr))
    intro depth text htext
    obtain ⟨_, -, _, -, rfl⟩ := valueText_mapping.mp htext
    exact ⟨_, rfl⟩

theorem itemsScan (hi : 1 ≤ indent) (vs : List Value) (h : areData vs = true) : ItemsScan indent vs := by
  match vs, h with
  | [], _ => exact itemsScan_nil
  | v :: rest, h =>
    obtain ⟨hv, hr⟩ : isData v = true ∧ areData rest = true := by simpa [areData] using h
    exact itemsScan_cons hi v rest (valueScans hi v hv) (itemsScan hi rest hr)

theorem entriesScan (hi : 1 ≤ indent) (es : List (Value × Value)) (h : areNamedData es = true) :
    EntriesScan indent es := by
  match es, h with
  | [], _ => exact entriesScan_nil
  | (.string k, v) :: rest, h =>
    obtain ⟨hv, hr⟩ : isData v = true ∧ areNamedData rest = true := by simpa [areNamedData] using h
    exact entriesScan_cons k v rest hr (valueScans hi v hv) (entriesScan hi rest hr)

end

theorem scan_mapping (hi : 1 ≤ indent) (es : List (Value × Value)) (h : areNamedData es = true)
    (text : List Char) (htext : valueText indent 0 (.mapping es) = .ok text) :
    (∀ us, valueTokens? (.mapping es) = some us → Ends (Scanner.start (p.cells (text ++ ['\n']))) us) ∧
      (valueTokens? (.mapping es) = none → Fails (Scanner.start (p.cells (text ++ ['\n'])))) := by
  obtain ⟨body, o, rfl, htokens, hinner⟩ : ∃ body o, text = '\x7b' :: body ∧
      valueTokens? (.mapping es) = o.map (.flowMapping :: ·) ∧ InnerScans indent (.mapping es) o := by
    match es, h with
    | [], _ =>
      rw [valueText] at htext
      cases htext
      exact ⟨_, _, rfl, rfl, innerScans_empty_mapping⟩
    | (.string k, v) :: rest, h =>
      obtain ⟨hv, hr⟩ : isData v = true ∧ areNamedData rest = true := by simpa [areNamedData] using h
      obtain ⟨_, -, _, -, rfl⟩ := valueText_mapping.mp htext
      exact ⟨_, _, rfl, valueTokens?_mapping k v rest,
        innerScans_mapping k v rest hr (valueScans hi v hv) (entriesScan hi rest hr)⟩
  have hstart : (Scanner.start (p.cells ('\x7b' :: body ++ ['\n']))).rest =
      p.cells ('\x7b' :: (body ++ ['\n'])) := rfl
  obtain ⟨u, hu, hflow, hk⟩ := leads_of_firstBracket .flowMapping rfl rfl (by simp [Scanner.start]) hstart rfl
    fun u q rest => token_openMapping u q rest
  obtain ⟨hsome, hnone⟩ := hinner 0 _ body htext u 0 [] _ _ _ hflow hk
  rw [htokens]
  refine ⟨?_, ?_⟩
  · intro us hus
    obtain ⟨vs, hvs, rfl⟩ := Option.map_eq_some_iff.mp hus
    obtain ⟨v, hv, hdeep, hcol, ho, htok, hr, -⟩ := hsome vs hvs
    have hb : v.brackets = [] := List.length_eq_zero_iff.mp hdeep
    have hready : v.ready.rest = [] := by
      unfold ready
      rw [hr]
      simp [skipToToken, isBreak]
    have hends := ends_of_rest_nil hready hb ho.block
    rw [htok, hcol] at hends
    simpa [Scanner.start] using (hu.trans hv).ends hends
  · intro hn
    exact hu.fails (hnone (by simpa using hn))

end Values

end CiWorkflow.Json
