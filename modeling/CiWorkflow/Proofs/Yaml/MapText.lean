import CiWorkflow.Proofs.Yaml.Parse
import CiWorkflow.Yaml.Node

set_option autoImplicit false

namespace CiWorkflow.Yaml

def Token.mapText (f : ScalarForm → String → String) : Token → Token
  | .scalar form text => .scalar form (f form text)
  | t => t

def Token.isScalar : Token → Bool
  | .scalar .. => true
  | _ => false

namespace Tree

variable {α : Type}

mutual

def mapText (f : ScalarForm → String → String) : Tree α → Tree α
  | .alias name => .alias name
  | .scalar anchor tag form text => .scalar anchor tag form (f form text)
  | .sequence anchor tag items => .sequence anchor tag (mapItems f items)
  | .mapping anchor tag entries => .mapping anchor tag (mapEntries f entries)

def mapItems (f : ScalarForm → String → String) : List (Tree α) → List (Tree α)
  | [] => []
  | t :: rest => mapText f t :: mapItems f rest

def mapEntries (f : ScalarForm → String → String) : List (Tree α × Tree α) → List (Tree α × Tree α)
  | [] => []
  | (k, v) :: rest => (mapText f k, mapText f v) :: mapEntries f rest

end

end Tree

section Parser

variable (f : ScalarForm → String → String)

theorem mapText_eq_iff (t u : Token) (h : u.isScalar = false) : t.mapText f = u ↔ t = u := by
  cases t with
  | scalar form text =>
    constructor
    · rintro rfl
      simp [Token.mapText, Token.isScalar] at h
    · rintro rfl
      simp [Token.isScalar] at h
  | _ => rfl

theorem nextAmong_mapText {stops : List Token} (h : ∀ t ∈ stops, t.isScalar = false) (ts : List Token) :
    nextAmong stops (ts.map (Token.mapText f)) = nextAmong stops ts := by
  cases ts with
  | nil => rfl
  | cons t rest =>
    simp only [List.map_cons, nextAmong, List.contains_eq_mem, decide_eq_decide]
    constructor
    · intro hmem
      rwa [(mapText_eq_iff f t _ (h _ hmem)).mp rfl]
    · intro hmem
      rwa [(mapText_eq_iff f t t (h t hmem)).mpr rfl]

theorem readProperties_mapText (handles : Handles) (ts : List Token) :
    readProperties? handles (ts.map (Token.mapText f)) =
      (readProperties? handles ts).map fun r => (r.1, r.2.map (Token.mapText f)) := by
  cases ts with
  | nil => rfl
  | cons t rest =>
    cases t with
    | anchor name =>
      cases rest with
      | nil => rfl
      | cons u rest =>
        cases u with
        | tag handle suffix =>
          simp only [List.map_cons, Token.mapText, readProperties?]
          cases fullTag? handles handle suffix <;> rfl
        | _ => rfl
    | tag handle suffix =>
      cases rest with
      | nil =>
        simp only [List.map_cons, Token.mapText, readProperties?, List.map_nil]
        cases fullTag? handles handle suffix <;> rfl
      | cons u rest =>
        cases u with
        | _ =>
          simp only [List.map_cons, Token.mapText, readProperties?]
          cases fullTag? handles handle suffix <;> rfl
    | _ => rfl

/-- The node whose properties are read, where neither a leaf nor a bracket starts. -/
def parseBehind (handles : Handles) (block bare : Bool) (fuel : Nat) (p : Properties) (t : Token) (rest : List Token) :
    Option (Tree String × List Token) :=
  if bare && t = .blockEntry then do
    let (items, rest) ← parseItems handles false fuel (t :: rest)
    return (.sequence p.anchor p.tag items, rest)
  else if block && t = .blockSequence then do
    let (items, rest) ← parseItems handles true fuel rest
    return (.sequence p.anchor p.tag items, rest)
  else if block && t = .blockMapping then do
    let (entries, rest) ← parseEntries handles fuel rest
    return (.mapping p.anchor p.tag entries, rest)
  else if p.isNone then none
  else some (.scalar p.anchor p.tag .plain "", t :: rest)

/-- With other texts in the tokens the same is parsed, with those texts in it. -/
structure ParsesMapped (handles : Handles) (fuel : Nat) : Prop where
  node : ∀ block bare ts, parseNode handles block bare fuel (ts.map (Token.mapText f)) =
    (parseNode handles block bare fuel ts).map fun r => (r.1.mapText f, r.2.map (Token.mapText f))
  optional : ∀ block bare stops ts, (∀ t ∈ stops, t.isScalar = false) →
    parseOptional handles block bare stops fuel (ts.map (Token.mapText f)) =
      (parseOptional handles block bare stops fuel ts).map fun r => (r.1.mapText f, r.2.map (Token.mapText f))
  items : ∀ indented ts, parseItems handles indented fuel (ts.map (Token.mapText f)) =
    (parseItems handles indented fuel ts).map fun r => (Tree.mapItems f r.1, r.2.map (Token.mapText f))
  value : ∀ ts, parseValue handles fuel (ts.map (Token.mapText f)) =
    (parseValue handles fuel ts).map fun r => (r.1.mapText f, r.2.map (Token.mapText f))
  entries : ∀ ts, parseEntries handles fuel (ts.map (Token.mapText f)) =
    (parseEntries handles fuel ts).map fun r => (Tree.mapEntries f r.1, r.2.map (Token.mapText f))
  flowValue : ∀ close ts, close.isScalar = false →
    parseFlowValue handles close fuel (ts.map (Token.mapText f)) =
      (parseFlowValue handles close fuel ts).map fun r => (r.1.mapText f, r.2.map (Token.mapText f))
  pair : ∀ ts, parsePair handles fuel (ts.map (Token.mapText f)) =
    (parsePair handles fuel ts).map fun r =>
      ((r.1.1.mapText f, r.1.2.mapText f), r.2.map (Token.mapText f))
  flowItem : ∀ ts, parseFlowItem handles fuel (ts.map (Token.mapText f)) =
    (parseFlowItem handles fuel ts).map fun r => (r.1.mapText f, r.2.map (Token.mapText f))
  flowItems : ∀ first ts, parseFlowItems handles first fuel (ts.map (Token.mapText f)) =
    (parseFlowItems handles first fuel ts).map fun r => (Tree.mapItems f r.1, r.2.map (Token.mapText f))
  flowEntry : ∀ ts, parseFlowEntry handles fuel (ts.map (Token.mapText f)) =
    (parseFlowEntry handles fuel ts).map fun r =>
      ((r.1.1.mapText f, r.1.2.mapText f), r.2.map (Token.mapText f))
  flowEntries : ∀ first ts, parseFlowEntries handles first fuel (ts.map (Token.mapText f)) =
    (parseFlowEntries handles first fuel ts).map fun r => (Tree.mapEntries f r.1, r.2.map (Token.mapText f))

variable {f} (hf : ∀ form, f form "" = "") {handles : Handles} {fuel : Nat}

theorem parsesMapped_zero : ParsesMapped f handles 0 where
  node _ _ _ := by rw [parseNode, parseNode]; rfl
  optional _ _ _ _ _ := by rw [parseOptional, parseOptional]; rfl
  items _ _ := by rw [parseItems, parseItems]; rfl
  value _ := by rw [parseValue, parseValue]; rfl
  entries _ := by rw [parseEntries, parseEntries]; rfl
  flowValue _ _ _ := by rw [parseFlowValue, parseFlowValue]; rfl
  pair _ := by rw [parsePair, parsePair]; rfl
  flowItem _ := by rw [parseFlowItem, parseFlowItem]; rfl
  flowItems _ _ := by rw [parseFlowItems, parseFlowItems]; rfl
  flowEntry _ := by rw [parseFlowEntry, parseFlowEntry]; rfl
  flowEntries _ _ := by rw [parseFlowEntries, parseFlowEntries]; rfl

include hf

theorem mapText_empty : (Tree.empty : Tree String).mapText f = .empty := by
  simp [Tree.empty, Tree.mapText, hf]

variable (ih : ParsesMapped f handles fuel)

include ih

theorem parseOptional_mapText (block bare : Bool) (stops ts : List Token) (hs : ∀ t ∈ stops, t.isScalar = false) :
    parseOptional handles block bare stops (fuel + 1) (ts.map (Token.mapText f)) =
      (parseOptional handles block bare stops (fuel + 1) ts).map
        fun r => (r.1.mapText f, r.2.map (Token.mapText f)) := by
  rw [parseOptional, parseOptional, nextAmong_mapText f hs]
  split
  · rw [Option.map_some, mapText_empty hf]
  · exact ih.node block bare ts

omit hf in
theorem parseItems_mapText (indented : Bool) (ts : List Token) :
    parseItems handles indented (fuel + 1) (ts.map (Token.mapText f)) =
      (parseItems handles indented (fuel + 1) ts).map
        fun r => (Tree.mapItems f r.1, r.2.map (Token.mapText f)) := by
  cases ts with
  | nil => cases indented <;> rfl
  | cons t rest =>
    cases t with
    | blockEntry =>
      simp only [List.map_cons, Token.mapText, parseItems]
      rw [ih.optional _ _ _ _ (by cases indented <;> simp [Token.isScalar])]
      cases parseOptional handles true false
          (if indented then [.blockEntry, .blockEnd] else [.blockEntry, .key, .value, .blockEnd]) fuel rest with
      | none => rfl
      | some r =>
        simp only [Option.map_some, Option.bind_eq_bind, Option.bind_some, ih.items]
        cases parseItems handles indented fuel r.2 <;> rfl
    | _ => cases indented <;> rfl

theorem parseValue_mapText (ts : List Token) :
    parseValue handles (fuel + 1) (ts.map (Token.mapText f)) =
      (parseValue handles (fuel + 1) ts).map fun r => (r.1.mapText f, r.2.map (Token.mapText f)) := by
  have hempty := mapText_empty hf
  cases ts with
  | nil => simp [parseValue, hempty]
  | cons t rest =>
    cases t with
    | value => exact ih.optional _ _ _ _ (by simp [Token.isScalar])
    | _ => simp [parseValue, Token.mapText, hempty]

omit hf in
theorem parseEntries_mapText (ts : List Token) :
    parseEntries handles (fuel + 1) (ts.map (Token.mapText f)) =
      (parseEntries handles (fuel + 1) ts).map
        fun r => (Tree.mapEntries f r.1, r.2.map (Token.mapText f)) := by
  cases ts with
  | nil => rfl
  | cons t rest =>
    cases t with
    | key =>
      simp only [List.map_cons, Token.mapText, parseEntries]
      rw [ih.optional _ _ _ _ (by simp [Token.isScalar])]
      cases parseOptional handles true true [.key, .value, .blockEnd] fuel rest with
      | none => rfl
      | some r =>
        simp only [Option.map_some, Option.bind_eq_bind, Option.bind_some, ih.value]
        cases parseValue handles fuel r.2 with
        | none => rfl
        | some r' =>
          simp only [Option.map_some, Option.bind_some, ih.entries]
          cases parseEntries handles fuel r'.2 <;> rfl
    | _ => rfl

theorem parseFlowValue_mapText (close : Token) (ts : List Token) (hclose : close.isScalar = false) :
    parseFlowValue handles close (fuel + 1) (ts.map (Token.mapText f)) =
      (parseFlowValue handles close (fuel + 1) ts).map fun r => (r.1.mapText f, r.2.map (Token.mapText f)) := by
  have hempty := mapText_empty hf
  cases ts with
  | nil => simp [parseFlowValue, hempty]
  | cons t rest =>
    cases t with
    | value =>
      refine ih.optional _ _ _ _ fun t ht => ?_
      simp only [List.mem_cons, List.not_mem_nil, or_false] at ht
      obtain rfl | rfl := ht
      · rfl
      · exact hclose
    | _ => simp [parseFlowValue, Token.mapText, hempty]

theorem parsePair_mapText (ts : List Token) :
    parsePair handles (fuel + 1) (ts.map (Token.mapText f)) =
      (parsePair handles (fuel + 1) ts).map fun r =>
        ((r.1.1.mapText f, r.1.2.mapText f), r.2.map (Token.mapText f)) := by
  have hvalue (key : Tree String) (ts : List Token) :
      ((parseFlowValue handles .flowSequenceEnd fuel (ts.map (Token.mapText f))).bind fun r =>
        some ((key.mapText f, r.1), r.2)) =
      ((parseFlowValue handles .flowSequenceEnd fuel ts).bind fun r => some ((key, r.1), r.2)).map fun r =>
        ((r.1.1.mapText f, r.1.2.mapText f), r.2.map (Token.mapText f)) := by
    rw [ih.flowValue .flowSequenceEnd ts rfl]
    cases parseFlowValue handles .flowSequenceEnd fuel ts <;> rfl
  have hleft := hvalue .empty (ts.drop 1)
  rw [mapText_empty hf, List.map_drop] at hleft
  have hstops : ∀ t ∈ [Token.value, .flowEntry, .flowSequenceEnd], t.isScalar = false := by simp [Token.isScalar]
  simp only [parsePair, nextAmong_mapText f hstops]
  split
  · exact hleft
  · rw [ih.node]
    cases parseNode handles false false fuel ts with
    | none => rfl
    | some r => exact hvalue r.1 r.2

omit hf in
theorem parseFlowItem_mapText (ts : List Token) :
    parseFlowItem handles (fuel + 1) (ts.map (Token.mapText f)) =
      (parseFlowItem handles (fuel + 1) ts).map fun r => (r.1.mapText f, r.2.map (Token.mapText f)) := by
  cases ts with
  | nil => exact ih.node _ _ []
  | cons t rest =>
    cases t with
    | key =>
      simp only [List.map_cons, Token.mapText, parseFlowItem, ih.pair]
      cases parsePair handles fuel rest <;> rfl
    | _ => exact ih.node _ _ (_ :: rest)

theorem parseFlowEntry_mapText (ts : List Token) :
    parseFlowEntry handles (fuel + 1) (ts.map (Token.mapText f)) =
      (parseFlowEntry handles (fuel + 1) ts).map fun r =>
        ((r.1.1.mapText f, r.1.2.mapText f), r.2.map (Token.mapText f)) := by
  have hkeyless (ts : List Token) :
      ((parseNode handles false false fuel (ts.map (Token.mapText f))).bind fun r =>
        some ((r.1, (.empty : Tree String)), r.2)) =
      ((parseNode handles false false fuel ts).bind fun r => some ((r.1, (.empty : Tree String)), r.2)).map fun r =>
        ((r.1.1.mapText f, r.1.2.mapText f), r.2.map (Token.mapText f)) := by
    rw [ih.node]
    cases parseNode handles false false fuel ts with
    | none => rfl
    | some r => simp [mapText_empty hf]
  cases ts with
  | nil => exact hkeyless []
  | cons t rest =>
    cases t with
    | key =>
      simp only [List.map_cons, Token.mapText, parseFlowEntry]
      rw [ih.optional _ _ _ _ (by simp [Token.isScalar])]
      cases parseOptional handles false false [.value, .flowEntry, .flowMappingEnd] fuel rest with
      | none => rfl
      | some r =>
        simp only [Option.map_some, Option.bind_eq_bind, Option.bind_some, ih.flowValue .flowMappingEnd _ rfl]
        cases parseFlowValue handles .flowMappingEnd fuel r.2 <;> rfl
    | _ => exact hkeyless (_ :: rest)

omit hf in
theorem parseFlowItems_mapText (first : Bool) (ts : List Token) :
    parseFlowItems handles first (fuel + 1) (ts.map (Token.mapText f)) =
      (parseFlowItems handles first (fuel + 1) ts).map
        fun r => (Tree.mapItems f r.1, r.2.map (Token.mapText f)) := by
  have hitem (ts : List Token) :
      ((parseFlowItem handles fuel (ts.map (Token.mapText f))).bind fun r =>
        (parseFlowItems handles false fuel r.2).bind fun r' => some (r.1 :: r'.1, r'.2)) =
      ((parseFlowItem handles fuel ts).bind fun r =>
        (parseFlowItems handles false fuel r.2).bind fun r' => some (r.1 :: r'.1, r'.2)).map fun r =>
          (Tree.mapItems f r.1, r.2.map (Token.mapText f)) := by
    rw [ih.flowItem]
    cases parseFlowItem handles fuel ts with
    | none => rfl
    | some r =>
      simp only [Option.map_some, Option.bind_some, ih.flowItems]
      cases parseFlowItems handles false fuel r.2 <;> rfl
  cases ts with
  | nil =>
    cases first with
    | true => exact hitem []
    | false => rfl
  | cons t rest =>
    cases first with
    | true =>
      cases t with
      | flowSequenceEnd => rfl
      | _ => exact hitem (_ :: rest)
    | false =>
      cases t with
      | flowSequenceEnd => rfl
      | flowEntry =>
        cases rest with
        | nil => exact hitem []
        | cons u rest =>
          cases u with
          | flowSequenceEnd => rfl
          | _ => exact hitem (_ :: rest)
      | _ => rfl

omit hf in
theorem parseFlowEntries_mapText (first : Bool) (ts : List Token) :
    parseFlowEntries handles first (fuel + 1) (ts.map (Token.mapText f)) =
      (parseFlowEntries handles first (fuel + 1) ts).map
        fun r => (Tree.mapEntries f r.1, r.2.map (Token.mapText f)) := by
  have hentry (ts : List Token) :
      ((parseFlowEntry handles fuel (ts.map (Token.mapText f))).bind fun r =>
        (parseFlowEntries handles false fuel r.2).bind fun r' => some (r.1 :: r'.1, r'.2)) =
      ((parseFlowEntry handles fuel ts).bind fun r =>
        (parseFlowEntries handles false fuel r.2).bind fun r' => some (r.1 :: r'.1, r'.2)).map fun r =>
          (Tree.mapEntries f r.1, r.2.map (Token.mapText f)) := by
    rw [ih.flowEntry]
    cases parseFlowEntry handles fuel ts with
    | none => rfl
    | some r =>
      simp only [Option.map_some, Option.bind_some, ih.flowEntries]
      cases parseFlowEntries handles false fuel r.2 <;> rfl
  cases ts with
  | nil =>
    cases first with
    | true => exact hentry []
    | false => rfl
  | cons t rest =>
    cases first with
    | true =>
      cases t with
      | flowMappingEnd => rfl
      | _ => exact hentry (_ :: rest)
    | false =>
      cases t with
      | flowMappingEnd => rfl
      | flowEntry =>
        cases rest with
        | nil => exact hentry []
        | cons u rest =>
          cases u with
          | flowMappingEnd => rfl
          | _ => exact hentry (_ :: rest)
      | _ => rfl

theorem parseBehind_mapText (block bare : Bool) (p : Properties) (t : Token) (ht : t.mapText f = t)
    (rest : List Token) :
    parseBehind handles block bare fuel p t (rest.map (Token.mapText f)) =
      (parseBehind handles block bare fuel p t rest).map fun r => (r.1.mapText f, r.2.map (Token.mapText f)) := by
  have hcons : t :: rest.map (Token.mapText f) = (t :: rest).map (Token.mapText f) := by rw [List.map_cons, ht]
  unfold parseBehind
  rw [hcons, ih.items, ih.items, ih.entries]
  split
  · cases parseItems handles false fuel (t :: rest) <;> rfl
  split
  · cases parseItems handles true fuel rest <;> rfl
  split
  · cases parseEntries handles fuel rest <;> rfl
  split
  · rfl
  · simp [Tree.mapText, hf]

theorem parseNode_mapText (block bare : Bool) (ts : List Token) :
    parseNode handles block bare (fuel + 1) (ts.map (Token.mapText f)) =
      (parseNode handles block bare (fuel + 1) ts).map fun r => (r.1.mapText f, r.2.map (Token.mapText f)) := by
  by_cases halias : ∃ name rest, ts = .alias name :: rest
  · obtain ⟨name, rest, rfl⟩ := halias
    simp [Token.mapText, parseNode, Tree.mapText]
  · have hts : ∀ name rest, ts ≠ .alias name :: rest := fun name rest h => halias ⟨name, rest, h⟩
    have hts' : ∀ name rest, ts.map (Token.mapText f) ≠ .alias name :: rest := by
      intro name rest h
      cases ts with
      | nil => cases h
      | cons t others =>
        obtain ⟨ht, -⟩ := List.cons.inj h
        exact hts name others (by rw [(mapText_eq_iff f t _ rfl).mp ht])
    rw [parseNode_eq _ _ hts, parseNode_eq _ _ hts', readProperties_mapText]
    cases readProperties? handles ts with
    | none => rfl
    | some r =>
      obtain ⟨p, rest⟩ := r
      simp only [Option.map_some, Option.bind_some]
      cases rest with
      | nil =>
        simp only [List.map_nil]
        split
        · rfl
        · simp [Tree.mapText, hf]
      | cons t rest =>
        cases t with
        | scalar form text => rfl
        | flowSequence =>
          simp only [List.map_cons, Token.mapText, ih.flowItems]
          cases parseFlowItems handles true fuel rest <;> rfl
        | flowMapping =>
          simp only [List.map_cons, Token.mapText, ih.flowEntries]
          cases parseFlowEntries handles true fuel rest <;> rfl
        | _ => exact parseBehind_mapText hf ih block bare p _ rfl rest

omit hf ih in
theorem parsesMapped (hf : ∀ form, f form "" = "") (handles : Handles) (fuel : Nat) : ParsesMapped f handles fuel := by
  induction fuel with
  | zero => exact parsesMapped_zero
  | succ fuel ih =>
    exact {
      node := parseNode_mapText hf ih
      optional := parseOptional_mapText hf ih
      items := parseItems_mapText ih
      value := parseValue_mapText hf ih
      entries := parseEntries_mapText ih
      flowValue := parseFlowValue_mapText hf ih
      pair := parsePair_mapText hf ih
      flowItem := parseFlowItem_mapText ih
      flowItems := parseFlowItems_mapText ih
      flowEntry := parseFlowEntry_mapText hf ih
      flowEntries := parseFlowEntries_mapText ih }

end Parser

section Document

variable (f : ScalarForm → String → String)

theorem readDirectives_mapText (version : Bool) (handles : Handles) (ts : List Token) :
    readDirectives? version handles (ts.map (Token.mapText f)) =
      (readDirectives? version handles ts).map fun r => (r.1, r.2.map (Token.mapText f)) := by
  induction ts generalizing version handles with
  | nil => rfl
  | cons t rest ih =>
    cases t with
    | version major minor =>
      simp only [List.map_cons, Token.mapText, readDirectives?]
      split
      · rfl
      · exact ih true handles
    | tagHandle handle lead =>
      simp only [List.map_cons, Token.mapText, readDirectives?]
      split
      · rfl
      · exact ih version (handles ++ [(handle, lead)])
    | _ => rfl

theorem atDocumentEnd_mapText (ts : List Token) : atDocumentEnd (ts.map (Token.mapText f)) = atDocumentEnd ts := by
  cases ts with
  | nil => rfl
  | cons t rest => cases t <;> rfl

variable {f} (hf : ∀ form, f form "" = "")

include hf

theorem parseDocument_mapText (fuel : Nat) (ts : List Token) :
    parseDocument fuel (ts.map (Token.mapText f)) =
      (parseDocument fuel ts).map fun r => (r.1.mapText f, r.2.map (Token.mapText f)) := by
  have hnode (handles : Handles) := (parsesMapped hf handles fuel).node true false
  have hdocument (handles : Handles) (rest : List Token) :
      (if atDocumentEnd (rest.map (Token.mapText f)) then some (.empty, rest.map (Token.mapText f))
        else parseNode handles true false fuel (rest.map (Token.mapText f))) =
      (if atDocumentEnd rest then some (.empty, rest) else parseNode handles true false fuel rest).map
        fun r => (r.1.mapText f, r.2.map (Token.mapText f)) := by
    rw [atDocumentEnd_mapText]
    split
    · rw [Option.map_some, mapText_empty hf]
    · exact hnode handles rest
  unfold parseDocument
  rw [readDirectives_mapText]
  cases readDirectives? false [] ts with
  | none => rfl
  | some r =>
    obtain ⟨handles, rest⟩ := r
    simp only [Option.map_some, Option.bind_eq_bind, Option.bind_some]
    cases ts with
    | nil => simp [mapText_empty hf]
    | cons t others =>
      cases rest with
      | nil =>
        cases t with
        | version => rfl
        | tagHandle => rfl
        | _ => exact hnode _ (_ :: others)
      | cons u rest =>
        cases u with
        | documentStart => exact hdocument _ rest
        | _ =>
          cases t with
          | version => rfl
          | tagHandle => rfl
          | _ => exact hnode _ (_ :: others)

/-- With other texts in the tokens the same document is parsed, with those texts in it. -/
theorem parse_mapText (ts : List Token) : parse? (ts.map (Token.mapText f)) = (parse? ts).map (Tree.mapText f) := by
  unfold parse?
  rw [List.length_map, parseDocument_mapText hf]
  cases parseDocument (4 * ts.length + 4) ts with
  | none => rfl
  | some r =>
    have hend : (r.2.map (Token.mapText f)).all (· = .documentEnd) = r.2.all (· = .documentEnd) := by
      simp only [List.all_map, Function.comp_def, mapText_eq_iff f _ .documentEnd rfl]
    simp only [Option.map_some, Option.bind_eq_bind, Option.bind_some, hend]
    split <;> rfl

end Document

end CiWorkflow.Yaml
