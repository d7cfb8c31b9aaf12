import CiWorkflow.Yaml.Tree

set_option autoImplicit false

namespace CiWorkflow.Yaml

variable {handles : Handles}

def opensNode : Token → Bool
  | .scalar .. | .flowSequence | .flowMapping | .blockSequence | .blockMapping | .blockEntry => true
  | _ => false

inductive Tagging (handles : Handles) : List Token → Option String → Prop
  | none : Tagging handles [] none
  | some (handle suffix full : String) (h : fullTag? handles handle suffix = some full) :
      Tagging handles [.tag handle suffix] (some full)

def startsNode : Token → Bool
  | .tag .. => true
  | t => opensNode t

structure ParsesNode (handles : Handles) (block bare : Bool) (ts : List Token) (o : Option (Tree String)) :
    Prop where
  starts : ts.head?.any startsNode = true
  bareOnly : ts.head? = some .blockEntry → bare = true
  parse : ∀ fuel rest, 4 * ts.length + 4 ≤ fuel → (bare = true → rest.head? ≠ some .blockEntry) →
    parseNode handles block bare fuel (ts ++ rest) = o.map (·, rest)

def ParsesFlowItems (handles : Handles) (first : Bool) (ts : List Token) (o : Option (List (Tree String))) :
    Prop :=
  ∀ fuel rest, 4 * ts.length + 8 ≤ fuel →
    parseFlowItems handles first fuel (ts ++ .flowSequenceEnd :: rest) = o.map (·, rest)

def ParsesFlowEntries (handles : Handles) (first : Bool) (ts : List Token) (o : Option (List Entry)) : Prop :=
  ∀ fuel rest, 4 * ts.length + 8 ≤ fuel →
    parseFlowEntries handles first fuel (ts ++ .flowMappingEnd :: rest) = o.map (·, rest)

def ParsesItems (handles : Handles) (ts : List Token) (o : Option (List (Tree String))) : Prop :=
  ∀ fuel rest, 4 * ts.length + 8 ≤ fuel →
    parseItems handles true fuel (ts ++ .blockEnd :: rest) = o.map (·, rest)

def ParsesBareItems (handles : Handles) (ts : List Token) (o : Option (List (Tree String))) : Prop :=
  ∀ fuel rest, 4 * ts.length + 3 ≤ fuel → rest.head? ≠ some .blockEntry →
    parseItems handles false fuel (ts ++ rest) = o.map (·, rest)

def ParsesEntries (handles : Handles) (ts : List Token) (o : Option (List Entry)) : Prop :=
  ∀ fuel rest, 4 * ts.length + 8 ≤ fuel →
    parseEntries handles fuel (ts ++ .blockEnd :: rest) = o.map (·, rest)

theorem not_nextAmong (stops ts rest : List Token) (h : ts.head?.any startsNode = true)
    (hs : ∀ t ∈ stops, ts.head? ≠ some t) : nextAmong stops (ts ++ rest) = false := by
  cases ts with
  | nil => cases h
  | cons t others =>
    simp only [List.cons_append, nextAmong, List.contains_eq_mem, decide_eq_false_iff_not]
    exact fun hmem => hs t hmem rfl

section Nodes

variable {block bare : Bool} {tag : Option String} {pre : List Token}

theorem readProperties_append (h : Tagging handles pre tag) (t : Token) (rest : List Token)
    (ht : opensNode t = true) : readProperties? handles (pre ++ t :: rest) = some (⟨none, tag⟩, t :: rest) := by
  cases h with
  | none => cases t <;> first | rfl | cases ht
  | some handle suffix full hf =>
    rw [List.singleton_append]
    cases t <;> first | (simp only [readProperties?, hf]; rfl) | cases ht

theorem starts_append (h : Tagging handles pre tag) (t : Token) (rest : List Token)
    (ht : opensNode t = true) : (pre ++ t :: rest).head?.any startsNode = true := by
  cases h with
  | none => cases t <;> first | rfl | cases ht
  | some => rfl

theorem parseNode_eq (fuel : Nat) (ts : List Token) (h : ∀ name rest, ts ≠ .alias name :: rest) :
    parseNode handles block bare (fuel + 1) ts = (readProperties? handles ts).bind fun (p, ts) =>
      match ts with
      | .scalar form text :: rest => some (.scalar p.anchor p.tag form text, rest)
      | .flowSequence :: rest => do
        let (items, rest) ← parseFlowItems handles true fuel rest
        return (.sequence p.anchor p.tag items, rest)
      | .flowMapping :: rest => do
        let (entries, rest) ← parseFlowEntries handles true fuel rest
        return (.mapping p.anchor p.tag entries, rest)
      | t :: rest =>
        if bare && t = .blockEntry then do
          let (items, rest) ← parseItems handles false fuel (t :: rest)
          return (.sequence p.anchor p.tag items, rest)
        else if block && t = .blockSequence then do
          let (items, rest) ← parseItems handles true fuel rest
          return (.sequence p.anchor p.tag items, rest)
        else if block && t = .blockMapping then do
          let (entries, rest) ← parseEntries handles fuel rest
          return (.mapping p.anchor p.tag entries, rest)
        else if p.isNone then none
        else some (.scalar p.anchor p.tag .plain "", t :: rest)
      | [] => if p.isNone then none else some (.scalar p.anchor p.tag .plain "", []) := by
  rw [parseNode.eq_def]
  split
  · rename_i heq
    cases heq
  · exact absurd rfl (h _ _)
  · rename_i heq _
    cases heq
    rfl

theorem not_alias_append (h : Tagging handles pre tag) (t : Token) (rest : List Token)
    (ht : opensNode t = true) (name : String) (others : List Token) :
    pre ++ t :: rest ≠ .alias name :: others := by
  cases h with
  | none =>
    rintro ⟨⟩
    cases ht
  | some => simp

theorem parsesNode_scalar (h : Tagging handles pre tag) (form : ScalarForm) (text : String) :
    ParsesNode handles block bare (pre ++ [.scalar form text]) (some (.scalar none tag form text)) := by
  refine ⟨starts_append h _ _ rfl, ?_, ?_⟩
  · cases h <;> simp
  · intro fuel rest hf _
    obtain ⟨fuel, rfl⟩ : ∃ k, fuel = k + 1 := ⟨fuel - 1, by simp at hf; omega⟩
    rw [List.append_assoc, List.singleton_append, parseNode_eq fuel _ (not_alias_append h _ _ rfl),
      readProperties_append h _ _ rfl]
    rfl

theorem parsesNode_flowSequence (h : Tagging handles pre tag) (ts : List Token)
    (o : Option (List (Tree String))) (hi : ParsesFlowItems handles true ts o) :
    ParsesNode handles block bare (pre ++ .flowSequence :: (ts ++ [.flowSequenceEnd]))
      (o.map (.sequence none tag)) := by
  refine ⟨starts_append h _ _ rfl, ?_, ?_⟩
  · cases h <;> simp
  · intro fuel rest hf _
    simp only [List.length_append, List.length_cons, List.length_nil] at hf
    obtain ⟨fuel, rfl⟩ : ∃ k, fuel = k + 1 := ⟨fuel - 1, by omega⟩
    rw [List.append_assoc, List.cons_append, parseNode_eq fuel _ (not_alias_append h _ _ rfl),
      readProperties_append h _ _ rfl, List.append_assoc]
    simp only [Option.bind_some, List.singleton_append, hi fuel rest (by omega)]
    cases o <;> rfl

theorem parsesNode_flowMapping (h : Tagging handles pre tag) (ts : List Token) (o : Option (List Entry))
    (he : ParsesFlowEntries handles true ts o) :
    ParsesNode handles block bare (pre ++ .flowMapping :: (ts ++ [.flowMappingEnd]))
      (o.map (.mapping none tag)) := by
  refine ⟨starts_append h _ _ rfl, ?_, ?_⟩
  · cases h <;> simp
  · intro fuel rest hf _
    simp only [List.length_append, List.length_cons, List.length_nil] at hf
    obtain ⟨fuel, rfl⟩ : ∃ k, fuel = k + 1 := ⟨fuel - 1, by omega⟩
    rw [List.append_assoc, List.cons_append, parseNode_eq fuel _ (not_alias_append h _ _ rfl),
      readProperties_append h _ _ rfl, List.append_assoc]
    simp only [Option.bind_some, List.singleton_append, he fuel rest (by omega)]
    cases o <;> rfl

theorem parsesNode_blockSequence (h : Tagging handles pre tag) (ts : List Token)
    (o : Option (List (Tree String))) (hi : ParsesItems handles ts o) :
    ParsesNode handles true bare (pre ++ .blockSequence :: (ts ++ [.blockEnd])) (o.map (.sequence none tag)) := by
  refine ⟨starts_append h _ _ rfl, ?_, ?_⟩
  · cases h <;> simp
  · intro fuel rest hf _
    simp only [List.length_append, List.length_cons, List.length_nil] at hf
    obtain ⟨fuel, rfl⟩ : ∃ k, fuel = k + 1 := ⟨fuel - 1, by omega⟩
    rw [List.append_assoc, List.cons_append, parseNode_eq fuel _ (not_alias_append h _ _ rfl),
      readProperties_append h _ _ rfl, List.append_assoc]
    simp only [Option.bind_some, List.singleton_append, hi fuel rest (by omega), reduceCtorEq, decide_false,
      Bool.and_false, Bool.false_eq_true, ↓reduceIte, decide_true, Bool.and_true]
    cases o <;> rfl

theorem parsesNode_blockMapping (h : Tagging handles pre tag) (ts : List Token) (o : Option (List Entry))
    (he : ParsesEntries handles ts o) :
    ParsesNode handles true bare (pre ++ .blockMapping :: (ts ++ [.blockEnd])) (o.map (.mapping none tag)) := by
  refine ⟨starts_append h _ _ rfl, ?_, ?_⟩
  · cases h <;> simp
  · intro fuel rest hf _
    simp only [List.length_append, List.length_cons, List.length_nil] at hf
    obtain ⟨fuel, rfl⟩ : ∃ k, fuel = k + 1 := ⟨fuel - 1, by omega⟩
    rw [List.append_assoc, List.cons_append, parseNode_eq fuel _ (not_alias_append h _ _ rfl),
      readProperties_append h _ _ rfl, List.append_assoc]
    simp only [Option.bind_some, List.singleton_append, he fuel rest (by omega), reduceCtorEq, decide_false,
      Bool.and_false, Bool.false_eq_true, ↓reduceIte, decide_true, Bool.and_true]
    cases o <;> rfl

/-- A sequence in the column of the mapping around it shows in its first entry alone. -/
theorem parsesNode_bareSequence (h : Tagging handles pre tag) (ts : List Token)
    (o : Option (List (Tree String))) (hi : ParsesBareItems handles (.blockEntry :: ts) o) :
    ParsesNode handles true true (pre ++ .blockEntry :: ts) (o.map (.sequence none tag)) := by
  refine ⟨starts_append h _ _ rfl, fun _ => rfl, ?_⟩
  intro fuel rest hf hrest
  simp only [List.length_append, List.length_cons] at hf
  obtain ⟨fuel, rfl⟩ : ∃ k, fuel = k + 1 := ⟨fuel - 1, by omega⟩
  have hi := hi fuel rest (by simp only [List.length_cons]; omega) (hrest rfl)
  rw [List.cons_append] at hi
  rw [List.append_assoc, List.cons_append, parseNode_eq fuel _ (not_alias_append h _ _ rfl),
    readProperties_append h _ _ rfl]
  simp only [Option.bind_some, hi, decide_true, Bool.and_true, ↓reduceIte]
  cases o <;> rfl

end Nodes

theorem ParsesNode.optional {block bare : Bool} {ts : List Token} {o : Option (Tree String)}
    (h : ParsesNode handles block bare ts o) (stops : List Token) (hs : ∀ t ∈ stops, ts.head? ≠ some t)
    (fuel : Nat) (rest : List Token) (hf : 4 * ts.length + 5 ≤ fuel)
    (hrest : bare = true → rest.head? ≠ some .blockEntry) :
    parseOptional handles block bare stops fuel (ts ++ rest) = o.map (·, rest) := by
  obtain ⟨fuel, rfl⟩ : ∃ k, fuel = k + 1 := ⟨fuel - 1, by omega⟩
  rw [parseOptional, not_nextAmong stops ts rest h.starts hs, h.parse fuel rest (by omega) hrest]
  simp

theorem ParsesNode.head_ne {block bare : Bool} {ts : List Token} {o : Option (Tree String)}
    (h : ParsesNode handles block bare ts o) (t : Token) (ht : startsNode t = false) : ts.head? ≠ some t := by
  intro he
  have := h.starts
  rw [he] at this
  exact absurd this (by simp [ht])

theorem ParsesNode.ne_nil {block bare : Bool} {ts : List Token} {o : Option (Tree String)}
    (h : ParsesNode handles block bare ts o) : ∃ t others, ts = t :: others ∧ startsNode t = true := by
  cases ts with
  | nil => exact absurd h.starts (by simp)
  | cons t others => exact ⟨t, others, rfl, h.starts⟩

section Collections

variable {ts us : List Token} {o : Option (Tree String)} {os : Option (List (Tree String))}
  {es : Option (List Entry)}

theorem parsesFlowItems_nil (first : Bool) : ParsesFlowItems handles first [] (some []) := by
  intro fuel rest hf
  obtain ⟨fuel, rfl⟩ : ∃ k, fuel = k + 1 := ⟨fuel - 1, by simp at hf; omega⟩
  rfl

theorem parseFlowItem_node (h : ParsesNode handles false false ts o) (fuel : Nat) (rest : List Token)
    (hf : 4 * ts.length + 5 ≤ fuel) : parseFlowItem handles fuel (ts ++ rest) = o.map (·, rest) := by
  obtain ⟨fuel, rfl⟩ : ∃ k, fuel = k + 1 := ⟨fuel - 1, by omega⟩
  obtain ⟨t, others, rfl, ht⟩ := h.ne_nil
  have hp := h.parse fuel rest (by omega) (by simp)
  rw [List.cons_append] at hp ⊢
  rw [parseFlowItem, hp]
  rintro rest' he
  cases he
  cases ht

theorem parsesFlowItems_cons (h : ParsesNode handles false false ts o)
    (hs : ParsesFlowItems handles false us os) :
    ParsesFlowItems handles true (ts ++ us) (o.bind fun t => os.map (t :: ·)) := by
  intro fuel rest hf
  obtain ⟨t, others, rfl, ht⟩ := h.ne_nil
  simp only [List.length_append, List.length_cons] at hf
  obtain ⟨fuel, rfl⟩ : ∃ k, fuel = k + 1 := ⟨fuel - 1, by omega⟩
  have hp := parseFlowItem_node h fuel (us ++ .flowSequenceEnd :: rest) (by simp only [List.length_cons]; omega)
  have hr := hs fuel rest (by omega)
  have hne : ∀ mark rest', startsNode mark = false →
      t :: (others ++ (us ++ .flowSequenceEnd :: rest)) ≠ mark :: rest' := by
    rintro mark rest' hm ⟨⟩
    rw [hm] at ht
    cases ht
  rw [List.append_assoc, List.cons_append] at *
  rw [parseFlowItems]
  · simp only [↓reduceIte, Option.bind_eq_bind, Option.bind_some]
    split
    · rename_i heq
      exact absurd heq (hne _ _ rfl)
    · rw [hp]
      cases o with
      | none => rfl
      | some t =>
        simp only [Option.map_some, Option.bind_some, hr]
        cases os <;> rfl
  · exact fun rest' => hne _ rest' rfl
  · exact fun rest' => hne _ rest' rfl

theorem parsesFlowItems_next (h : ParsesNode handles false false ts o)
    (hs : ParsesFlowItems handles false us os) :
    ParsesFlowItems handles false (.flowEntry :: (ts ++ us)) (o.bind fun t => os.map (t :: ·)) := by
  intro fuel rest hf
  obtain ⟨t, others, rfl, ht⟩ := h.ne_nil
  simp only [List.length_append, List.length_cons] at hf
  obtain ⟨fuel, rfl⟩ : ∃ k, fuel = k + 1 := ⟨fuel - 1, by omega⟩
  have hp := parseFlowItem_node h fuel (us ++ .flowSequenceEnd :: rest) (by simp only [List.length_cons]; omega)
  have hr := hs fuel rest (by omega)
  rw [List.cons_append, List.append_assoc, List.cons_append] at *
  rw [parseFlowItems]
  · simp only [Bool.false_eq_true, ↓reduceIte, Option.bind_eq_bind, Option.bind_some]
    split
    · rename_i heq
      cases heq
      cases ht
    · rw [hp]
      cases o with
      | none => rfl
      | some t =>
        simp only [Option.map_some, Option.bind_some, hr]
        cases os <;> rfl

theorem parsesFlowEntries_nil (first : Bool) : ParsesFlowEntries handles first [] (some []) := by
  intro fuel rest hf
  obtain ⟨fuel, rfl⟩ : ∃ k, fuel = k + 1 := ⟨fuel - 1, by simp at hf; omega⟩
  rfl

/-- An entry between curly brackets. One that is refused either has a part that is, or leaves a colon behind
that nothing takes. -/
structure ParsesFlowEntry (handles : Handles) (ts : List Token) (o : Option Entry) : Prop where
  starts : ts.head?.any (fun t => t = .key || startsNode t) = true
  reads : ∀ fuel rest, 4 * ts.length + 4 ≤ fuel → ∀ e, o = some e →
    parseFlowEntry handles fuel (ts ++ rest) = some (e, rest)
  refuses : ∀ fuel rest, 4 * ts.length + 4 ≤ fuel → o = none →
    parseFlowEntry handles fuel (ts ++ rest) = none ∨
      ∃ e others, parseFlowEntry handles fuel (ts ++ rest) = some (e, .value :: others)

theorem parsesFlowEntry_keyed {ov : Option (Tree String)} (hk : ParsesNode handles false false ts o)
    (hv : ParsesNode handles false false us ov) :
    ParsesFlowEntry handles (.key :: (ts ++ .value :: us)) (o.bind fun k => ov.map (k, ·)) := by
  have hparse : ∀ fuel rest, 4 * (Token.key :: (ts ++ .value :: us)).length + 4 ≤ fuel →
      parseFlowEntry handles fuel (.key :: (ts ++ .value :: us) ++ rest) =
        (o.bind fun k => ov.map (k, ·)).map (·, rest) := by
    intro fuel rest hf
    simp only [List.length_append, List.length_cons] at hf
    obtain ⟨fuel, rfl⟩ : ∃ k, fuel = k + 2 := ⟨fuel - 2, by omega⟩
    have hkey := hk.optional [.value, .flowEntry, .flowMappingEnd]
      (by simpa using ⟨hk.head_ne _ rfl, hk.head_ne _ rfl, hk.head_ne _ rfl⟩) (fuel + 1)
      (.value :: (us ++ rest)) (by omega) (by simp)
    have hvalue := hv.optional [.flowEntry, .flowMappingEnd]
      (by simpa using ⟨hv.head_ne _ rfl, hv.head_ne _ rfl⟩) fuel rest (by omega) (by simp)
    rw [List.cons_append, List.append_assoc, List.cons_append, parseFlowEntry, hkey]
    cases o with
    | none => rfl
    | some k =>
      simp only [Option.map_some, Option.bind_eq_bind, Option.bind_some, parseFlowValue, hvalue]
      cases ov <;> rfl
  refine ⟨rfl, fun fuel rest hf e he => ?_, fun fuel rest hf he => .inl ?_⟩
  · rw [hparse fuel rest hf, he]
    rfl
  · rw [hparse fuel rest hf, he]
    rfl

theorem parsesFlowEntry_keyless (hk : ParsesNode handles false false ts o) :
    ParsesFlowEntry handles (ts ++ .value :: us) none := by
  obtain ⟨t, others, rfl, ht⟩ := hk.ne_nil
  refine ⟨by simp [ht], by simp, fun fuel rest hf _ => ?_⟩
  simp only [List.length_append, List.length_cons] at hf
  obtain ⟨fuel, rfl⟩ : ∃ k, fuel = k + 1 := ⟨fuel - 1, by omega⟩
  have hp := hk.parse fuel (.value :: (us ++ rest)) (by simp only [List.length_cons]; omega) (by simp)
  rw [List.append_assoc, List.cons_append, List.cons_append] at *
  rw [parseFlowEntry, hp]
  · cases o with
    | none => exact .inl rfl
    | some k => exact .inr ⟨_, _, rfl⟩
  · rintro rest' ⟨⟩
    cases ht

theorem parseFlowEntries_step {oe : Option Entry} (h : ParsesFlowEntry handles ts oe)
    (hs : ParsesFlowEntries handles false us es) (fuel : Nat) (rest : List Token)
    (hf : 4 * (ts.length + us.length) + 7 ≤ fuel) :
    (do
      let (entry, rest) ← parseFlowEntry handles fuel (ts ++ (us ++ .flowMappingEnd :: rest))
      let (entries, rest) ← parseFlowEntries handles false fuel rest
      return (entry :: entries, rest)) = (oe.bind fun e => es.map (e :: ·)).map (·, rest) := by
  have hlen : 0 < ts.length := by
    cases ts with
    | nil => exact absurd h.starts (by simp)
    | cons => simp
  cases oe with
  | some e =>
    rw [h.reads fuel (us ++ .flowMappingEnd :: rest) (by omega) e rfl]
    simp only [Option.bind_eq_bind, Option.bind_some, hs fuel rest (by omega)]
    cases es <;> rfl
  | none =>
    rcases h.refuses fuel (us ++ .flowMappingEnd :: rest) (by omega) rfl with hp | ⟨e, others, hp⟩
    · rw [hp]
      rfl
    · obtain ⟨fuel, rfl⟩ : ∃ k, fuel = k + 1 := ⟨fuel - 1, by omega⟩
      rw [hp]
      rfl

theorem parsesFlowEntries_cons {oe : Option Entry} (h : ParsesFlowEntry handles ts oe)
    (hs : ParsesFlowEntries handles false us es) :
    ParsesFlowEntries handles true (ts ++ us) (oe.bind fun e => es.map (e :: ·)) := by
  intro fuel rest hf
  rw [List.length_append] at hf
  obtain ⟨fuel, rfl⟩ : ∃ k, fuel = k + 1 := ⟨fuel - 1, by omega⟩
  have hstep := parseFlowEntries_step h hs fuel rest (by omega)
  have hne : ∀ mark rest', mark ≠ .key → startsNode mark = false →
      ts ++ (us ++ .flowMappingEnd :: rest) ≠ mark :: rest' := by
    have hstarts := h.starts
    intro mark rest' hk hm he
    cases ts with
    | nil => cases hstarts
    | cons t others =>
      cases he
      simp [hk, hm] at hstarts
  rw [List.append_assoc, parseFlowEntries]
  · simp only [↓reduceIte, Option.bind_eq_bind, Option.bind_some]
    split
    · rename_i heq
      exact absurd heq (hne _ _ (by simp) rfl)
    · exact hstep
  · exact fun rest' => hne _ rest' (by simp) rfl
  · exact fun rest' => hne _ rest' (by simp) rfl

theorem parsesFlowEntries_next {oe : Option Entry} (h : ParsesFlowEntry handles ts oe)
    (hs : ParsesFlowEntries handles false us es) :
    ParsesFlowEntries handles false (.flowEntry :: (ts ++ us)) (oe.bind fun e => es.map (e :: ·)) := by
  intro fuel rest hf
  simp only [List.length_append, List.length_cons] at hf
  obtain ⟨fuel, rfl⟩ : ∃ k, fuel = k + 1 := ⟨fuel - 1, by omega⟩
  have hstep := parseFlowEntries_step h hs fuel rest (by omega)
  have hstarts := h.starts
  rw [List.cons_append, List.append_assoc, parseFlowEntries]
  · simp only [Bool.false_eq_true, ↓reduceIte, Option.bind_eq_bind, Option.bind_some]
    split
    · rename_i heq
      cases ts with
      | nil => cases hstarts
      | cons t others =>
        cases heq
        exact absurd hstarts (by simp [startsNode, opensNode])
    · exact hstep

theorem parsesItems_nil : ParsesItems handles [] (some []) := by
  intro fuel rest hf
  obtain ⟨fuel, rfl⟩ : ∃ k, fuel = k + 1 := ⟨fuel - 1, by simp at hf; omega⟩
  rfl

theorem parsesItems_cons (h : ParsesNode handles true false ts o) (hs : ParsesItems handles us os) :
    ParsesItems handles (.blockEntry :: (ts ++ us)) (o.bind fun t => os.map (t :: ·)) := by
  intro fuel rest hf
  simp only [List.length_append, List.length_cons] at hf
  obtain ⟨fuel, rfl⟩ : ∃ k, fuel = k + 1 := ⟨fuel - 1, by omega⟩
  have hbare : ts.head? ≠ some .blockEntry := fun he => by simpa using h.bareOnly he
  have hp := h.optional [.blockEntry, .blockEnd] (by simpa using ⟨hbare, h.head_ne _ rfl⟩) fuel
    (us ++ .blockEnd :: rest) (by omega) (by simp)
  rw [List.cons_append, List.append_assoc, parseItems]
  simp only [↓reduceIte, hp, Option.bind_eq_bind]
  cases o with
  | none => rfl
  | some t =>
    simp only [Option.map_some, Option.bind_some, hs fuel rest (by omega)]
    cases os <;> rfl

theorem parsesBareItems_nil : ParsesBareItems handles [] (some []) := by
  intro fuel rest hf hrest
  obtain ⟨fuel, rfl⟩ : ∃ k, fuel = k + 1 := ⟨fuel - 1, by omega⟩
  cases rest with
  | nil => rfl
  | cons t others =>
    rw [List.nil_append, parseItems.eq_def]
    cases t <;> first | rfl | exact absurd rfl hrest

theorem parsesBareItems_cons (h : ParsesNode handles true false ts o) (hs : ParsesBareItems handles us os) :
    ParsesBareItems handles (.blockEntry :: (ts ++ us)) (o.bind fun t => os.map (t :: ·)) := by
  intro fuel rest hf hrest
  simp only [List.length_append, List.length_cons] at hf
  obtain ⟨fuel, rfl⟩ : ∃ k, fuel = k + 1 := ⟨fuel - 1, by omega⟩
  have hbare : ts.head? ≠ some .blockEntry := fun he => by simpa using h.bareOnly he
  have hp := h.optional [.blockEntry, .key, .value, .blockEnd]
    (by simpa using ⟨hbare, h.head_ne _ rfl, h.head_ne _ rfl, h.head_ne _ rfl⟩) fuel
    (us ++ rest) (by omega) (by simp)
  rw [List.cons_append, List.append_assoc, parseItems]
  simp only [Bool.false_eq_true, ↓reduceIte, hp, Option.bind_eq_bind]
  cases o with
  | none => rfl
  | some t =>
    simp only [Option.map_some, Option.bind_some, hs fuel rest (by omega) hrest]
    cases os <;> rfl

theorem parsesEntries_nil : ParsesEntries handles [] (some []) := by
  intro fuel rest hf
  obtain ⟨fuel, rfl⟩ : ∃ k, fuel = k + 1 := ⟨fuel - 1, by simp at hf; omega⟩
  rfl

theorem parsesEntries_cons {ws : List Token} {ov : Option (Tree String)}
    (hk : ParsesNode handles true true ts o) (hv : ParsesNode handles true true us ov)
    (hs : ParsesEntries handles ws es) (hws : ws.head? ≠ some .blockEntry) :
    ParsesEntries handles (.key :: (ts ++ .value :: (us ++ ws)))
      (o.bind fun k => ov.bind fun v => es.map ((k, v) :: ·)) := by
  intro fuel rest hf
  simp only [List.length_append, List.length_cons] at hf
  obtain ⟨fuel, rfl⟩ : ∃ k, fuel = k + 2 := ⟨fuel - 2, by omega⟩
  have hkey := hk.optional [.key, .value, .blockEnd]
    (by simpa using ⟨hk.head_ne _ rfl, hk.head_ne _ rfl, hk.head_ne _ rfl⟩) (fuel + 1)
    (.value :: (us ++ (ws ++ .blockEnd :: rest))) (by omega) (by simp)
  have hnext : (ws ++ .blockEnd :: rest).head? ≠ some .blockEntry := by
    cases ws with
    | nil => simp
    | cons t others => simpa using hws
  have hvalue := hv.optional [.key, .value, .blockEnd]
    (by simpa using ⟨hv.head_ne _ rfl, hv.head_ne _ rfl, hv.head_ne _ rfl⟩) fuel
    (ws ++ .blockEnd :: rest) (by omega) fun _ => hnext
  rw [List.cons_append, List.append_assoc, List.cons_append, List.append_assoc, parseEntries, hkey]
  simp only [Option.bind_eq_bind]
  cases o with
  | none => rfl
  | some k =>
    simp only [Option.map_some, Option.bind_some, parseValue, hvalue]
    cases ov with
    | none => rfl
    | some v =>
      simp only [Option.map_some, Option.bind_some, hs (fuel + 1) rest (by omega)]
      cases es <;> rfl

end Collections

theorem parseDocument_eq (fuel : Nat) (t : Token) (rest : List Token) (ht : startsNode t = true) :
    parseDocument fuel (t :: rest) = parseNode standardHandles true false fuel (t :: rest) := by
  cases t <;> first | rfl | cases ht

theorem parse_document (ts : List Token) (o : Option (Tree String))
    (h : ParsesNode standardHandles true false ts o) : parse? ts = o := by
  obtain ⟨t, others, rfl, ht⟩ := h.ne_nil
  have hp := h.parse (4 * (t :: others).length + 4) [] (by simp) (by simp)
  rw [List.append_nil] at hp
  unfold parse?
  rw [parseDocument_eq _ t others ht, hp]
  cases o <;> rfl

end CiWorkflow.Yaml
