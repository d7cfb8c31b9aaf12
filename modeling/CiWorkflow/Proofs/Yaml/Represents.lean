import CiWorkflow.Proofs.Yaml.Content
import CiWorkflow.Proofs.Yaml.Resolve
import CiWorkflow.Proofs.Yaml.Same
import CiWorkflow.Proofs.Yaml.TagText
import CiWorkflow.Proofs.Yaml.Value

set_option autoImplicit false

namespace CiWorkflow.Yaml

namespace Value

mutual

/-- The value with one NaN in place of each: the text of a number does not tell which NaN it was. -/
def withOneNan : Value → Value
  | .float x => .float (if x.isNan then .nan else x)
  | .sequence items => .sequence (itemsWithOneNan items)
  | .mapping entries => .mapping (entriesWithOneNan entries)
  | .tagged t v => .tagged t (withOneNan v)
  | v => v

def itemsWithOneNan : List Value → List Value
  | [] => []
  | v :: rest => withOneNan v :: itemsWithOneNan rest

def entriesWithOneNan : List (Value × Value) → List (Value × Value)
  | [] => []
  | (k, v) :: rest => (withOneNan k, withOneNan v) :: entriesWithOneNan rest

end

theorem entriesWithOneNan_eq_map (es : List (Value × Value)) :
    entriesWithOneNan es = es.map fun e => (e.1.withOneNan, e.2.withOneNan) := by
  induction es with
  | nil => rfl
  | cons e rest ih => rw [entriesWithOneNan, ih, List.map_cons]

def under (tag : Option String) (v : Value) : Value :=
  match tag with
  | some t => .tagged t v
  | none => v

theorem under_untag (v : Value) : under (untag v).1 (untag v).2 = v := by
  cases v <;> rfl

theorem withOneNan_under (tag : Option String) (v : Value) : (under tag v).withOneNan = under tag v.withOneNan := by
  cases tag <;> rfl

@[simp] theorem depth_under (tag : Option String) (v : Value) : (under tag v).depth = v.depth := by
  cases tag <;> rfl

mutual

@[simp] theorem depth_withOneNan (v : Value) : v.withOneNan.depth = v.depth := by
  cases v with
  | sequence items => rw [withOneNan, depth, depth, itemsDepth_withOneNan items]
  | mapping entries => rw [withOneNan, depth, depth, entriesDepth_withOneNan entries]
  | tagged t v => exact depth_withOneNan v
  | _ => rfl

theorem itemsDepth_withOneNan (vs : List Value) : itemsDepth (itemsWithOneNan vs) = itemsDepth vs := by
  cases vs with
  | nil => rfl
  | cons v rest => rw [itemsWithOneNan, itemsDepth, itemsDepth, depth_withOneNan v, itemsDepth_withOneNan rest]

theorem entriesDepth_withOneNan (es : List (Value × Value)) :
    entriesDepth (entriesWithOneNan es) = entriesDepth es := by
  cases es with
  | nil => rfl
  | cons e rest =>
    rw [entriesWithOneNan, entriesDepth, entriesDepth, depth_withOneNan e.1, depth_withOneNan e.2,
      entriesDepth_withOneNan rest]

end

section Same

open Decimal

theorem same_nan (x y : Binary64) :
    (if x.isNan then .nan else x : Binary64).same (if y.isNan then .nan else y) = x.same y := by
  have hnan : Binary64.nan.isNan = true := by decide
  have hzero {x : Binary64} (h : x.isNan = true) : x.magnitude ≠ 0 := fun h' => by
    simp [Binary64.isNan, Binary64.kind, h'] at h
  have hne {x y : Binary64} (hx : x.isNan = true) (hy : y.isNan = false) : x.same y = false := by
    have heq : x ≠ y := by
      rintro rfl
      simp [hx] at hy
    simp [Binary64.same, heq, hy, hzero hx]
  have hne' {x y : Binary64} (hx : x.isNan = false) (hy : y.isNan = true) : x.same y = false := by
    have heq : x ≠ y := by
      rintro rfl
      simp [hx] at hy
    simp [Binary64.same, heq, hx, hzero hy]
  cases hx : x.isNan <;> cases hy : y.isNan
  · rfl
  · simp [hne' hx hy, hne' hx hnan]
  · simp [hne hx hy, hne hnan hy]
  · simp [Binary64.same, hx, hy]

mutual

theorem same_withOneNan (v w : Value) : same v.withOneNan w.withOneNan = same v w := by
  cases v with
  | float x =>
    cases w with
    | float y => exact same_nan x y
    | _ => rfl
  | sequence items =>
    cases w with
    | sequence others => exact sameItems_withOneNan items others
    | _ => rfl
  | mapping entries =>
    cases w with
    | mapping others =>
      have hlength (es : List (Value × Value)) : (entriesWithOneNan es).length = es.length := by
        rw [entriesWithOneNan_eq_map, List.length_map]
      simp only [withOneNan, same, hlength, sameEntries_withOneNan entries others]
    | _ => rfl
  | tagged t v =>
    cases w with
    | tagged u w => simp only [withOneNan, same, same_withOneNan v w]
    | _ => rfl
  | _ => cases w <;> rfl

theorem sameItems_withOneNan (vs ws : List Value) :
    sameItems (itemsWithOneNan vs) (itemsWithOneNan ws) = sameItems vs ws := by
  cases vs with
  | nil => cases ws <;> rfl
  | cons v vs =>
    cases ws with
    | nil => rfl
    | cons w ws => simp only [itemsWithOneNan, sameItems, same_withOneNan v w, sameItems_withOneNan vs ws]

theorem sameEntries_withOneNan (es fs : List (Value × Value)) :
    sameEntries (entriesWithOneNan es) (entriesWithOneNan fs) = sameEntries es fs := by
  cases es with
  | nil => rfl
  | cons e rest =>
    have hany : (entriesWithOneNan fs).any (fun f => same e.1.withOneNan f.1 && same e.2.withOneNan f.2) =
        fs.any fun f => same e.1 f.1 && same e.2 f.2 := by
      rw [entriesWithOneNan_eq_map, List.any_map]
      congr 1
      funext f
      exact congrArg₂ _ (same_withOneNan e.1 f.1) (same_withOneNan e.2 f.2)
    rw [entriesWithOneNan, sameEntries, sameEntries, hany, sameEntries_withOneNan rest fs]

end

theorem distinctKeys_withOneNan (es : List (Value × Value)) :
    distinctKeys (entriesWithOneNan es) = distinctKeys es := by
  induction es with
  | nil => rfl
  | cons e rest ih =>
    have hall : (entriesWithOneNan rest).all (fun f => !same e.1.withOneNan f.1) = rest.all fun f => !same e.1 f.1 := by
      rw [entriesWithOneNan_eq_map, List.all_map]
      congr 1
      funext f
      exact congrArg _ (same_withOneNan e.1 f.1)
    rw [entriesWithOneNan, distinctKeys, distinctKeys, hall, ih]

mutual

@[simp] theorem wellFormed_withOneNan (v : Value) : v.withOneNan.wellFormed = v.wellFormed := by
  cases v with
  | sequence items => exact wellFormedItems_withOneNan items
  | mapping entries =>
    rw [withOneNan, wellFormed, wellFormed, distinctKeys_withOneNan, wellFormedEntries_withOneNan entries]
  | tagged t v => exact wellFormed_withOneNan v
  | _ => rfl

theorem wellFormedItems_withOneNan (vs : List Value) :
    wellFormedItems (itemsWithOneNan vs) = wellFormedItems vs := by
  cases vs with
  | nil => rfl
  | cons v rest =>
    rw [itemsWithOneNan, wellFormedItems, wellFormedItems, wellFormed_withOneNan v, wellFormedItems_withOneNan rest]

theorem wellFormedEntries_withOneNan (es : List (Value × Value)) :
    wellFormedEntries (entriesWithOneNan es) = wellFormedEntries es := by
  cases es with
  | nil => rfl
  | cons e rest =>
    rw [entriesWithOneNan, wellFormedEntries, wellFormedEntries, wellFormed_withOneNan e.1,
      wellFormed_withOneNan e.2, wellFormedEntries_withOneNan rest]

end

end Same

end Value

/-! ## Tokens -/

def tagTokens (tag : Option String) : List Token := tag.toList.map tagToken

def LegibleTag (tag : Option String) : Prop := ∀ t ∈ tag, IsLegible t

theorem legibleTag_none : LegibleTag none := by
  simp [LegibleTag]

theorem tagging_tagTokens (tag : Option String) : Tagging standardHandles (tagTokens tag) (tag.map seenTag) := by
  cases tag with
  | none => exact .none
  | some t => exact tagging_tagToken t

theorem localTag_map_seenTag {tag : Option String} (h : LegibleTag tag) : localTag? (tag.map seenTag) = tag := by
  cases tag with
  | none => rfl
  | some t => exact localTag_seenTag (h t rfl)

theorem withTag_seenTag {tag : Option String} (h : LegibleTag tag) (v : Value) :
    withTag (tag.map seenTag) v = v.under tag := by
  rw [withTag, localTag_map_seenTag h]
  cases tag <;> rfl

/-- These tokens, whatever follows, are parsed as a node with this value as its content. -/
def Represents (bare : Bool) (us : List Token) (v : Value) : Prop :=
  ∃ n : Node, ParsesNode standardHandles true bare us (some n.tree) ∧ n.content? = some v ∧ n.depth = v.depth

/-- The items of a sequence, with indentation of their own or in the column of the mapping around them. -/
def RepresentsItems (indented : Bool) (us : List Token) (vs : List Value) : Prop :=
  ∃ ns : List Node,
    (if indented then ParsesItems standardHandles us (some (Node.itemTrees ns))
      else ParsesBareItems standardHandles us (some (Node.itemTrees ns))) ∧
    itemContents? ns = some vs ∧ Node.itemsDepth ns = Value.itemsDepth vs

def RepresentsEntries (us : List Token) (es : List (Value × Value)) : Prop :=
  us.head? ≠ some .blockEntry ∧ ∃ ns : List (Node × Node),
    ParsesEntries standardHandles us (some (Node.entryTrees ns)) ∧ entryContents? ns = some es ∧
      Node.entriesDepth ns = Value.entriesDepth es

theorem depth_scalarValue {form : ScalarForm} {text : String} {v : Value}
    (h : scalarValue? none form text = some v) : v.depth = 0 := by
  simp only [scalarValue?] at h
  split at h
  · generalize meaning text = m at h
    cases m <;> cases h <;> rfl
  · cases h
    rfl

section Nodes

variable {bare : Bool} {tag : Option String} (ht : LegibleTag tag)

include ht

theorem represents_scalar {form : ScalarForm} {text : String} {v : Value} (h : scalarValue? none form text = some v) :
    Represents bare (tagTokens tag ++ [.scalar form text]) (v.under tag) := by
  refine ⟨.scalar (tag.map seenTag) form text, parsesNode_scalar (tagging_tagTokens tag) form text, ?_, ?_⟩
  · have hnone : (if (localTag? (tag.map seenTag)).isSome then none else tag.map seenTag) = none := by
      rw [localTag_map_seenTag ht]
      cases tag <;> rfl
    rw [Node.content?, hnone, h, Option.map_some, withTag_seenTag ht]
  · rw [Value.depth_under, Node.depth, depth_scalarValue h]

theorem represents_emptySequence : Represents bare (tagTokens tag ++ [.flowSequence, .flowSequenceEnd])
    (.under tag (.sequence [])) :=
  ⟨.sequence (tag.map seenTag) [], parsesNode_flowSequence (tagging_tagTokens tag) [] _ (parsesFlowItems_nil true),
    by rw [Node.content?, itemContents?, Option.map_some, withTag_seenTag ht], by rw [Value.depth_under]; rfl⟩

theorem represents_emptyMapping : Represents bare (tagTokens tag ++ [.flowMapping, .flowMappingEnd])
    (.under tag (.mapping [])) :=
  ⟨.mapping (tag.map seenTag) [], parsesNode_flowMapping (tagging_tagTokens tag) [] _ (parsesFlowEntries_nil true),
    by rw [Node.content?, entryContents?, Option.map_some, withTag_seenTag ht], by rw [Value.depth_under]; rfl⟩

theorem represents_sequence {us : List Token} {vs : List Value} (h : RepresentsItems true us vs) :
    Represents bare (tagTokens tag ++ .blockSequence :: (us ++ [.blockEnd])) (.under tag (.sequence vs)) := by
  obtain ⟨ns, hparse, hcontent, hdepth⟩ := h
  refine ⟨.sequence (tag.map seenTag) ns, parsesNode_blockSequence (tagging_tagTokens tag) us _ hparse, ?_, ?_⟩
  · rw [Node.content?, hcontent, Option.map_some, withTag_seenTag ht]
  · rw [Value.depth_under, Node.depth, Value.depth, hdepth]

theorem represents_bareSequence {us : List Token} {vs : List Value} (h : RepresentsItems false (.blockEntry :: us) vs) :
    Represents true (tagTokens tag ++ .blockEntry :: us) (.under tag (.sequence vs)) := by
  obtain ⟨ns, hparse, hcontent, hdepth⟩ := h
  refine ⟨.sequence (tag.map seenTag) ns, parsesNode_bareSequence (tagging_tagTokens tag) us _ hparse, ?_, ?_⟩
  · rw [Node.content?, hcontent, Option.map_some, withTag_seenTag ht]
  · rw [Value.depth_under, Node.depth, Value.depth, hdepth]

theorem represents_mapping {us : List Token} {es : List (Value × Value)} (h : RepresentsEntries us es) :
    Represents bare (tagTokens tag ++ .blockMapping :: (us ++ [.blockEnd])) (.under tag (.mapping es)) := by
  obtain ⟨-, ns, hparse, hcontent, hdepth⟩ := h
  refine ⟨.mapping (tag.map seenTag) ns, parsesNode_blockMapping (tagging_tagTokens tag) us _ hparse, ?_, ?_⟩
  · rw [Node.content?, hcontent, Option.map_some, withTag_seenTag ht]
  · rw [Value.depth_under, Node.depth, Value.depth, hdepth]

end Nodes

section Parts

variable {us ws : List Token} {v : Value}

theorem representsItems_nil (indented : Bool) : RepresentsItems indented [] [] := by
  refine ⟨[], ?_, rfl, rfl⟩
  cases indented with
  | true => exact parsesItems_nil
  | false => exact parsesBareItems_nil

theorem representsItems_cons {indented : Bool} {vs : List Value} (h : Represents false us v)
    (hs : RepresentsItems indented ws vs) : RepresentsItems indented (.blockEntry :: (us ++ ws)) (v :: vs) := by
  obtain ⟨n, hparse, hcontent, hdepth⟩ := h
  obtain ⟨ns, hparses, hcontents, hdepths⟩ := hs
  refine ⟨n :: ns, ?_, by simp [itemContents?, hcontent, hcontents], ?_⟩
  · cases indented with
    | true => exact parsesItems_cons hparse hparses
    | false => exact parsesBareItems_cons hparse hparses
  · rw [Node.itemsDepth, Value.itemsDepth, hdepth, hdepths]

theorem representsEntries_nil : RepresentsEntries [] [] :=
  ⟨by simp, [], parsesEntries_nil, rfl, rfl⟩

theorem representsEntries_cons {ks : List Token} {k : Value} {es : List (Value × Value)} (hk : Represents true ks k)
    (hv : Represents true us v) (hs : RepresentsEntries ws es) :
    RepresentsEntries (.key :: (ks ++ .value :: (us ++ ws))) ((k, v) :: es) := by
  obtain ⟨n, hkey, hname, hnameDepth⟩ := hk
  obtain ⟨m, hvalue, hcontent, hdepth⟩ := hv
  obtain ⟨hstart, ns, hparses, hcontents, hdepths⟩ := hs
  refine ⟨by simp, (n, m) :: ns, parsesEntries_cons hkey hvalue hparses hstart,
    by simp [entryContents?, hname, hcontent, hcontents], ?_⟩
  rw [Node.entriesDepth, Value.entriesDepth, hnameDepth, hdepth, hdepths]

end Parts

/-- A text with such tokens is read as the value, unless it nests too deep or repeats a key. -/
theorem read_of_represents {s : String} {us : List Token} {v : Value} (hs : tokens? s = some us)
    (h : Represents false us v) (hdepth : v.depth ≤ Tree.maxDepth) (hwell : v.wellFormed = true) :
    read? s = some v := by
  obtain ⟨n, hparse, hcontent, hn⟩ := h
  have hnode : Node.read? s = some n := by
    simp only [Node.read?, hs, Option.bind_eq_bind, Option.bind_some, parse_document us _ hparse, Tree.resolve_tree,
      hn, if_pos hdepth]
  simp [read?, hnode, Node.value?, hcontent, hwell]

end CiWorkflow.Yaml
