import CiWorkflow.Proofs.Json.Scan
import CiWorkflow.Proofs.Yaml.Parse
import CiWorkflow.Proofs.Yaml.Resolve
import CiWorkflow.Proofs.Yaml.Value
import CiWorkflow.Yaml.Reader

set_option autoImplicit false

namespace CiWorkflow.Json

open Yaml Render

/-- The node of a name; none if it cannot be read or is not marked as a key. -/
def nameNode? (k : List Char) : Option Node :=
  if isKey k then (reread? k).map fun t => .scalar none .quoted (String.ofList t) else none

mutual

def valueNode? : Value → Option Node
  | .null => some (.scalar none .plain "null")
  | .bool b => some (.scalar none .plain (if b then "true" else "false"))
  | .int n => some (.scalar none .plain (toString n))
  | .float x => some (.scalar none .plain (String.ofList ((floatText? x).getD "null".toList)))
  | .string s => (reread? s.toList).map fun t => .scalar none .quoted (String.ofList t)
  | .sequence items => (itemNodes? items).map (.sequence none)
  | .mapping entries => (entryNodes? entries).map (.mapping none)
  | .tagged .. => none

def itemNodes? : List Value → Option (List Node)
  | [] => some []
  | v :: rest => (valueNode? v).bind fun n => (itemNodes? rest).map (n :: ·)

def entryNodes? : List (Value × Value) → Option (List (Node × Node))
  | [] => some []
  | (.string k, v) :: rest =>
    (nameNode? k.toList).bind fun n => (valueNode? v).bind fun m => (entryNodes? rest).map ((n, m) :: ·)
  | _ => none

end

theorem map_itemNodes {α : Type} (v : Value) (rest : List Value) :
    (itemNodes? (v :: rest)).map (Node.itemTrees : List Node → List (Yaml.Tree α)) =
      ((valueNode? v).map Node.tree).bind fun t => ((itemNodes? rest).map Node.itemTrees).map (t :: ·) := by
  rw [itemNodes?]
  cases valueNode? v <;> cases itemNodes? rest <;> rfl

theorem map_entryNodes {α : Type} (k : String) (v : Value) (rest : List (Value × Value)) :
    (entryNodes? ((.string k, v) :: rest)).map
        (Node.entryTrees : List (Node × Node) → List (Yaml.Tree α × Yaml.Tree α)) =
      (((nameNode? k.toList).bind fun n => (valueNode? v).map (n, ·)).map fun e => (e.1.tree, e.2.tree)).bind
        fun e => ((entryNodes? rest).map Node.entryTrees).map (e :: ·) := by
  rw [entryNodes?]
  cases nameNode? k.toList <;> cases valueNode? v <;> cases entryNodes? rest <;> rfl

section Parts

variable {handles : Handles}

theorem parses_member {k : List Char} {ns ts : List Token} (o : Option Node) (hn : nameTokens? k = some ns)
    (hv : ParsesNode handles false false ts (o.map Node.tree)) :
    ParsesFlowEntry handles (ns ++ ts)
      (((nameNode? k).bind fun n => o.map (n, ·)).map fun e => (e.1.tree, e.2.tree)) := by
  simp only [nameTokens?, stringTokens?, Option.map_map, Option.map_eq_some_iff] at hn
  obtain ⟨t, ht, rfl⟩ := hn
  have hkey : ParsesNode handles false false [.scalar .quoted (String.ofList t)]
      (some (.scalar none none .quoted (String.ofList t))) := parsesNode_scalar .none .quoted _
  cases hk : isKey k
  · have hless : ParsesFlowEntry handles ([.scalar .quoted (String.ofList t)] ++ .value :: ts) none :=
      parsesFlowEntry_keyless hkey
    simpa [hk, nameNode?] using hless
  · have := parsesFlowEntry_keyed hkey hv
    cases o <;> simpa [hk, nameNode?, ht, Node.tree] using this

mutual

theorem parses_value (block bare : Bool) (v : Value) (ts : List Token) (h : valueTokens? v = some ts) :
    ParsesNode handles block bare ts ((valueNode? v).map Node.tree) := by
  match v, h with
  | .null, h => cases h; exact parsesNode_scalar .none _ _
  | .bool b, h => cases h; exact parsesNode_scalar .none _ _
  | .int n, h => cases h; exact parsesNode_scalar .none _ _
  | .float x, h => cases h; exact parsesNode_scalar .none _ _
  | .string s, h =>
    obtain ⟨t, ht, rfl⟩ := Option.map_eq_some_iff.mp h
    rw [valueNode?, ht]
    exact parsesNode_scalar .none _ _
  | .sequence [], h =>
    cases h
    exact parsesNode_flowSequence .none [] _ (parsesFlowItems_nil true)
  | .sequence (v :: rest), h =>
    simp only [valueTokens?_sequence, Option.map_eq_some_iff, Option.bind_eq_some_iff] at h
    obtain ⟨_, ⟨_, ⟨vs, hv, us, hr, rfl⟩, rfl⟩, rfl⟩ := h
    have hitems := parsesFlowItems_cons (parses_value false false v vs hv) (parses_items rest us hr)
    rw [← map_itemNodes] at hitems
    have hnode : ParsesNode handles block bare _ _ := parsesNode_flowSequence .none _ _ hitems
    rw [Option.map_map] at hnode
    rwa [valueNode?, Option.map_map]
  | .mapping [], h =>
    cases h
    exact parsesNode_flowMapping .none [] _ (parsesFlowEntries_nil true)
  | .mapping ((.string k, v) :: rest), h =>
    simp only [valueTokens?_mapping, Option.map_eq_some_iff, Option.bind_eq_some_iff] at h
    obtain ⟨_, ⟨_, ⟨_, ⟨ns, hn, vs, hv, rfl⟩, us, hr, rfl⟩, rfl⟩, rfl⟩ := h
    have hentries := parsesFlowEntries_cons (parses_member _ hn (parses_value false false v vs hv))
      (parses_entries rest us hr)
    rw [← map_entryNodes] at hentries
    have hnode : ParsesNode handles block bare _ _ := parsesNode_flowMapping .none _ _ hentries
    rw [Option.map_map] at hnode
    rwa [valueNode?, Option.map_map]

theorem parses_items (vs : List Value) (us : List Token) (h : itemsTokens? vs = some us) :
    ParsesFlowItems handles false us ((itemNodes? vs).map Node.itemTrees) := by
  match vs, h with
  | [], h =>
    cases h
    exact parsesFlowItems_nil false
  | v :: rest, h =>
    simp only [itemsTokens?_cons, Option.map_eq_some_iff, Option.bind_eq_some_iff] at h
    obtain ⟨_, ⟨vs, hv, us, hr, rfl⟩, rfl⟩ := h
    have hitems := parsesFlowItems_next (parses_value false false v vs hv) (parses_items rest us hr)
    rwa [map_itemNodes]

theorem parses_entries (es : List (Value × Value)) (us : List Token) (h : entriesTokens? es = some us) :
    ParsesFlowEntries handles false us ((entryNodes? es).map Node.entryTrees) := by
  match es, h with
  | [], h =>
    cases h
    exact parsesFlowEntries_nil false
  | (.string k, v) :: rest, h =>
    simp only [entriesTokens?_cons, Option.map_eq_some_iff, Option.bind_eq_some_iff] at h
    obtain ⟨_, ⟨_, ⟨ns, hn, vs, hv, rfl⟩, us, hr, rfl⟩, rfl⟩ := h
    have hentries := parsesFlowEntries_next (parses_member _ hn (parses_value false false v vs hv))
      (parses_entries rest us hr)
    rwa [map_entryNodes]

end

end Parts

def rereadText (s : String) : String := String.ofList ((reread? s.toList).getD [])

theorem content_plain (text : String) : (Node.scalar none .plain text).content? = (meaning text).value? text := by
  have hkeep : (withTag none : Value → Value) = id := rfl
  simp [Node.content?, localTag?, scalarValue?, hkeep]

theorem content_quoted (text : String) : (Node.scalar none .quoted text).content? = some (.string text) := by
  simp [Node.content?, localTag?, scalarValue?, withTag]

theorem content_name (k : String) (n : Node) (h : nameNode? k.toList = some n) :
    n.content? = some (.string (rereadText k)) ∧ n.depth = 0 := by
  unfold nameNode? at h
  split at h
  · obtain ⟨t, ht, rfl⟩ := Option.map_eq_some_iff.mp h
    exact ⟨by rw [content_quoted, rereadText, ht]; rfl, rfl⟩
  · cases h

mutual

/-- What is read from the node of a value: the value with its texts as they are read back. -/
theorem content_value (v : Value) (hd : isData v = true) (hr : v.inRange = true) (n : Node)
    (h : valueNode? v = some n) : n.content? = some (v.mapTexts rereadText) ∧ n.depth = v.depth := by
  match v, hd, hr, h with
  | .null, _, _, h =>
    cases h
    have hnull : meaning "null" = .null := by decide
    exact ⟨by rw [content_plain, hnull]; rfl, rfl⟩
  | .bool b, _, _, h =>
    cases h
    have hbool : meaning (if b then "true" else "false") = .bool b := by cases b <;> decide
    exact ⟨by rw [content_plain, hbool]; rfl, rfl⟩
  | .int k, _, hr, h =>
    cases h
    refine ⟨?_, rfl⟩
    have hrange : -2 ^ 63 ≤ k ∧ k < 2 ^ 64 := by simpa [Value.inRange] using hr
    rw [content_plain, meaning_int k hrange.1 hrange.2]
    rfl
  | .float x, hd, _, h =>
    cases h
    refine ⟨?_, rfl⟩
    match hk : x.kind with
    | .finite negative m q =>
      have htext : floatText? x = some (floatLayout.write x).toList := by rw [floatText?, hk]
      rw [htext, Option.getD_some, String.ofList_toList, content_plain, meaning_float _ rfl x negative m q hk]
      rfl
    | .nan => simp [isData, hk] at hd
    | .infinite _ => simp [isData, hk] at hd
  | .string s, _, _, h =>
    obtain ⟨t, ht, rfl⟩ := Option.map_eq_some_iff.mp h
    exact ⟨by rw [content_quoted, Value.mapTexts, rereadText, ht]; rfl, rfl⟩
  | .sequence items, hd, hr, h =>
    obtain ⟨ns, hns, rfl⟩ := Option.map_eq_some_iff.mp h
    obtain ⟨hc, hdepth⟩ := content_items items hd hr ns hns
    exact ⟨by simp [Node.content?, hc, Value.mapTexts, withTag, localTag?], by simp [Node.depth, Value.depth, hdepth]⟩
  | .mapping entries, hd, hr, h =>
    obtain ⟨ns, hns, rfl⟩ := Option.map_eq_some_iff.mp h
    obtain ⟨hc, hdepth⟩ := content_entries entries hd hr ns hns
    exact ⟨by simp [Node.content?, hc, Value.mapTexts, withTag, localTag?], by simp [Node.depth, Value.depth, hdepth]⟩

theorem content_items (vs : List Value) (hd : areData vs = true) (hr : Value.itemsInRange vs = true)
    (ns : List Node) (h : itemNodes? vs = some ns) :
    itemContents? ns = some (Value.mapItemTexts rereadText vs) ∧ Node.itemsDepth ns = Value.itemsDepth vs := by
  match vs, hd, hr, h with
  | [], _, _, h =>
    cases h
    exact ⟨rfl, rfl⟩
  | v :: rest, hd, hr, h =>
    simp only [areData, Value.itemsInRange, Bool.and_eq_true] at hd hr
    simp only [itemNodes?, Option.bind_eq_some_iff, Option.map_eq_some_iff] at h
    obtain ⟨n, hn, ns, hns, rfl⟩ := h
    obtain ⟨hc, hdepth⟩ := content_value v hd.1 hr.1 n hn
    obtain ⟨hcs, hdepths⟩ := content_items rest hd.2 hr.2 ns hns
    exact ⟨by simp [itemContents?, hc, hcs, Value.mapItemTexts],
      by rw [Node.itemsDepth, Value.itemsDepth, hdepth, hdepths]⟩

theorem content_entries (es : List (Value × Value)) (hd : areNamedData es = true)
    (hr : Value.entriesInRange es = true) (ns : List (Node × Node)) (h : entryNodes? es = some ns) :
    entryContents? ns = some (Value.mapEntryTexts rereadText es) ∧
      Node.entriesDepth ns = Value.entriesDepth es := by
  match es, hd, hr, h with
  | [], _, _, h =>
    cases h
    exact ⟨rfl, rfl⟩
  | (.string k, v) :: rest, hd, hr, h =>
    simp only [areNamedData, Value.entriesInRange, Value.inRange, Bool.true_and, Bool.and_eq_true] at hd hr
    simp only [entryNodes?, Option.bind_eq_some_iff, Option.map_eq_some_iff] at h
    obtain ⟨m, hm, n, hn, ns, hns, rfl⟩ := h
    obtain ⟨hk, hkd⟩ := content_name k m hm
    obtain ⟨hc, hdepth⟩ := content_value v hd.1 hr.1 n hn
    obtain ⟨hcs, hdepths⟩ := content_entries rest hd.2 hr.2 ns hns
    exact ⟨by simp [entryContents?, hk, hc, hcs, Value.mapEntryTexts, Value.mapTexts],
      by simp [Node.entriesDepth, Value.entriesDepth, hkd, hdepth, hdepths, Value.depth]⟩

end

mutual

def names : Value → List String
  | .sequence items => itemNames items
  | .mapping entries => entryNames entries
  | .tagged _ v => names v
  | _ => []

def itemNames : List Value → List String
  | [] => []
  | v :: rest => names v ++ itemNames rest

def entryNames : List (Value × Value) → List String
  | [] => []
  | (.string k, v) :: rest => k :: (names v ++ entryNames rest)
  | (k, v) :: rest => names k ++ names v ++ entryNames rest

end

theorem isSome_nameNode (k : List Char) :
    (nameNode? k).isSome = true ↔ (reread? k).isSome = true ∧ isKey k = true := by
  unfold nameNode?
  by_cases hk : isKey k = true <;> simp [hk]

theorem isSome_both {α β γ : Type} (o : Option α) (o' : Option β) (f : α → β → γ) :
    (o.bind fun a => o'.map (f a)).isSome = true ↔ o.isSome = true ∧ o'.isSome = true := by
  cases o <;> cases o' <;> simp

mutual

/-- A value has a node when all its texts can be read and all its names are keys. -/
theorem isSome_valueNode (v : Value) (hd : isData v = true) : (valueNode? v).isSome = true ↔
    (∀ s ∈ texts v, (reread? s.toList).isSome = true) ∧ ∀ k ∈ names v, isKey k.toList = true := by
  match v, hd with
  | .null, _ | .bool _, _ | .int _, _ | .float _, _ => simp [valueNode?, texts, names]
  | .string s, _ => simp [valueNode?, texts, names]
  | .sequence items, hd => simpa [valueNode?, texts, names] using isSome_itemNodes items hd
  | .mapping entries, hd => simpa [valueNode?, texts, names] using isSome_entryNodes entries hd

theorem isSome_itemNodes (vs : List Value) (hd : areData vs = true) : (itemNodes? vs).isSome = true ↔
    (∀ s ∈ itemTexts vs, (reread? s.toList).isSome = true) ∧ ∀ k ∈ itemNames vs, isKey k.toList = true := by
  match vs, hd with
  | [], _ => simp [itemNodes?, itemTexts, itemNames]
  | v :: rest, hd =>
    simp only [areData, Bool.and_eq_true] at hd
    have hv := isSome_valueNode v hd.1
    have hr := isSome_itemNodes rest hd.2
    rw [itemNodes?, isSome_both, hv, hr, itemTexts, itemNames, List.forall_mem_append, List.forall_mem_append]
    exact and_and_and_comm

theorem isSome_entryNodes (es : List (Value × Value)) (hd : areNamedData es = true) :
    (entryNodes? es).isSome = true ↔ (∀ s ∈ entryTexts es, (reread? s.toList).isSome = true) ∧
      ∀ k ∈ entryNames es, isKey k.toList = true := by
  match es, hd with
  | [], _ => simp [entryNodes?, entryTexts, entryNames]
  | (.string k, v) :: rest, hd =>
    simp only [areNamedData, Bool.and_eq_true] at hd
    have hk := isSome_nameNode k.toList
    have hv := isSome_valueNode v hd.1
    have hr := isSome_entryNodes rest hd.2
    have hinner : (entryNodes? ((.string k, v) :: rest)).isSome = true ↔ (nameNode? k.toList).isSome = true ∧
        (valueNode? v).isSome = true ∧ (entryNodes? rest).isSome = true := by
      rw [entryNodes?]
      cases nameNode? k.toList <;> cases valueNode? v <;> simp
    simp only [hinner, hk, hv, hr, entryTexts, entryNames, texts, List.forall_mem_append, List.forall_mem_cons,
      List.singleton_append]
    tauto

end

theorem exists_nameTokens (k : List Char) (n : Node) (h : nameNode? k = some n) :
    ∃ ts, nameTokens? k = some ts := by
  unfold nameNode? at h
  split at h
  · obtain ⟨t, ht, -⟩ := Option.map_eq_some_iff.mp h
    exact ⟨_, by rw [nameTokens?, stringTokens?, ht]; rfl⟩
  · cases h

mutual

theorem exists_valueTokens (v : Value) (n : Node) (h : valueNode? v = some n) :
    ∃ ts, valueTokens? v = some ts := by
  match v, h with
  | .null, _ | .bool _, _ | .int _, _ | .float _, _ | .sequence [], _ | .mapping [], _ => exact ⟨_, rfl⟩
  | .string s, h =>
    obtain ⟨t, ht, -⟩ := Option.map_eq_some_iff.mp h
    exact ⟨_, by rw [valueTokens?, stringTokens?, ht]; rfl⟩
  | .sequence (v :: rest), h =>
    obtain ⟨ns, hns, -⟩ := Option.map_eq_some_iff.mp h
    simp only [itemNodes?, Option.bind_eq_some_iff, Option.map_eq_some_iff] at hns
    obtain ⟨n, hn, ns, hns, -⟩ := hns
    obtain ⟨ts, hts⟩ := exists_valueTokens v n hn
    obtain ⟨us, hus⟩ := exists_itemsTokens rest ns hns
    exact ⟨_, by rw [valueTokens?_sequence, hts, hus]; rfl⟩
  | .mapping ((.string k, v) :: rest), h =>
    obtain ⟨ns, hns, -⟩ := Option.map_eq_some_iff.mp h
    simp only [entryNodes?, Option.bind_eq_some_iff, Option.map_eq_some_iff] at hns
    obtain ⟨m, hm, n, hn, ns, hns, -⟩ := hns
    obtain ⟨ms, hms⟩ := exists_nameTokens k.toList m hm
    obtain ⟨ts, hts⟩ := exists_valueTokens v n hn
    obtain ⟨us, hus⟩ := exists_entriesTokens rest ns hns
    exact ⟨_, by rw [valueTokens?_mapping, hms, hts, hus]; rfl⟩

theorem exists_itemsTokens (vs : List Value) (ns : List Node) (h : itemNodes? vs = some ns) :
    ∃ us, itemsTokens? vs = some us := by
  match vs, h with
  | [], _ => exact ⟨_, rfl⟩
  | v :: rest, h =>
    simp only [itemNodes?, Option.bind_eq_some_iff, Option.map_eq_some_iff] at h
    obtain ⟨n, hn, ns, hns, -⟩ := h
    obtain ⟨ts, hts⟩ := exists_valueTokens v n hn
    obtain ⟨us, hus⟩ := exists_itemsTokens rest ns hns
    exact ⟨_, by rw [itemsTokens?_cons, hts, hus]; rfl⟩

theorem exists_entriesTokens (es : List (Value × Value)) (ns : List (Node × Node))
    (h : entryNodes? es = some ns) : ∃ us, entriesTokens? es = some us := by
  match es, h with
  | [], _ => exact ⟨_, rfl⟩
  | (.string k, v) :: rest, h =>
    simp only [entryNodes?, Option.bind_eq_some_iff, Option.map_eq_some_iff] at h
    obtain ⟨m, hm, n, hn, ns, hns, -⟩ := h
    obtain ⟨ms, hms⟩ := exists_nameTokens k.toList m hm
    obtain ⟨ts, hts⟩ := exists_valueTokens v n hn
    obtain ⟨us, hus⟩ := exists_entriesTokens rest ns hns
    exact ⟨_, by rw [entriesTokens?_cons, hms, hts, hus]; rfl⟩

end

end CiWorkflow.Json
