import CiWorkflow.Proofs.Yaml.FedWord
import CiWorkflow.Proofs.Yaml.FinalFeed
import CiWorkflow.Proofs.Yaml.Leaves
import CiWorkflow.Proofs.Yaml.MapNode
import CiWorkflow.Proofs.Yaml.Same

set_option autoImplicit false

namespace CiWorkflow.Yaml

/-- The second texts are the first ones, or those with a line feed more where the scalar is not plain. -/
def Lengthens (f g : ScalarForm → String → String) : Prop :=
  ∀ form text, g form text = f form text ∨ form ≠ .plain ∧ g form text = f form text ++ "\n"

namespace Node

/-- The nodes differ in texts that have a line feed more in the second one, and there is such a text. -/
def Grows (n n' : Node) : Prop :=
  ∃ m f g, Lengthens f g ∧ n = mapText f m ∧ n' = mapText g m ∧ ∃ l ∈ m.leaves, g l.1 l.2 ≠ f l.1 l.2

section Content

variable {f g : ScalarForm → String → String}

def growing (f g : ScalarForm → String → String) (ls : List (ScalarForm × String)) : Nat :=
  ls.countP fun l => g l.1 l.2 ≠ f l.1 l.2

theorem growing_append (ls ms : List (ScalarForm × String)) :
    growing f g (ls ++ ms) = growing f g ls + growing f g ms := List.countP_append

theorem textLength_withTag (tag : Option String) (v : Value) : (withTag tag v).textLength = v.textLength := by
  unfold withTag
  split <;> rfl

theorem exists_scalarValue (h : Lengthens f g) {tag : Option String} {form : ScalarForm} {text : String} {w : Value}
    (hw : scalarValue? tag form (g form text) = some w) :
    ∃ v, scalarValue? tag form (f form text) = some v ∧ w.textLength = v.textLength + growing f g (leaf form text) := by
  obtain heq | ⟨hform, heq⟩ := h form text
  · refine ⟨w, heq ▸ hw, ?_⟩
    unfold growing leaf
    split <;> simp [heq]
  · rw [heq] at hw
    obtain ⟨rfl, hv⟩ := scalarValue_feed hform hw
    refine ⟨_, hv, ?_⟩
    have hne : f form text ++ "\n" ≠ f form text := by
      intro hfed
      have hlength := congrArg String.length hfed
      simp at hlength
    simp [growing, leaf, hform, heq, hne, Value.textLength, show "\n".length = 1 from rfl]

mutual

theorem exists_content (h : Lengthens f g) (m : Node) {w : Value} (hw : (m.mapText g).content? = some w) :
    ∃ v, (m.mapText f).content? = some v ∧ w.textLength = v.textLength + growing f g m.leaves := by
  cases m with
  | scalar tag form text =>
    simp only [mapText, content?, Option.map_eq_some_iff] at hw ⊢
    obtain ⟨u, hu, rfl⟩ := hw
    obtain ⟨v, hv, hlength⟩ := exists_scalarValue h hu
    exact ⟨_, ⟨v, hv, rfl⟩, by rw [textLength_withTag, textLength_withTag, hlength, leaves]⟩
  | sequence tag items =>
    simp only [mapText, content?, Option.map_eq_some_iff] at hw ⊢
    obtain ⟨us, hus, rfl⟩ := hw
    obtain ⟨vs, hvs, hlength⟩ := exists_itemContents h items hus
    exact ⟨_, ⟨vs, hvs, rfl⟩, by rw [textLength_withTag, textLength_withTag]; exact hlength⟩
  | mapping tag entries =>
    simp only [mapText, content?, Option.map_eq_some_iff] at hw ⊢
    obtain ⟨us, hus, rfl⟩ := hw
    obtain ⟨vs, hvs, hlength⟩ := exists_entryContents h entries hus
    exact ⟨_, ⟨vs, hvs, rfl⟩, by rw [textLength_withTag, textLength_withTag]; exact hlength⟩

theorem exists_itemContents (h : Lengthens f g) (ms : List Node) {ws : List Value}
    (hws : itemContents? (mapItems g ms) = some ws) :
    ∃ vs, itemContents? (mapItems f ms) = some vs ∧
      Value.itemLength ws = Value.itemLength vs + growing f g (itemLeaves ms) := by
  cases ms with
  | nil =>
    cases hws
    exact ⟨[], rfl, rfl⟩
  | cons m rest =>
    simp only [mapItems, itemContents?, Option.bind_eq_bind, Option.bind_eq_some_iff] at hws
    obtain ⟨w, hw, ws, hws, hcons⟩ := hws
    cases hcons
    obtain ⟨v, hv, hlength⟩ := exists_content h m hw
    obtain ⟨vs, hvs, hlengths⟩ := exists_itemContents h rest hws
    refine ⟨v :: vs, by simp [mapItems, itemContents?, hv, hvs], ?_⟩
    rw [itemLeaves, growing_append, Value.itemLength, Value.itemLength, hlength, hlengths]
    omega

theorem exists_entryContents (h : Lengthens f g) (es : List (Node × Node)) {ws : List (Value × Value)}
    (hws : entryContents? (mapEntries g es) = some ws) :
    ∃ vs, entryContents? (mapEntries f es) = some vs ∧
      Value.entryLength ws = Value.entryLength vs + growing f g (entryLeaves es) := by
  cases es with
  | nil =>
    cases hws
    exact ⟨[], rfl, rfl⟩
  | cons e rest =>
    simp only [mapEntries, entryContents?, Option.bind_eq_bind, Option.bind_eq_some_iff] at hws
    obtain ⟨k, hk, w, hw, ws, hws, hcons⟩ := hws
    cases hcons
    obtain ⟨k', hk', hkey⟩ := exists_content h e.1 hk
    obtain ⟨v, hv, hvalue⟩ := exists_content h e.2 hw
    obtain ⟨vs, hvs, hlengths⟩ := exists_entryContents h rest hws
    refine ⟨(k', v) :: vs, by simp [mapEntries, entryContents?, hk', hv, hvs], ?_⟩
    rw [entryLeaves, growing_append, growing_append, Value.entryLength, Value.entryLength, hkey, hvalue, hlengths]
    omega

end

end Content

/-- What has a content with the line feed has one without it, and with it the content is longer. -/
theorem Grows.content {n n' : Node} (h : Grows n n') {w : Value} (hw : n'.content? = some w) :
    ∃ v, n.content? = some v ∧ v.textLength < w.textLength := by
  obtain ⟨m, f, g, hfg, rfl, rfl, l, hl, hgrows⟩ := h
  obtain ⟨v, hv, hlength⟩ := exists_content hfg m hw
  have hpos : 0 < growing f g m.leaves := List.countP_pos_iff.mpr ⟨l, hl, by simpa using hgrows⟩
  exact ⟨v, hv, by omega⟩

def ofTokens? (ts : List Token) : Option Node := (parse? ts).bind Tree.resolve?

theorem read_eq (s : String) : read? s = (tokens? s).bind ofTokens? := rfl

theorem ofTokens_mapText {f : ScalarForm → String → String} (hf : ∀ form, f form "" = "") (ts : List Token) :
    ofTokens? (ts.map (Token.mapText f)) = (ofTokens? ts).map (mapText f) := by
  rw [ofTokens?, parse_mapText hf]
  unfold ofTokens?
  cases parse? ts with
  | none => rfl
  | some t => exact Tree.resolve_mapText f t

theorem leaves_of_tokens {ts : List Token} {n : Node} (h : ofTokens? ts = some n) :
    ts.flatMap Token.leaves ⊆ n.leaves := by
  obtain ⟨t, ht, hn⟩ := Option.bind_eq_some_iff.mp h
  rw [← leaves_of_parse ht]
  exact Tree.leaves_subset_resolve hn

end Node

/-! ## Labels

To tell the one text that grows from all others, each text gets a character in front of it. -/

def unlabelled (_ : ScalarForm) (text : String) : String := String.ofList (text.toList.drop 1)

/-- The text behind its label, with a line feed more if the label asks for one. -/
def grownLabel (form : ScalarForm) (text : String) : String :=
  if form ≠ .plain ∧ text.toList.head? = some '+' then unlabelled form text ++ "\n" else unlabelled form text

def keptLabel (_ : ScalarForm) (text : String) : String := String.ofList ('=' :: text.toList)

theorem lengthens_label : Lengthens unlabelled grownLabel := by
  intro form text
  unfold grownLabel
  split
  · rename_i h
    exact .inr ⟨h.1, rfl⟩
  · exact .inl rfl

theorem map_keptLabel {f : ScalarForm → String → String} (hf : ∀ form text, f form (keptLabel form text) = text)
    (ts : List Token) : (ts.map (Token.mapText keptLabel)).map (Token.mapText f) = ts := by
  have htoken (t : Token) : (t.mapText keptLabel).mapText f = t := by
    cases t with
    | scalar form text => simp [Token.mapText, hf]
    | _ => rfl
  simp [List.map_map, Function.comp_def, htoken]

theorem Scanner.LastGrows.node {ts ts' : List Token} (h : Scanner.LastGrows ts ts') :
    Option.Rel Node.Grows (Node.ofTokens? ts) (Node.ofTokens? ts') := by
  obtain ⟨front, form, text, back, hform, rfl, rfl⟩ := h
  have hkept := map_keptLabel (f := unlabelled) (by simp [unlabelled, keptLabel])
  have hgrown := map_keptLabel (f := grownLabel) (by simp [grownLabel, unlabelled, keptLabel])
  have hlabel := Node.ofTokens_mapText (f := unlabelled) (fun _ => rfl)
  have hlabel' := Node.ofTokens_mapText (f := grownLabel) (fun _ => by simp [grownLabel, unlabelled])
  let labelled := front.map (Token.mapText keptLabel) ++
    .scalar form (String.ofList ('+' :: text)) :: back.map (Token.mapText keptLabel)
  have hts : front ++ .scalar form (String.ofList text) :: back = labelled.map (Token.mapText unlabelled) := by
    simp only [labelled, List.map_append, List.map_cons, hkept, Token.mapText]
    simp [unlabelled]
  have hts' : front ++ .scalar form (String.ofList (text ++ ['\n'])) :: back =
      labelled.map (Token.mapText grownLabel) := by
    simp only [labelled, List.map_append, List.map_cons, hgrown, Token.mapText]
    simp [grownLabel, unlabelled, hform]
  rw [hts, hts', hlabel, hlabel']
  cases hnode : Node.ofTokens? labelled with
  | none => exact .none
  | some m =>
    let l : ScalarForm × String := (form, String.ofList ('+' :: text))
    have hl : l ∈ m.leaves := by
      refine Node.leaves_of_tokens hnode (List.mem_flatMap.mpr ⟨.scalar form (String.ofList ('+' :: text)), ?_, ?_⟩)
      · simp [labelled]
      · simp [l, Token.leaves, leaf, hform]
    refine .some ⟨m, _, _, lengthens_label, rfl, rfl, l, hl, fun heq => ?_⟩
    have hlength := congrArg String.length heq
    simp [l, grownLabel, unlabelled, hform] at hlength

/-- With a line feed more the same node is read, unless the text ends inside a block that grows. -/
theorem read_feed (s : String) :
    (¬ EndsInBlock s → Node.read? (s ++ "\n") = Node.read? s) ∧
      (EndsInBlock s → Option.Rel Node.Grows (Node.read? s) (Node.read? (s ++ "\n"))) := by
  simp only [Node.read_eq]
  refine ⟨fun h => by rw [(tokens_feed s).1 h], fun h => ?_⟩
  have hrel := (tokens_feed s).2 h
  generalize tokens? s = o at hrel ⊢
  generalize tokens? (s ++ "\n") = o' at hrel ⊢
  cases hrel with
  | none => exact .none
  | some hgrows => exact hgrows.node

end CiWorkflow.Yaml
