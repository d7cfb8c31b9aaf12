import CiWorkflow.Proofs.Yaml.Parse

set_option autoImplicit false

namespace CiWorkflow.Yaml

/-- Results stay; only a failure may become a result. -/
def Refines {α : Type} (o o' : Option α) : Prop := ∀ a, o = some a → o' = some a

namespace Refines

variable {α β : Type}

theorem refl (o : Option α) : Refines o o := fun _ h => h

theorem none (o : Option α) : Refines .none o := by
  intro a h
  cases h

theorem bind {o o' : Option α} {f g : α → Option β} (h : Refines o o') (hf : ∀ a, Refines (f a) (g a)) :
    Refines (o.bind f) (o'.bind g) := by
  intro b hb
  obtain ⟨a, ha, hfa⟩ := Option.bind_eq_some_iff.mp hb
  rw [h a ha]
  exact hf a b hfa

theorem map {o o' : Option α} (h : Refines o o') (f : α → β) : Refines (o.map f) (o'.map f) := by
  intro b hb
  obtain ⟨a, ha, rfl⟩ := Option.map_eq_some_iff.mp hb
  rw [h a ha]
  rfl

theorem ite {p : Prop} [Decidable p] {a a' b b' : Option α} (ha : Refines a a') (hb : Refines b b') :
    Refines (if p then a else b) (if p then a' else b') := by
  by_cases hp : p
  · simpa [hp] using ha
  · simpa [hp] using hb

end Refines

def Handles.Extend (handles handles' : Handles) : Prop := ∀ h, Refines (handles.lookup h) (handles'.lookup h)

variable {handles handles' : Handles}

theorem Handles.Extend.fullTag (h : handles.Extend handles') (handle suffix : String) :
    Refines (fullTag? handles handle suffix) (fullTag? handles' handle suffix) := by
  unfold fullTag?
  refine .ite (.refl _) ?_
  intro full hfull
  obtain ⟨lead, hlead, rfl⟩ := Option.map_eq_some_iff.mp hfull
  rw [h handle lead hlead]
  rfl

theorem Handles.Extend.readProperties (h : handles.Extend handles') (ts : List Token) :
    Refines (readProperties? handles ts) (readProperties? handles' ts) := by
  unfold readProperties?
  split
  · exact (h.fullTag _ _).map _
  · exact .refl _
  · exact (h.fullTag _ _).map _
  · exact (h.fullTag _ _).map _
  · exact .refl _

/-- Each parser with `n` of fuel and the first handles is refined by the one with `n'` and the second. -/
structure ParsersRefine (handles handles' : Handles) (n n' : Nat) : Prop where
  node : ∀ block bare ts, Refines (parseNode handles block bare n ts) (parseNode handles' block bare n' ts)
  optional : ∀ block bare stops ts,
    Refines (parseOptional handles block bare stops n ts) (parseOptional handles' block bare stops n' ts)
  items : ∀ indented ts, Refines (parseItems handles indented n ts) (parseItems handles' indented n' ts)
  value : ∀ ts, Refines (parseValue handles n ts) (parseValue handles' n' ts)
  entries : ∀ ts, Refines (parseEntries handles n ts) (parseEntries handles' n' ts)
  flowValue : ∀ close ts, Refines (parseFlowValue handles close n ts) (parseFlowValue handles' close n' ts)
  pair : ∀ ts, Refines (parsePair handles n ts) (parsePair handles' n' ts)
  flowItem : ∀ ts, Refines (parseFlowItem handles n ts) (parseFlowItem handles' n' ts)
  flowItems : ∀ first ts, Refines (parseFlowItems handles first n ts) (parseFlowItems handles' first n' ts)
  flowEntry : ∀ ts, Refines (parseFlowEntry handles n ts) (parseFlowEntry handles' n' ts)
  flowEntries : ∀ first ts, Refines (parseFlowEntries handles first n ts) (parseFlowEntries handles' first n' ts)

section Step

variable {n n' : Nat} (h : ParsersRefine handles handles' n n')

include h

theorem refines_optional (block bare : Bool) (stops ts : List Token) :
    Refines (parseOptional handles block bare stops (n + 1) ts)
      (parseOptional handles' block bare stops (n' + 1) ts) := by
  rw [parseOptional, parseOptional]
  exact .ite (.refl _) (h.node block bare ts)

theorem refines_items (indented : Bool) (ts : List Token) :
    Refines (parseItems handles indented (n + 1) ts) (parseItems handles' indented (n' + 1) ts) := by
  cases ts with
  | nil => exact .refl _
  | cons t rest =>
    cases t with
    | blockEntry =>
      rw [parseItems, parseItems]
      exact (h.optional _ _ _ _).bind fun r => (h.items _ _).bind fun _ => .refl _
    | _ => exact .refl _

theorem refines_value (ts : List Token) :
    Refines (parseValue handles (n + 1) ts) (parseValue handles' (n' + 1) ts) := by
  cases ts with
  | nil => exact .refl _
  | cons t rest =>
    cases t with
    | value =>
      rw [parseValue, parseValue]
      exact h.optional _ _ _ _
    | _ => exact .refl _

theorem refines_entries (ts : List Token) :
    Refines (parseEntries handles (n + 1) ts) (parseEntries handles' (n' + 1) ts) := by
  cases ts with
  | nil => exact .refl _
  | cons t rest =>
    cases t with
    | key =>
      rw [parseEntries, parseEntries]
      exact (h.optional _ _ _ _).bind fun _ => (h.value _).bind fun _ => (h.entries _).bind fun _ => .refl _
    | _ => exact .refl _

theorem refines_flowValue (close : Token) (ts : List Token) :
    Refines (parseFlowValue handles close (n + 1) ts) (parseFlowValue handles' close (n' + 1) ts) := by
  cases ts with
  | nil => exact .refl _
  | cons t rest =>
    cases t with
    | value =>
      rw [parseFlowValue, parseFlowValue]
      exact h.optional _ _ _ _
    | _ => exact .refl _

theorem refines_pair (ts : List Token) :
    Refines (parsePair handles (n + 1) ts) (parsePair handles' (n' + 1) ts) := by
  rw [parsePair, parsePair]
  split
  · exact (h.flowValue _ _).bind fun _ => .refl _
  · exact (h.node _ _ _).bind fun _ => (h.flowValue _ _).bind fun _ => .refl _

theorem refines_flowItem (ts : List Token) :
    Refines (parseFlowItem handles (n + 1) ts) (parseFlowItem handles' (n' + 1) ts) := by
  cases ts with
  | nil => exact h.node _ _ _
  | cons t rest =>
    cases t with
    | key =>
      rw [parseFlowItem, parseFlowItem]
      exact (h.pair _).bind fun _ => .refl _
    | _ => exact h.node _ _ _

theorem refines_flowItems (first : Bool) (ts : List Token) :
    Refines (parseFlowItems handles first (n + 1) ts) (parseFlowItems handles' first (n' + 1) ts) := by
  have hnext (ts : List Token) := (h.flowItem ts).bind (fun r => (h.flowItems false r.2).bind fun s =>
    Refines.refl (some (r.1 :: s.1, s.2)))
  cases first with
  | true =>
    cases ts with
    | nil => exact hnext []
    | cons t rest =>
      cases t with
      | flowSequenceEnd => exact .refl _
      | _ => exact hnext _
  | false =>
    cases ts with
    | nil => exact .refl _
    | cons t rest =>
      cases t with
      | flowEntry =>
        cases rest with
        | nil => exact hnext []
        | cons t rest =>
          cases t with
          | flowSequenceEnd => exact .refl _
          | _ => exact hnext _
      | _ => exact .refl _

theorem refines_flowEntry (ts : List Token) :
    Refines (parseFlowEntry handles (n + 1) ts) (parseFlowEntry handles' (n' + 1) ts) := by
  cases ts with
  | nil => exact (h.node _ _ _).bind fun _ => .refl _
  | cons t rest =>
    cases t with
    | key =>
      rw [parseFlowEntry, parseFlowEntry]
      exact (h.optional _ _ _ _).bind fun _ => (h.flowValue _ _).bind fun _ => .refl _
    | _ => exact (h.node _ _ _).bind fun _ => .refl _

theorem refines_flowEntries (first : Bool) (ts : List Token) :
    Refines (parseFlowEntries handles first (n + 1) ts) (parseFlowEntries handles' first (n' + 1) ts) := by
  have hnext (ts : List Token) := (h.flowEntry ts).bind (fun r => (h.flowEntries false r.2).bind fun s =>
    Refines.refl (some (r.1 :: s.1, s.2)))
  cases first with
  | true =>
    cases ts with
    | nil => exact hnext []
    | cons t rest =>
      cases t with
      | flowMappingEnd => exact .refl _
      | _ => exact hnext _
  | false =>
    cases ts with
    | nil => exact .refl _
    | cons t rest =>
      cases t with
      | flowEntry =>
        cases rest with
        | nil => exact hnext []
        | cons t rest =>
          cases t with
          | flowMappingEnd => exact .refl _
          | _ => exact hnext _
      | _ => exact .refl _

theorem refines_node (hh : handles.Extend handles') (block bare : Bool) (ts : List Token) :
    Refines (parseNode handles block bare (n + 1) ts) (parseNode handles' block bare (n' + 1) ts) := by
  by_cases halias : ∃ name rest, ts = .alias name :: rest
  · obtain ⟨name, rest, rfl⟩ := halias
    exact .refl _
  have hne : ∀ name rest, ts ≠ .alias name :: rest := fun name rest he => halias ⟨name, rest, he⟩
  rw [parseNode_eq n ts hne, parseNode_eq n' ts hne]
  refine (hh.readProperties ts).bind ?_
  rintro ⟨p, ts⟩
  cases ts with
  | nil => exact .refl _
  | cons t rest =>
    cases t with
    | scalar => exact .refl _
    | flowSequence => exact (h.flowItems _ _).bind fun _ => .refl _
    | flowMapping => exact (h.flowEntries _ _).bind fun _ => .refl _
    | _ =>
      dsimp only
      exact .ite ((h.items _ _).bind fun _ => .refl _) (.ite ((h.items _ _).bind fun _ => .refl _)
        (.ite ((h.entries _).bind fun _ => .refl _) (.refl _)))

end Step

theorem parsersRefine (hh : handles.Extend handles') (n n' : Nat) (hn : n ≤ n') :
    ParsersRefine handles handles' n n' := by
  induction n generalizing n' with
  | zero =>
    constructor <;> (intros; exact .none _)
  | succ n ih =>
    obtain ⟨n', rfl⟩ : ∃ k, n' = k + 1 := ⟨n' - 1, by omega⟩
    have h := ih n' (by omega)
    exact ⟨refines_node h hh, refines_optional h, refines_items h, refines_value h, refines_entries h,
      refines_flowValue h, refines_pair h, refines_flowItem h, refines_flowItems h, refines_flowEntry h,
      refines_flowEntries h⟩

def marksStart : List Token → Bool
  | .version .. :: _ => true
  | .tagHandle .. :: _ => true
  | .documentStart :: _ => true
  | _ => false

theorem lookup_cons_of_ne {h handle : String} (lead : String) (handles : Handles) (hne : handle ≠ h) :
    List.lookup handle ((h, lead) :: handles) = handles.lookup handle := by
  have hbeq : (handle == h) = false := by simpa using hne
  rw [List.lookup_cons, hbeq]

theorem lookup_append_of_none {h : String} {handles : Handles} (others : Handles)
    (hnone : handles.lookup h = none) :
    (handles ++ others).lookup h = others.lookup h := by
  induction handles with
  | nil => rfl
  | cons e handles ih =>
    obtain ⟨handle, lead⟩ := e
    by_cases hne : h = handle
    · simp [hne] at hnone
    · rw [List.cons_append, lookup_cons_of_ne lead _ hne]
      rw [lookup_cons_of_ne lead _ hne] at hnone
      exact ih hnone

theorem readDirectives_further {h : String} (lead : String) {version : Bool} {handles handles' : Handles}
    {ts rest : List Token} (hfresh : ∀ l, .tagHandle h l ∉ ts) (hnone : handles.lookup h = none)
    (hr : readDirectives? version handles ts = some (handles', rest)) :
    readDirectives? version ((h, lead) :: handles) ts = some ((h, lead) :: handles', rest) ∧
      handles'.lookup h = none := by
  induction ts generalizing version handles with
  | nil =>
    cases hr
    exact ⟨rfl, hnone⟩
  | cons t ts ih =>
    have hfresh' : ∀ l, .tagHandle h l ∉ ts := fun l hl => hfresh l (by simp [hl])
    cases t with
    | version major minor =>
      rw [readDirectives?] at hr ⊢
      split at hr
      · cases hr
      · rename_i hversion
        rw [if_neg hversion]
        exact ih hfresh' hnone hr
    | tagHandle handle l =>
      have hne : handle ≠ h := by
        rintro rfl
        exact hfresh l (by simp)
      rw [readDirectives?] at hr ⊢
      rw [lookup_cons_of_ne lead handles hne]
      split at hr
      · cases hr
      · rename_i hlookup
        rw [if_neg hlookup]
        have hnone' : (handles ++ [(handle, l)]).lookup h = none := by
          rw [lookup_append_of_none _ hnone, lookup_cons_of_ne l [] hne.symm]
          rfl
        exact ih hfresh' hnone' hr
    | _ =>
      cases hr
      exact ⟨rfl, hnone⟩

theorem extend_further {h : String} {handles : Handles} (lead : String) (hnone : handles.lookup h = none) :
    handles.Extend ((h, lead) :: handles) := by
  intro handle l hl
  have hne : handle ≠ h := by
    rintro rfl
    rw [hnone] at hl
    cases hl
  rw [lookup_cons_of_ne lead handles hne]
  exact hl

/-- Behind its directives a document with a marked start goes on with the marker. -/
theorem exists_documentStart {fuel : Nat} {ts rest : List Token} {handles : Handles}
    {r : Tree String × List Token} (hm : marksStart ts = true) (hd : readDirectives? false [] ts = some (handles, rest))
    (hp : parseDocument fuel ts = some r) :
    ∃ behind, rest = .documentStart :: behind ∧
      (if atDocumentEnd behind then some (.empty, behind)
        else parseNode (handles ++ standardHandles) true false fuel behind) = some r := by
  rw [parseDocument, hd] at hp
  simp only [Option.bind_eq_bind, Option.bind_some] at hp
  split at hp
  · cases hm
  · exact ⟨_, rfl, hp⟩
  · cases hp
  · cases hp
  · rename_i hversion hhandle hstart
    cases ts with
    | nil => cases hm
    | cons t ts =>
      cases t with
      | version major minor => exact absurd rfl (hversion major minor ts)
      | tagHandle handle lead => exact absurd rfl (hhandle handle lead ts)
      | documentStart =>
        cases hd
        exact absurd rfl (hstart ts)
      | _ => cases hm

theorem parseDocument_behind_handle {h : String} (lead : String) {fuel fuel' : Nat} {ts : List Token}
    {r : Tree String × List Token} (hfresh : ∀ l, .tagHandle h l ∉ ts)
    (hstandard : standardHandles.lookup h = none) (hle : fuel ≤ fuel') (hp : parseDocument fuel ts = some r) :
    parseDocument fuel' (.tagHandle h lead :: (if marksStart ts then ts else .documentStart :: ts)) = some r := by
  by_cases hm : marksStart ts = true
  · obtain ⟨⟨handles, rest⟩, hd, -⟩ := Option.bind_eq_some_iff.mp hp
    obtain ⟨behind, rfl, hnode⟩ := exists_documentStart hm hd hp
    obtain ⟨hd', hnone⟩ := readDirectives_further lead hfresh rfl hd
    have hextend : (handles ++ standardHandles).Extend ((h, lead) :: handles ++ standardHandles) :=
      extend_further lead ((lookup_append_of_none _ hnone).trans hstandard)
    have hfurther : readDirectives? false [] (.tagHandle h lead :: ts) =
        some ((h, lead) :: handles, .documentStart :: behind) := hd'
    rw [if_pos hm, parseDocument, hfurther]
    exact Refines.ite (.refl _) ((parsersRefine hextend fuel fuel' hle).node true false behind) r hnode
  · rw [if_neg hm]
    cases ts with
    | nil =>
      cases hp
      rfl
    | cons t ts =>
      have hextend : standardHandles.Extend ((h, lead) :: standardHandles) := extend_further lead hstandard
      have hrefines := (parsersRefine hextend fuel fuel' hle).node true false (t :: ts) r
      cases t with
      | version => exact absurd rfl hm
      | tagHandle => exact absurd rfl hm
      | documentStart => exact absurd rfl hm
      | documentEnd => cases fuel <;> cases hp
      | _ => exact hrefines hp

theorem parse_behind_handle {h : String} (lead : String) {ts : List Token} {t : Tree String}
    (hfresh : ∀ l, .tagHandle h l ∉ ts) (hstandard : standardHandles.lookup h = none)
    (hp : parse? ts = some t) :
    parse? (.tagHandle h lead :: (if marksStart ts then ts else .documentStart :: ts)) = some t := by
  obtain ⟨⟨root, rest⟩, hdocument, hrest⟩ := Option.bind_eq_some_iff.mp hp
  have hle : 4 * ts.length + 4 ≤
      4 * (Token.tagHandle h lead :: (if marksStart ts then ts else .documentStart :: ts)).length + 4 := by
    split <;> simp only [List.length_cons] <;> omega
  rw [parse?, parseDocument_behind_handle lead hfresh hstandard hle hdocument]
  exact hrest

end CiWorkflow.Yaml
