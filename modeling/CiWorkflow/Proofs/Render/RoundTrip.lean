import CiWorkflow.Proofs.Json.Quoted
import CiWorkflow.Proofs.Render.Ending
import CiWorkflow.Proofs.Render.Header
import CiWorkflow.Proofs.Render.LaidReading
import CiWorkflow.Proofs.Render.LaidRestored
import CiWorkflow.Proofs.Render.Resumed
import CiWorkflow.Proofs.Yaml.NodeText

/-!
# Reading YAML output back

A workflow that is written as YAML is read back as it was, if a document may hold all characters of its scripts, no
block starts with a tab, its tags can be read and hold no reference of the document, its collections do not nest too
deep, and it does not end inside a block that would take the last line feed. Putting scripts back into a text brings
in no characters but theirs and those that a document may hold anyway.
-/
set_option autoImplicit false

namespace CiWorkflow.Render

open Text Yaml Yaml.Scanner Yaml.Value Blocks

/-! ## Characters of a restored text -/

section Characters

variable {b : Blocks} {indent : Nat} {s : String} {c : Char}

theorem isAllowed_of_mem_quoted (hs : ∀ c ∈ s.toList, isAllowed c = true) (h : c ∈ Json.quoted s.toList) :
    isAllowed c = true := by
  have hall : (Json.quoted s.toList).all isAllowed = true := by
    rw [Json.all_isAllowed_quoted, List.all_eq_true]
    exact fun d hd => by simp [Json.isShown, hs d hd]
  exact List.all_eq_true.mp hall c h

theorem isAllowed_of_mem_blockLines {body line : List Char} {column n : Nat} (hbody : ∀ c ∈ body, isAllowed c = true)
    (hline : line ∈ blockLines column body n) (h : c ∈ line) : isAllowed c = true := by
  obtain hline | hline := List.mem_append.mp hline
  · obtain ⟨piece, hpiece, rfl⟩ := List.mem_map.mp hline
    unfold padded at h
    split at h
    · cases h
    · obtain h | h := List.mem_append.mp h
      · rw [List.eq_of_mem_replicate h]
        rfl
      · exact hbody c (mem_of_mem_splitAt hpiece h)
  · rw [List.eq_of_mem_replicate hline] at h
    cases h

theorem isAllowed_of_mem_literalEntry {lead dashes : Nat} (hs : ∀ c ∈ s.toList, isAllowed c = true)
    (h : c ∈ literalEntry lead dashes indent s) : isAllowed c = true := by
  obtain ⟨body, n, hsplit, hscript, -⟩ := splitTrailing_eq s.toList
  rw [literalEntry_eq lead dashes indent hsplit, List.mem_append, List.mem_append, List.mem_append, List.mem_cons] at h
  have hbody : ∀ c ∈ body, isAllowed c = true := fun c hc => hs c (hscript ▸ List.mem_append_left _ hc)
  obtain ((h | h) | h) | rfl | h := h
  · have hall : ∀ c ∈ "- run: |".toList, isAllowed c = true := forall_mem_of_all (by decide)
    exact hall c (mem_entryStart h)
  · have hdigit := isDigit_of_mem_indentSign h
    exact isAllowed_of_isPrintable (isPrintable_of_isAlphanum (by simp [Char.isAlphanum, hdigit]))
  · have hall : ∀ c ∈ chompSign n, isAllowed c = true := by
      unfold chompSign
      split
      · exact forall_mem_of_all (by decide)
      · split <;> exact forall_mem_of_all (by decide)
    exact hall c h
  · rfl
  · obtain ⟨line, hline, h⟩ := List.mem_flatMap.mp h
    obtain h | h := List.mem_append.mp h
    · exact isAllowed_of_mem_blockLines hbody hline h
    · rw [List.mem_singleton.mp h]
      rfl

theorem isAllowed_of_restoresLine {line ending restored : List Char}
    (hs : ∀ s ∈ b.scripts, ∀ c ∈ s.toList, isAllowed c = true)
    (hline : ∀ c ∈ line ++ ending, isAllowed c = true) (h : RestoresLine b indent (line, ending) restored) :
    ∀ c ∈ restored, isAllowed c = true := by
  cases h with
  | copied => exact hline
  | block hentry =>
    obtain ⟨quote, index, -, hnamed, -⟩ := hentry
    exact fun c hc => isAllowed_of_mem_literalEntry (hs _ (mem_scripts_of_named hnamed)) hc
  | @quoted _ _ ps _ _ hreplaces =>
    refine List.forall_mem_append.mpr ⟨fun c hc => ?_, (List.forall_mem_append.mp hline).2⟩
    obtain ⟨piece, hpiece, hc⟩ := List.mem_flatMap.mp hc
    cases piece with
    | text part =>
      refine hline c (List.mem_append_left _ ?_)
      rw [← hreplaces.whole]
      exact List.mem_flatMap.mpr ⟨_, hpiece, hc⟩
    | script opening index closing s =>
      obtain ⟨pre, post, hps⟩ := List.append_of_mem hpiece
      have hcites := (hreplaces.cites _ index _ s).mpr ⟨pre, opening, closing, post, hps, rfl, rfl⟩
      exact isAllowed_of_mem_quoted (hs s (mem_scripts_of_named hcites.named)) hc

theorem isAllowed_of_restoresLines {lines : List (List Char × List Char)} {out : List (List Char)}
    (hs : ∀ s ∈ b.scripts, ∀ c ∈ s.toList, isAllowed c = true)
    (hlines : ∀ l ∈ lines, ∀ c ∈ l.1 ++ l.2, isAllowed c = true) (h : List.Forall₂ (RestoresLine b indent) lines out) :
    ∀ c ∈ out.flatten, isAllowed c = true := by
  induction h with
  | nil => simp
  | cons hline _ ih =>
    obtain ⟨hfirst, hothers⟩ := List.forall_mem_cons.mp hlines
    rw [List.flatten_cons]
    exact List.forall_mem_append.mpr ⟨isAllowed_of_restoresLine hs hfirst hline, ih hothers⟩

/-- A text with its scripts put back has only characters that a document may hold if it and they have no others. -/
theorem isAllowed_of_mem_restoreText {cs : List Char} (hs : ∀ s ∈ b.scripts, ∀ c ∈ s.toList, isAllowed c = true)
    (hcs : ∀ c ∈ cs, isAllowed c = true) : ∀ c ∈ b.restoreText indent cs, isAllowed c = true := by
  obtain ⟨out, hout, hlines⟩ := forall₂_restoreLines b indent (splitAt '\n' cs)
  rw [restoreText, hout]
  refine isAllowed_of_restoresLines hs (fun l hl c hc => hcs c ?_) hlines
  rw [← flatMap_endedLines cs]
  exact List.mem_flatMap.mpr ⟨l, hl, hc⟩

end Characters

/-! ## Marked values -/

section Marked

variable (number : Nat)

theorem writable_markMember {i : Nat} {key v : Value}
    (h : ∀ i, writable false (markFrom number i v).1 = writable false v) :
    writable false (markMember number i key v).1 = writable false v := by
  unfold markMember
  cases hscript : script? key v with
  | some s =>
    rw [eq_string_of_script hscript]
    rfl
  | none => exact h i

mutual

theorem writable_markFrom (hasTag : Bool) (i : Nat) (v : Value) :
    writable hasTag (markFrom number i v).1 = writable hasTag v := by
  cases v with
  | sequence vs =>
    rw [markFrom_sequence, writable, writable]
    exact writable_markItems i vs
  | mapping es =>
    have hentries := writable_markEntries i es
    rw [markFrom_mapping]
    match es with
    | [] => rw [markEntries]
    | [(key, v)] =>
      rw [markEntries_cons, markEntries] at hentries ⊢
      simp only [writable, hentries]
    | (key, v) :: f :: rest =>
      rw [markEntries_cons, markEntries_cons] at hentries ⊢
      simp only [writable, hentries]
  | tagged t v =>
    rw [markFrom_tagged, writable, writable, writable_markFrom true i v]
  | _ => rw [markFrom] <;> simp

theorem writable_markItems (i : Nat) (vs : List Value) :
    writableItems (markItems number i vs).1 = writableItems vs := by
  cases vs with
  | nil => rw [markItems]
  | cons v vs => rw [markItems_cons, writableItems, writableItems, writable_markFrom false i v, writable_markItems _ vs]

theorem writable_markEntries (i : Nat) (es : List (Value × Value)) :
    writableEntries (markEntries number i es).1 = writableEntries es := by
  cases es with
  | nil => rw [markEntries]
  | cons e es =>
    rw [markEntries_cons, writableEntries, writableEntries, writable_markEntries _ es,
      writable_markMember number fun i => writable_markFrom false i e.2]

end

end Marked

/-! ## Documents -/

theorem takesScripts_script : TakesScripts script? := fun key v s h => by
  obtain ⟨hv, -, -, hsafe⟩ := script_eq_some.mp h
  exact ⟨hv, hsafe⟩

/-- What a value needs so that the text of it is read back: a document may hold all characters of its scripts, no
script that becomes a block starts with a tab, its tags can be read and are written without references to its scripts,
and its collections nest no deeper than a reader follows. A text that ends in several line ends has a line feed last. -/
structure IsReadable (indent : Nat) (v : Value) : Prop where
  allowed : ∀ s ∈ (mark v).2.scripts, ∀ c ∈ s.toList, isAllowed c = true
  tabless : ∀ s ∈ nodeBlocks script? indent .root true none v, ¬ StartsWithTab s
  legible : ∀ t, shownTag t ∈ tags v → IsLegible t
  uncited : ∀ t, shownTag t ∈ tags v → ¬ (mark v).2.CitesSome (tagText t)
  shallow : v.depth ≤ Tree.maxDepth
  ended : EndsTwice (laidNode script? indent .root true none v) → ['\n'] <:+ laidNode script? indent .root true none v

theorem encoder_mark {v : Value} (hwritable : writable false v = true) (indent : Nat) :
    Format.yaml.encoder (mark v).1 indent = .ok (String.ofList (nodeText .root none (mark v).1)) := by
  have hmarked : writable false (mark v).1 = true := (writable_markFrom _ false 0 v).trans hwritable
  simp only [Format.encoder, write?, hmarked, if_true]

section Reading

variable {indent : Nat} {v : Value}

/-- The tokens of the text of a value, with nothing but a line feed behind it. -/
theorem ends_laidNode (hindent : indent ≤ 9) (hv : CanBeRead false v)
    (htab : ∀ s ∈ nodeBlocks script? indent .root true none v, ¬ StartsWithTab s) {rest : List Char}
    (hrest : rest = [] ∨ rest = ['\n'] ∧ ¬ EndsTwice (laidNode script? indent .root true none v)) :
    ∃ us, Represents false us v.withOneNan ∧
      Scanner.Ends (Scanner.start (Position.start.cells (laidNode script? indent .root true none v ++ rest))) us := by
  have hend : EndsNode none (laidNode script? indent .root true none v) rest := by
    obtain rfl | ⟨rfl, htwice⟩ := hrest
    · exact ⟨.done, by simp⟩
    · exact ⟨.feed, fun _ => htwice⟩
  have hreads : Reads false [] true [] Position.start _ rest v.withOneNan :=
    reads_laidNode hindent takesScripts_script .root true none v hv legibleTag_none htab ⟨rfl, rfl⟩ hend
  obtain ⟨us, hus, hleads⟩ := hreads.reads
  have hlast := hleads.ends (ends_outside hend.follows)
  rw [List.append_nil, List.reverse_reverse] at hlast
  exact ⟨us, hus, hlast⟩

theorem isAllowed_of_mem_laidNode (hv : IsReadable indent v) :
    ∀ c ∈ laidNode script? indent .root true none v, isAllowed c = true := by
  rw [← restore_nodeText indent v hv.uncited, toList_restore, String.toList_ofList]
  exact isAllowed_of_mem_restoreText hv.allowed fun c hc =>
    isAllowed_of_isPrintable (isPrintable_nodeText .root none _ c hc)

/-- The text of a readable value is read as the value, also with a line feed added where it has none. -/
theorem read_laidNode (hindent : indent ≤ 9) (hv : IsReadable indent v) (hwritable : writable false v = true)
    (hrange : v.inRange = true) (hwell : v.wellFormed = true) {rest : List Char}
    (hrest : rest = [] ∨ rest = ['\n'] ∧ ¬ EndsTwice (laidNode script? indent .root true none v)) :
    read? (String.ofList (laidNode script? indent .root true none v ++ rest)) = some v.withOneNan := by
  obtain ⟨us, hus, hends⟩ := ends_laidNode hindent ⟨hwritable, hrange, hv.legible⟩ hv.tabless hrest
  have hall : (laidNode script? indent .root true none v ++ rest).all isAllowed = true := by
    refine List.all_eq_true.mpr (List.forall_mem_append.mpr ⟨isAllowed_of_mem_laidNode hv, ?_⟩)
    obtain rfl | ⟨rfl, -⟩ := hrest
    · simp
    · exact forall_mem_of_all (by decide)
  refine read_of_represents (tokens_of_ends ?_ ?_) hus ?_ ?_
  · rwa [String.toList_ofList]
  · rwa [String.toList_ofList]
  · rw [depth_withOneNan]
    exact hv.shallow
  · rwa [wellFormed_withOneNan]

/-- The text that the encoder gives for the marked value is read as the value once its scripts are put back. -/
theorem read_restored_encoded (hindent : indent ≤ 9) (hv : IsReadable indent v) (hwritable : writable false v = true)
    (hrange : v.inRange = true) (hwell : v.wellFormed = true) {text : String}
    (h : Format.yaml.encoder (mark v).1 indent = .ok text) :
    read? ((mark v).2.restore indent text) = some v.withOneNan := by
  obtain rfl := Except.ok.inj ((encoder_mark hwritable indent).symm.trans h)
  have hread := read_laidNode hindent hv hwritable hrange hwell (.inl rfl)
  rwa [List.append_nil, ← restore_nodeText indent v hv.uncited, String.ofList_toList] at hread

theorem read_finished (hindent : indent ≤ 9) (hv : IsReadable indent v) (hwritable : writable false v = true)
    (hrange : v.inRange = true) (hwell : v.wellFormed = true) {out : String}
    (hout : finishBody (String.ofList (laidNode script? indent .root true none v)) = .ok out) :
    read? out = some v.withOneNan := by
  refine read_finishBody ?_ (fun hopen => ?_) hout
  · have hread := read_laidNode hindent hv hwritable hrange hwell (.inl rfl)
    rwa [List.append_nil] at hread
  · rw [String.toList_ofList] at hopen
    have hread := read_laidNode hindent hv hwritable hrange hwell (.inr ⟨rfl, fun htwice => hopen (hv.ended htwice)⟩)
    rwa [String.ofList_append] at hread

end Reading

/-! ## Workflows -/

theorem stays_defaultHeader : StaysInComments defaultHeader := by
  decide +kernel

/-- The renderer that writes YAML with a given indentation. -/
def yamlRenderer (indent : Nat) : Renderer := { Renderer.ofFormat .yaml with indent := indent }

section Rendering

variable {w : Workflow} {v : Value} {indent : Nat} {body text : String}

theorem writable_of_body (h : (yamlRenderer indent).body v = .ok body) : writable false v = true := by
  have hmarked : writable false (mark v).1 = writable false v := writable_markFrom _ false 0 v
  obtain ⟨encoded, hencoded, -⟩ := bind_eq_ok.mp h
  change Format.encoder .yaml (mark v).1 (max indent 1) = .ok encoded at hencoded
  simp only [Format.encoder, write?, hmarked] at hencoded
  cases hwritable : writable false v with
  | false => simp [hwritable] at hencoded
  | true => rfl

theorem body_yamlRenderer (hwritable : writable false v = true)
    (huncited : ∀ t, shownTag t ∈ tags v → ¬ (mark v).2.CitesSome (tagText t)) : (yamlRenderer indent).body v =
      finishBody (String.ofList (laidNode script? (max indent 1) .root true none v)) := by
  change (Format.encoder .yaml (mark v).1 (max indent 1) >>= fun encoded =>
    finishBody ((mark v).2.restore (max indent 1) encoded)) = _
  rw [encoder_mark hwritable, ← restore_nodeText _ v huncited, String.ofList_toList]
  rfl

/-- The text of a workflow is the header and the finished text of its value. -/
theorem render_yamlRenderer (hv : w.canonical = .ok v) (hwritable : writable false v = true)
    (huncited : ∀ t, shownTag t ∈ tags v → ¬ (mark v).2.CitesSome (tagText t))
    (hbody : finishBody (String.ofList (laidNode script? (max indent 1) .root true none v)) = .ok body) :
    (yamlRenderer indent).render w = .ok (defaultHeader ++ body) := by
  have hheader : commentBlock (yamlRenderer indent).header = defaultHeader := commentBlock_defaultHeader
  rw [Renderer.render, hv]
  change ((yamlRenderer indent).body v >>= fun text =>
    Except.ok (commentBlock (yamlRenderer indent).header ++ text)) = _
  rw [body_yamlRenderer hwritable huncited, hbody, hheader]
  rfl

end Rendering

theorem tags_scriptValue (script : String) : tags (scriptValue script) = [] := rfl

end CiWorkflow.Render
