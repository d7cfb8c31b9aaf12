import CiWorkflow.Proofs.Json.Parse
import CiWorkflow.Proofs.Json.Restore
import CiWorkflow.Proofs.Render.Document

set_option autoImplicit false

namespace CiWorkflow.Json

open Yaml Render Scanner Decimal Blocks Text

theorem all_isAllowed_newLine (indent depth : Nat) : (newLine indent depth).all isAllowed = true := by
  refine List.all_eq_true.mpr ?_
  intro c hc
  rcases List.mem_cons.mp hc with rfl | hc
  · decide
  · rw [List.eq_of_mem_replicate hc]
    decide

theorem all_isAllowed_number {w : List Char} (h : IsNumberText w) : w.all isAllowed = true := by
  refine List.all_eq_true.mpr ?_
  intro c hc
  have hchar := h.chars c hc
  simp only [isNumberChar, isFractionMark, Bool.or_eq_true, decide_eq_true_eq] at hchar
  rcases hchar with ((hd | rfl | rfl) | rfl) | rfl
  · have hrange : 48 ≤ c.toNat ∧ c.toNat ≤ 57 := by
      simpa [Char.isDigit, UInt32.le_iff_toNat_le] using hd
    simp only [isAllowed, Bool.or_eq_true, Bool.and_eq_true, decide_eq_true_eq]
    omega
  all_goals decide

theorem all_isAllowed_name (indent depth : Nat) (k : String) :
    (nameText indent depth k).all isAllowed = k.toList.all isShown := by
  have hcolon : isAllowed ':' = true := by decide
  simp [nameText, all_isAllowed_newLine, all_isAllowed_quoted, hcolon]

section Characters

variable {indent : Nat}

mutual

/-- Only the texts of a value bring in characters that a document may not hold. -/
theorem all_isAllowed_value (v : Value) (hd : isData v = true) (depth : Nat) (text : List Char)
    (h : valueText indent depth v = .ok text) :
    text.all isAllowed = (texts v).all fun s => s.toList.all isShown := by
  match v, hd with
  | .null, _ =>
    rw [valueText] at h
    cases h
    decide
  | .bool b, _ =>
    rw [valueText] at h
    cases h
    cases b <;> decide
  | .int n, _ =>
    rw [valueText] at h
    cases h
    exact all_isAllowed_number (isNumberText_int n)
  | .float x, hd =>
    rw [valueText] at h
    cases h
    match hk : x.kind with
    | .finite negative m q =>
      have htext : floatText? x = some (floatLayout.write x).toList := by rw [floatText?, hk]
      rw [htext]
      exact all_isAllowed_number (isNumberText_float floatLayout rfl x negative m q hk)
    | .nan => simp [isData, hk] at hd
    | .infinite _ => simp [isData, hk] at hd
  | .string s, _ =>
    rw [valueText] at h
    cases h
    simpa [texts] using all_isAllowed_quoted s.toList
  | .sequence [], _ =>
    rw [valueText] at h
    cases h
    decide
  | .sequence (v :: vs), hd =>
    obtain ⟨hv, hr⟩ : isData v = true ∧ areData vs = true := by simpa [isData, areData] using hd
    obtain ⟨first, hfirst, others, hothers, rfl⟩ := valueText_sequence.mp h
    have hmarks : isAllowed '[' = true ∧ isAllowed ']' = true := by decide
    simp [all_isAllowed_value v hv _ _ hfirst, all_isAllowed_items vs hr _ _ hothers, all_isAllowed_newLine,
      hmarks, texts, itemTexts]
  | .mapping [], _ =>
    rw [valueText] at h
    cases h
    decide
  | .mapping ((.string k, v) :: es), hd =>
    obtain ⟨hv, hr⟩ : isData v = true ∧ areNamedData es = true := by simpa [isData, areNamedData] using hd
    obtain ⟨first, hfirst, others, hothers, rfl⟩ := valueText_mapping.mp h
    have hmarks : isAllowed '\x7b' = true ∧ isAllowed '\x7d' = true ∧ isAllowed ' ' = true := by decide
    simp [all_isAllowed_value v hv _ _ hfirst, all_isAllowed_entries es hr _ _ hothers, all_isAllowed_newLine,
      all_isAllowed_name, hmarks, texts, entryTexts]

theorem all_isAllowed_items (vs : List Value) (hd : areData vs = true) (depth : Nat) (others : List Char)
    (h : itemsText indent depth vs = .ok others) :
    others.all isAllowed = (itemTexts vs).all fun s => s.toList.all isShown := by
  match vs, hd with
  | [], _ =>
    rw [itemsText] at h
    cases h
    rfl
  | v :: vs, hd =>
    obtain ⟨hv, hr⟩ : isData v = true ∧ areData vs = true := by simpa [areData] using hd
    obtain ⟨first, hfirst, others, hothers, rfl⟩ := itemsText_cons.mp h
    have hmark : isAllowed ',' = true := by decide
    simp [all_isAllowed_value v hv _ _ hfirst, all_isAllowed_items vs hr _ _ hothers, all_isAllowed_newLine,
      hmark, itemTexts]

theorem all_isAllowed_entries (es : List (Value × Value)) (hd : areNamedData es = true) (depth : Nat)
    (others : List Char) (h : entriesText indent depth es = .ok others) :
    others.all isAllowed = (entryTexts es).all fun s => s.toList.all isShown := by
  match es, hd with
  | [], _ =>
    rw [entriesText] at h
    cases h
    rfl
  | (.string k, v) :: es, hd =>
    obtain ⟨hv, hr⟩ : isData v = true ∧ areNamedData es = true := by simpa [areNamedData] using hd
    obtain ⟨first, hfirst, others, hothers, rfl⟩ := entriesText_cons.mp h
    have hmarks : isAllowed ',' = true ∧ isAllowed ' ' = true := by decide
    simp [all_isAllowed_value v hv _ _ hfirst, all_isAllowed_entries es hr _ _ hothers, all_isAllowed_name,
      hmarks, texts, entryTexts]

end

mutual

theorem exists_valueText (v : Value) (hd : isData v = true) (depth : Nat) :
    ∃ text, valueText indent depth v = .ok text := by
  match v, hd with
  | .null, _ | .bool _, _ | .int _, _ | .float _, _ | .string _, _ | .sequence [], _ | .mapping [], _ =>
    exact ⟨_, by rw [valueText]⟩
  | .sequence (v :: vs), hd =>
    obtain ⟨hv, hr⟩ : isData v = true ∧ areData vs = true := by simpa [isData, areData] using hd
    obtain ⟨first, hfirst⟩ := exists_valueText v hv (depth + 1)
    obtain ⟨others, hothers⟩ := exists_itemsText vs hr (depth + 1)
    exact ⟨_, valueText_sequence.mpr ⟨first, hfirst, others, hothers, rfl⟩⟩
  | .mapping ((.string k, v) :: es), hd =>
    obtain ⟨hv, hr⟩ : isData v = true ∧ areNamedData es = true := by simpa [isData, areNamedData] using hd
    obtain ⟨first, hfirst⟩ := exists_valueText v hv (depth + 1)
    obtain ⟨others, hothers⟩ := exists_entriesText es hr (depth + 1)
    exact ⟨_, valueText_mapping.mpr ⟨first, hfirst, others, hothers, rfl⟩⟩

theorem exists_itemsText (vs : List Value) (hd : areData vs = true) (depth : Nat) :
    ∃ others, itemsText indent depth vs = .ok others := by
  match vs, hd with
  | [], _ => exact ⟨_, by rw [itemsText]⟩
  | v :: vs, hd =>
    obtain ⟨hv, hr⟩ : isData v = true ∧ areData vs = true := by simpa [areData] using hd
    obtain ⟨first, hfirst⟩ := exists_valueText v hv depth
    obtain ⟨others, hothers⟩ := exists_itemsText vs hr depth
    exact ⟨_, itemsText_cons.mpr ⟨first, hfirst, others, hothers, rfl⟩⟩

theorem exists_entriesText (es : List (Value × Value)) (hd : areNamedData es = true) (depth : Nat) :
    ∃ others, entriesText indent depth es = .ok others := by
  match es, hd with
  | [], _ => exact ⟨_, by rw [entriesText]⟩
  | (.string k, v) :: es, hd =>
    obtain ⟨hv, hr⟩ : isData v = true ∧ areNamedData es = true := by simpa [areNamedData] using hd
    obtain ⟨first, hfirst⟩ := exists_valueText v hv depth
    obtain ⟨others, hothers⟩ := exists_entriesText es hr depth
    exact ⟨_, entriesText_cons.mpr ⟨first, hfirst, others, hothers, rfl⟩⟩

end

end Characters

/-- Values that are read from their JSON text as they are. -/
structure IsReadable (v : Value) : Prop where
  shown : ∀ s ∈ texts v, s.toList.all isShown = true
  readsBack : ∀ s ∈ texts v, ReadsBack s.toList
  keys : ∀ k ∈ names v, isKey k.toList = true
  shallow : v.depth ≤ Tree.maxDepth

instance (cs : List Char) : Decidable (ReadsBack cs) := decidable_of_iff _ (reread_iff cs)

instance (v : Value) : Decidable (IsReadable v) :=
  decidable_of_iff
    ((∀ s ∈ texts v, s.toList.all isShown = true) ∧ (∀ s ∈ texts v, ReadsBack s.toList) ∧
      (∀ k ∈ names v, isKey k.toList = true) ∧ v.depth ≤ Tree.maxDepth)
    ⟨fun h => ⟨h.1, h.2.1, h.2.2.1, h.2.2.2⟩, fun h => ⟨h.shown, h.readsBack, h.keys, h.shallow⟩⟩

theorem read_of_tokens {s : String} {v : Value} {ts : List Token} (ht : tokens? s = some ts)
    (hts : valueTokens? v = some ts) :
    read? s = ((valueNode? v).filter fun n => n.depth ≤ Tree.maxDepth).bind Node.value? := by
  have hparse := parse_document ts _ (parses_value true false v ts hts)
  rw [read?, Node.read?, ht]
  simp only [Option.bind_eq_bind, Option.bind_some, hparse]
  cases valueNode? v with
  | none => rfl
  | some n =>
    rw [Option.map_some, Option.bind_some, Tree.resolve_tree, Option.filter_some]
    by_cases hdepth : n.depth ≤ Tree.maxDepth <;> simp [hdepth]

/-- The value of a node, which the reader only gives out with distinct keys. -/
theorem read_back_iff {v : Value} (hd : isData v = true) (hr : v.inRange = true) (hw : v.wellFormed = true) :
    ((valueNode? v).filter fun n => n.depth ≤ Tree.maxDepth).bind Node.value? = some v ↔
      (∀ s ∈ texts v, ReadsBack s.toList) ∧ (∀ k ∈ names v, isKey k.toList = true) ∧
        v.depth ≤ Tree.maxDepth := by
  have hnode := isSome_valueNode v hd
  have hback : ∀ s : String, ReadsBack s.toList ↔ reread? s.toList = some s.toList :=
    fun s => (reread_iff s.toList).symm
  cases hn : valueNode? v with
  | none =>
    rw [hn] at hnode
    refine ⟨nofun, ?_⟩
    rintro ⟨hs, hk, -⟩
    refine absurd (hnode.mpr ⟨fun s hmem => ?_, hk⟩) (by simp)
    rw [(hback s).mp (hs s hmem)]
    rfl
  | some n =>
    obtain ⟨hc, hdepth⟩ := content_value v hd hr n hn
    rw [hn] at hnode
    obtain ⟨hread, hkeys⟩ := hnode.mp rfl
    have htexts : v.mapTexts rereadText = v ↔ ∀ s ∈ texts v, ReadsBack s.toList := by
      rw [Value.mapTexts_eq_self]
      refine forall₂_congr ?_
      intro s hs
      obtain ⟨t, ht⟩ := Option.isSome_iff_exists.mp (hread s hs)
      rw [hback, rereadText, ht, Option.getD_some, Option.some.injEq]
      exact ⟨fun h => by rw [← h, String.toList_ofList], fun h => by rw [h, String.ofList_toList]⟩
    rw [Option.filter_some, hdepth]
    by_cases hle : v.depth ≤ Tree.maxDepth
    · rw [if_pos (by simpa using hle), Option.bind_some, Node.value?, hc, ← htexts]
      constructor
      · intro h
        exact ⟨Option.some.inj (Option.filter_eq_some_iff.mp h).1, hkeys, hle⟩
      · rintro ⟨h, -, -⟩
        rw [h, Option.filter_some, hw]
        rfl
    · rw [if_neg (by simpa using hle)]
      exact ⟨nofun, fun h => absurd h.2.2 hle⟩

theorem read_text_iff {indent : Nat} (hi : 1 ≤ indent) (es : List (Value × Value))
    (hd : isData (.mapping es) = true) (hr : (Value.mapping es).inRange = true)
    (hw : (Value.mapping es).wellFormed = true) (text : List Char)
    (ht : valueText indent 0 (.mapping es) = .ok text) :
    read? (defaultHeader ++ String.ofList (text ++ ['\n'])) = some (.mapping es) ↔ IsReadable (.mapping es) := by
  have hallowed : (text ++ ['\n']).all isAllowed = (texts (.mapping es)).all fun s => s.toList.all isShown := by
    have hbreak : isAllowed '\n' = true := by decide
    rw [List.all_append, all_isAllowed_value _ hd _ _ ht]
    simp [hbreak]
  obtain ⟨hends, hfails⟩ := scan_mapping (p := Position.start.after defaultHeader.toList) hi es hd text ht
  have hiff := read_back_iff hd hr hw
  constructor
  · intro hread
    cases htokens : tokens? (defaultHeader ++ String.ofList (text ++ ['\n'])) with
    | none =>
      rw [read?, Node.read?, htokens] at hread
      cases hread
    | some ts =>
      have hshown := all_isAllowed_of_tokens htokens
      rw [hallowed] at hshown
      cases hts : valueTokens? (.mapping es) with
      | none =>
        rw [tokens_of_header_fails (hfails hts)] at htokens
        cases htokens
      | some us =>
        have htokens' := tokens_of_header_ends (by rw [hallowed, hshown]) (hends us hts)
        rw [read_of_tokens htokens' hts] at hread
        obtain ⟨hb, hk, hdepth⟩ := hiff.mp hread
        exact ⟨List.all_eq_true.mp hshown, hb, hk, hdepth⟩
  · rintro ⟨hshown, hb, hk, hdepth⟩
    have hread := hiff.mpr ⟨hb, hk, hdepth⟩
    obtain ⟨n, hn, -⟩ := Option.bind_eq_some_iff.mp hread
    obtain ⟨us, hts⟩ := exists_valueTokens _ n (Option.filter_eq_some_iff.mp hn).1
    have htokens := tokens_of_header_ends (by rw [hallowed]; exact List.all_eq_true.mpr hshown) (hends us hts)
    rw [read_of_tokens htokens hts, hread]

theorem restore_marked (v : Value) (hd : isData v = true) (indent n : Nat) (text : List Char)
    (ht : valueText indent 0 v = .ok text) : ∃ marked, valueText indent 0 (mark v).1 = .ok marked ∧
      (mark v).2.restore n (String.ofList marked) = String.ofList text := by
  obtain ⟨b, hb⟩ : ∃ b, b = (mark v).2 := ⟨_, rfl⟩
  have hnumber : b.number = freshNumber (texts v) := by rw [hb]; rfl
  have hmark : (mark v).1 = (markFrom b.number 0 v).1 := by rw [hnumber]; rfl
  have hscripts : b.scripts = (markFrom b.number 0 v).2 := by rw [hnumber, hb]; rfl
  have hfresh : ∀ s ∈ texts v, contains s (marker b.number) = false := by
    have := isFresh_freshNumber (texts v)
    rw [← hnumber] at this
    intro s hs
    simpa using List.all_eq_true.mp this s hs
  have hholds : HoldsFrom b 0 (markFrom b.number 0 v).2 := by
    rw [HoldsFrom, ← hscripts]
    exact List.prefix_rfl
  obtain ⟨marked, hmarked, hdata, hrestores⟩ := valueRestores v hd hfresh 0 0 text ht hholds
  have hline : b.restoreInLine 0 true marked = text := by
    simpa [restoreInLine] using hrestores [] rfl
  refine ⟨marked, by rw [hmark]; exact hmarked, ?_⟩
  rw [← hb, restore, String.toList_ofList]
  by_cases hempty : b.scripts.isEmpty = true
  · rw [if_pos hempty]
    have hnone : ¬ b.Refers marked := by
      rintro ⟨_, number, index, _, -, -, -, hfind⟩
      simp [find?, List.isEmpty_iff.mp hempty] at hfind
    rw [← hline, restoreInLine_self b marked hnone]
  · rw [if_neg hempty]
    obtain ⟨hfirst, hquiet⟩ := isCalm_value _ hdata 0 marked hmarked []
    rw [List.append_nil] at hfirst hquiet
    have := b.restoreText_quiet n marked hfirst hquiet
    rw [restoreText] at this
    rw [this, hline]

theorem finishBody_mapping (indent : Nat) (es : List (Value × Value)) (hd : areNamedData es = true)
    (text : List Char) (ht : valueText indent 0 (.mapping es) = .ok text) :
    finishBody (String.ofList text) = .ok (String.ofList (text ++ ['\n'])) := by
  have hlast : text.getLast? = some '\x7d' := by
    match es, hd with
    | [], _ =>
      rw [valueText] at ht
      cases ht
      rfl
    | (.string k, v) :: rest, _ =>
      obtain ⟨_, -, _, -, rfl⟩ := valueText_mapping.mp ht
      simp [List.getLast?_cons, List.getLast?_append]
  have htrim : Text.dropEndWhile (· = '\n') text = text :=
    Text.dropEndWhile_eq_self (by simp [hlast])
  simp [finishBody, splitTrailing, htrim]

/-- The renderer that writes JSON with a given indentation. -/
def renderer (indent : Nat) : Renderer := { Renderer.ofFormat .json with indent := indent }

theorem render_eq (w : Workflow) (es : List (Value × Value)) (indent : Nat)
    (hv : w.canonical = .ok (.mapping es)) (hd : isData (.mapping es) = true) (text : List Char)
    (ht : valueText (max indent 1) 0 (.mapping es) = .ok text) :
    (renderer indent).render w = .ok (defaultHeader ++ String.ofList (text ++ ['\n'])) := by
  obtain ⟨marked, hmarked, hrestore⟩ := restore_marked _ hd _ (max indent 1) text ht
  have hwrite : write (max indent 1) (mark (.mapping es)).1 = .ok (String.ofList marked) := by
    have hmax : max (max indent 1) 1 = max indent 1 := by omega
    rw [write, hmax, hmarked]
    rfl
  have hencode : (renderer indent).encoder (mark (.mapping es)).1 (renderer indent).width =
      .ok (String.ofList marked) := by
    change Format.json.encoder (mark (.mapping es)).1 (max indent 1) = _
    simp only [Format.encoder, hwrite]
  have hbody : (renderer indent).body (.mapping es) = .ok (String.ofList (text ++ ['\n'])) := by
    change ((renderer indent).encoder (mark (.mapping es)).1 (renderer indent).width >>= fun encoded =>
      finishBody ((mark (.mapping es)).2.restore (max indent 1) encoded)) = _
    rw [hencode]
    change finishBody ((mark (.mapping es)).2.restore (max indent 1) (String.ofList marked)) = _
    rw [hrestore, finishBody_mapping _ es hd text ht]
  have hheader : commentBlock (renderer indent).header = defaultHeader := commentBlock_defaultHeader
  rw [Renderer.render, hv]
  change ((renderer indent).body (.mapping es) >>= fun text =>
    Except.ok (commentBlock (renderer indent).header ++ text)) = _
  rw [hbody, hheader]
  rfl

end CiWorkflow.Json
