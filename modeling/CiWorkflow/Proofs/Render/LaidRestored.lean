import CiWorkflow.Proofs.Render.Laid
import CiWorkflow.Proofs.Render.Resumed
import CiWorkflow.Proofs.Yaml.NodeText

/-!
# Restoring a document

If no text of a value holds the marker and no tag is written with a reference to a script, none starts in what is
written of the value. Putting the scripts back into the text of a marked value gives the text of the value with its
scripts. A line is a `run` entry exactly if spaces and dashes are all that stands in front of a plain `run` key.
-/
set_option autoImplicit false

namespace CiWorkflow.Render

open Text Yaml Yaml.Value Blocks

/-! ## Nodes without references -/

/-- None of the texts holds the marker, and none of the tags is written with a reference to a script. -/
structure IsForeign (b : Blocks) (ss ts : List String) : Prop where
  unmarked : ∀ s ∈ ss, ¬ (marker b.number).toList <:+: s.toList
  uncited : ∀ t, Value.shownTag t ∈ ts → ¬ b.CitesSome (tagText t)

variable {b : Blocks}

theorem IsForeign.of_append {ss ss' ts ts' : List String} (h : IsForeign b (ss ++ ss') (ts ++ ts')) :
    IsForeign b ss ts ∧ IsForeign b ss' ts' :=
  ⟨⟨fun s hs => h.unmarked s (List.mem_append_left _ hs), fun t ht => h.uncited t (List.mem_append_left _ ht)⟩,
    ⟨fun s hs => h.unmarked s (List.mem_append_right _ hs), fun t ht => h.uncited t (List.mem_append_right _ ht)⟩⟩

theorem IsForeign.of_tagged {t : String} {v : Value} (h : IsForeign b (texts (.tagged t v)) (tags (.tagged t v))) :
    ¬ b.CitesSome (tagText t) ∧ IsForeign b (texts v) (tags v) :=
  ⟨h.uncited t (List.mem_cons_self ..), h.unmarked, fun u hu => h.uncited u (List.mem_cons_of_mem _ hu)⟩

def IsForeignTag (b : Blocks) (tag : Option String) : Prop := ∀ t ∈ tag, ¬ b.CitesSome (tagText t)

theorem isForeignTag_none : IsForeignTag b none := by
  simp [IsForeignTag]

theorem isForeign_untag {v : Value} (h : IsForeign b (texts v) (tags v)) :
    IsForeignTag b (untag v).1 ∧ ∀ s ∈ texts (untag v).2, ¬ (marker b.number).toList <:+: s.toList := by
  cases v with
  | tagged t v =>
    refine ⟨?_, h.unmarked⟩
    rintro t ⟨⟩
    exact h.of_tagged.1
  | _ => exact ⟨isForeignTag_none, h.unmarked⟩

/-! ### Parts of a line -/

section Line

variable {tag : Option String}

theorem isInert_spaces (n : Nat) : b.IsInert (Yaml.spaces n) :=
  isInert_of_not_mem fun h => absurd (List.eq_of_mem_replicate h) (by decide)

theorem isInert_gap (p : Yaml.Place) : b.IsInert p.gap := p.gap_eq_spaces ▸ isInert_spaces _

theorem isInert_tagLead (h : IsForeignTag b tag) : b.IsInert (tagLead tag) := by
  cases tag with
  | none => exact isInert_nil
  | some t => exact isInert_concat (h t rfl) (by decide) (by decide)

theorem isInert_opening (p : Yaml.Place) (h : IsForeignTag b tag) : b.IsInert (p.opening tag) := by
  cases tag with
  | none =>
    rw [Yaml.Place.opening]
    split
    · exact isInert_nil
    · exact isInert_of_not_mem (by decide)
  | some t =>
    rw [Yaml.Place.opening, List.append_assoc]
    exact (isInert_gap p).append (isInert_concat (h t rfl) (by decide) (by decide))

theorem not_infix_atom {w : Nat} {v : Value} {A : List Char} (hA : atomText? w v = some A)
    (h : ∀ s ∈ texts v, ¬ (marker b.number).toList <:+: s.toList) : ¬ (marker b.number).toList <:+: A :=
  HoldsAt.nil_iff.mp (holdsAt_atom hA (.of_free fun s hs => HoldsAt.nil_iff.mpr (h s hs)))

/-- A text without references that ends its line, or that the line is ended for. -/
theorem isInert_closeLine {cs : List Char} (h : ¬ b.CitesSome cs) : b.IsInert (closeLine cs) := by
  unfold closeLine
  split
  · rename_i hend
    obtain rfl | ⟨front, c, rfl⟩ := List.eq_nil_or_concat' cs
    · cases hend
    · rw [endsIn_concat] at hend
      have hc := isReferenceChar_of_isBreak hend
      have hdigit : isDecimalDigit c = false := by
        simp only [isReferenceChar, Bool.or_eq_false_iff] at hc
        exact hc.2
      refine isInert_concat (fun hcites => h (hcites.before hdigit [])) hc ?_
      rintro rfl
      cases hend
  · exact isInert_concat h (by decide) (by decide)

theorem isInert_leaf (p : Yaml.Place) {v : Value} {A : List Char} (hA : atomText? p.scalarWidth v = some A)
    (h : ∀ s ∈ texts v, ¬ (marker b.number).toList <:+: s.toList) (ht : IsForeignTag b tag) :
    b.IsInert (closeLine (p.gap ++ (tagLead tag ++ A))) :=
  isInert_closeLine fun hcites => not_citesSome_of_marker (not_infix_atom hA h)
    (isInert_tagLead ht _ (isInert_gap p _ hcites))

theorem isInert_key {key : Value} {text : List Char} (h : simpleKey? key = some text)
    (hkey : IsForeign b (texts key) (tags key)) : b.IsInert (text ++ [':']) := by
  obtain ⟨A, hA, rfl, -⟩ := simpleKey_spec h
  obtain ⟨htag, htexts⟩ := isForeign_untag hkey
  rw [List.append_assoc]
  exact (isInert_tagLead htag).append (isInert_concat_of_marker (not_infix_atom hA htexts) (by decide))

end Line

/-! ## Nodes -/

mutual

theorem isInert_node (p : Yaml.Place) (tag : Option String) (v : Value) (h : IsForeign b (texts v) (tags v))
    (ht : IsForeignTag b tag) : b.IsInert (nodeText p tag v) := by
  cases v with
  | tagged t v =>
    obtain ⟨htag, hv⟩ := h.of_tagged
    rw [nodeText]
    exact isInert_node p (some t) v hv fun u hu => Option.some.inj hu ▸ htag
  | sequence items =>
    cases items with
    | nil =>
      rw [nodeText_leaf rfl]
      exact isInert_leaf p rfl h.unmarked ht
    | cons v vs =>
      obtain ⟨hv, hvs⟩ := h.of_append
      rw [nodeText_sequence]
      exact (isInert_opening p ht).append ((isInert_spaces _).append ((isInert_char (c := '-') (by decide)).append
        ((isInert_node _ none v hv isForeignTag_none).append (isInert_items _ vs hvs))))
  | mapping entries =>
    cases entries with
    | nil =>
      rw [nodeText_leaf rfl]
      exact isInert_leaf p rfl h.unmarked ht
    | cons e es =>
      obtain ⟨he, hes⟩ := h.of_append
      rw [nodeText_mapping]
      exact (isInert_opening p ht).append ((isInert_spaces _).append
        ((isInert_entry _ e he).append (isInert_entries _ es hes)))
  | _ =>
    rw [nodeText_leaf rfl]
    exact isInert_leaf p rfl h.unmarked ht

theorem isInert_items (n : Nat) (vs : List Value) (h : IsForeign b (itemTexts vs) (itemTags vs)) :
    b.IsInert (itemsText n vs) := by
  cases vs with
  | nil => exact isInert_nil
  | cons v vs =>
    obtain ⟨hv, hvs⟩ := h.of_append
    rw [itemsText_cons]
    exact (isInert_spaces n).append ((isInert_char (c := '-') (by decide)).append
      ((isInert_node _ none v hv isForeignTag_none).append (isInert_items n vs hvs)))

theorem isInert_entry (n : Nat) (e : Value × Value) (h : IsForeign b (texts e.1 ++ texts e.2) (tags e.1 ++ tags e.2)) :
    b.IsInert (entryText n e) := by
  obtain ⟨key, v⟩ := e
  obtain ⟨hkey, hv⟩ := h.of_append
  rw [entryText]
  split
  · rw [List.append_cons]
    exact (isInert_key ‹_› hkey).append (isInert_node _ none v hv isForeignTag_none)
  · exact (isInert_char (c := '?') (by decide)).append ((isInert_node _ none key hkey isForeignTag_none).append
      ((isInert_spaces n).append ((isInert_char (c := ':') (by decide)).append (isInert_node _ none v hv isForeignTag_none))))

theorem isInert_entries (n : Nat) (es : List (Value × Value)) (h : IsForeign b (entryTexts es) (entryTags es)) :
    b.IsInert (entriesText n es) := by
  cases es with
  | nil => exact isInert_nil
  | cons e es =>
    obtain ⟨he, hes⟩ := h.of_append
    rw [entriesText_cons]
    exact (isInert_spaces n).append ((isInert_entry n e he).append (isInert_entries n es hes))

end

variable {b : Blocks} {indent n k : Nat} {alone : Bool} {p : Yaml.Place} {tag : Option String} {done part : List Char}

/-! ## The last line of a finished text -/

/-- Spaces and dashes are all that stands in the last line, up to column `n`. -/
def IsBare (n : Nat) (done : List Char) : Prop :=
  ∃ lead dashes, keyColumn lead dashes = n ∧ lastLine done = spaces lead ++ (List.replicate dashes ['-', ' ']).flatten

/-- Something stands in the last line that no `run` entry has in front of its colon. -/
def IsBusy (done : List Char) : Prop := ∃ c ∈ lastLine done, c ∉ [' ', '-', 'r', 'u', 'n']

def InFront (n : Nat) : Bool → List Char → Prop
  | true, done => IsBare n done
  | false, done => IsBusy done

def InFrontOf (p : Yaml.Place) : Bool → List Char → Prop
  | true, done =>
    match p with
    | .root => lastLine done = []
    | .item n => ∃ front, done = front ++ ['-'] ∧ IsBare n front
    | _ => False
  | false, done => IsBusy done

theorem IsBusy.append (h : IsBusy done) (hpart : '\n' ∉ part) : IsBusy (done ++ part) := by
  obtain ⟨c, hc, hbusy⟩ := h
  exact ⟨c, by rw [lastLine_append_of_not_mem done hpart]; exact List.mem_append_left _ hc, hbusy⟩

theorem isBusy_concat {c : Char} (h : c ∉ [' ', '-', 'r', 'u', 'n']) (hc : c ≠ '\n') (done : List Char) :
    IsBusy (done ++ [c]) :=
  ⟨c, by rw [lastLine_concat, if_neg hc]; simp, h⟩

theorem feed_not_mem_spaces (n : Nat) : '\n' ∉ spaces n := fun h => absurd (List.eq_of_mem_replicate h) (by decide)

theorem isBare_spaces (h : lastLine done = []) (n : Nat) : IsBare n (done ++ spaces n) := by
  refine ⟨n, 0, rfl, ?_⟩
  rw [lastLine_append_of_not_mem done (feed_not_mem_spaces n), h]
  simp

/-- Behind a part that ends a line, spaces are all that stands in front unless the line goes on for the source. -/
theorem inFront_spaces (h : endsIn isBreak part = true) (done : List Char) :
    InFront n (endsInFeed part) (done ++ (part ++ spaces n)) := by
  obtain rfl | ⟨front, c, rfl⟩ := List.eq_nil_or_concat' part
  · cases h
  · rw [endsIn_concat] at h
    rw [endsInFeed, endsIn_concat, ← List.append_assoc, ← List.append_assoc]
    by_cases hc : c = '\n'
    · subst hc
      exact isBare_spaces (lastLine_feed _) n
    · rw [decide_eq_false hc]
      refine IsBusy.append (isBusy_concat ?_ hc _) (feed_not_mem_spaces n)
      rintro hmem
      simp only [List.mem_cons, List.not_mem_nil, or_false] at hmem
      obtain rfl | rfl | rfl | rfl | rfl := hmem <;> cases h

theorem inFrontOf_item (h : InFront n alone done) : InFrontOf (.item n) alone (done ++ ['-']) := by
  cases alone with
  | true => exact ⟨done, rfl, h⟩
  | false => exact IsBusy.append h (by decide)

theorem inFront_opening (h : InFrontOf p alone done)
    (hn : p.startsLine tag = false → (p = .root → n = 0) ∧ ∀ m, p = .item m → n = m + 2) :
    InFront n (p.startsLine tag || alone) (done ++ p.opening tag ++ spaces (p.lead tag n)) := by
  cases hstart : p.startsLine tag with
  | true =>
    obtain ⟨cs, hcs⟩ := Yaml.Place.opening_of_startsLine hstart
    rw [Yaml.Place.lead, if_pos hstart, hcs, ← List.append_assoc]
    exact isBare_spaces (lastLine_feed _) n
  | false =>
    rw [Yaml.Place.lead, if_neg (by simp [hstart]), Yaml.Place.opening_of_continues hstart, List.append_nil]
    obtain ⟨hroot, hitem⟩ := hn hstart
    cases alone with
    | false =>
      exact IsBusy.append h (feed_not_mem_spaces _)
    | true =>
      cases p with
      | root =>
        rw [hroot rfl]
        exact isBare_spaces h 0
      | item m =>
        obtain ⟨front, rfl, lead, dashes, hcolumn, hline⟩ := h
        refine ⟨lead, dashes + 1, ?_, ?_⟩
        · rw [hitem m rfl, ← hcolumn]
          exact Nat.add_assoc lead (2 * dashes) 2
        · have hdash : '\n' ∉ ['-', ' '] := by decide
          rw [List.append_assoc]
          refine (lastLine_append_of_not_mem front hdash).trans ?_
          rw [hline, List.replicate_succ', List.flatten_append, List.append_assoc]
          simp
      | value m | slot m => cases h

theorem inFront_mapping (h : InFrontOf p alone done) (tag : Option String) :
    InFront p.mappingColumn (p.startsLine tag || alone)
      (done ++ p.opening tag ++ spaces (p.lead tag p.mappingColumn)) :=
  inFront_opening h fun _ => ⟨by rintro rfl; rfl, by rintro m rfl; rfl⟩

theorem inFront_sequence (h : InFrontOf p alone done) (tag : Option String) :
    InFront (p.sequenceColumn tag.isSome) (p.startsLine tag || alone)
      (done ++ p.opening tag ++ spaces (p.lead tag (p.sequenceColumn tag.isSome))) :=
  inFront_opening h fun _ => ⟨by rintro rfl; rfl, by rintro m rfl; rfl⟩

/-- The start of a `run` entry is told apart by what stands in front of the colon. -/
theorem InFront.ne_entryFront (h : InFront n alone done) (lead dashes : Nat) :
    lastLine (done ++ [':']) ≠ entryFront lead dashes := by
  have hfront : entryFront lead dashes =
      (spaces lead ++ ((List.replicate dashes ['-', ' ']).flatten ++ ['r', 'u', 'n'])) ++ [':'] := by
    simp [entryFront]
  have hmem {k l : Nat} {c : Char} (hc : c ∈ spaces k ++ (List.replicate l ['-', ' ']).flatten) :
      c = ' ' ∨ c = '-' := by
    simp only [spaces, List.mem_append, List.mem_replicate, List.mem_flatten] at hc
    obtain ⟨-, rfl⟩ | ⟨-, ⟨-, rfl⟩, hc⟩ := hc
    · exact .inl rfl
    · simpa [or_comm] using hc
  rw [lastLine_append_of_not_mem done (by decide), hfront]
  intro heq
  have hline := List.append_cancel_right heq
  rw [← List.append_assoc] at hline
  cases alone with
  | true =>
    obtain ⟨k, l, -, hbare⟩ := h
    have hr : 'r' ∈ spaces k ++ (List.replicate l ['-', ' ']).flatten := by
      rw [← hbare, hline]
      simp
    cases hmem hr <;> contradiction
  | false =>
    obtain ⟨c, hc, hbusy⟩ := h
    rw [hline] at hc
    obtain hc | hc := List.mem_append.mp hc
    · obtain rfl | rfl := hmem hc <;> simp at hbusy
    · exact hbusy (List.mem_cons_of_mem _ (List.mem_cons_of_mem _ hc))

/-! ## Scripts -/

theorem exists_reference_text (hp : p ≠ .root) (number i : Nat) : ∃ quote, IsQuote quote ∧
    nodeText p none (.string (reference number i)) =
      ' ' :: (quote ++ ((reference number i).toList ++ (quote ++ ['\n']))) := by
  obtain ⟨quote, hquote, htext⟩ := exists_scalarText_reference number i p.scalarWidth
  refine ⟨quote, hquote, ?_⟩
  have hgap : p.gap = [' '] := by
    cases p with
    | root => exact absurd rfl hp
    | _ => rfl
  have hbreak : ∀ c ∈ ' ' :: (quote ++ ((reference number i).toList ++ quote)), isBreak c = false := by
    have hsign : ∀ c ∈ quote, isBreak c = false := by
      obtain rfl | rfl | rfl := hquote <;> exact forall_mem_of_all (by decide)
    simp only [List.mem_cons, List.mem_append]
    rintro c (rfl | hc | hc | hc)
    · rfl
    · exact hsign c hc
    · exact isBreak_of_mem_reference hc
    · exact hsign c hc
  rw [nodeText_leaf (A := scalarText p.scalarWidth (reference number i)) rfl, htext, hgap, tagLead, List.nil_append,
    List.singleton_append, closeLine, if_neg (by rw [endsIn_line hbreak]; decide)]
  simp

theorem becomes_quotedText {i : Nat} {s : String} (hdone : b.IsInert (lastLine done)) (hs : b.scripts[i]? = some s)
    (hp : p ≠ .root) (hentry : ∀ lead dashes, lastLine done ≠ entryFront lead dashes) (n : Nat) :
    b.Becomes indent done (nodeText p none (.string (reference b.number i))) (scriptText indent n false s) := by
  obtain ⟨quote, hquote, htext⟩ := exists_reference_text hp b.number i
  rw [htext]
  exact becomes_quoted hdone hs hquote hentry

theorem becomes_blockText {i : Nat} {s : String} (hs : b.scripts[i]? = some s) (hp : p ≠ .root) {lead dashes : Nat}
    (hn : keyColumn lead dashes = n) (hline : lastLine done = entryFront lead dashes) :
    b.Becomes indent done (nodeText p none (.string (reference b.number i))) (scriptText indent n true s) := by
  obtain ⟨quote, hquote, htext⟩ := exists_reference_text hp b.number i
  rw [htext, ← hn]
  exact becomes_block hs hquote hline

theorem becomes_script {i : Nat} {key v : Value} {text : List Char} {s : String}
    (hdone : b.IsInert (lastLine (done ++ (text ++ [':'])))) (hs : b.scripts[i]? = some s)
    (hscript : script? key v = some s) (hkey : simpleKey? key = some text) (hfront : InFront n alone done) :
    b.Becomes indent (done ++ (text ++ [':'])) (nodeText (.value n) none (.string (reference b.number i)))
      (scriptText indent n (alone && isPlainRun key) s) := by
  have hfeed : '\n' ∉ text := fun h => absurd (isBreak_of_mem_simpleKey hkey _ h) (by decide)
  have hquoted (h : InFront n false (done ++ text)) (hno : (alone && isPlainRun key) = false) :
      b.Becomes indent (done ++ (text ++ [':'])) (nodeText (.value n) none (.string (reference b.number i)))
        (scriptText indent n (alone && isPlainRun key) s) := by
    rw [hno]
    refine becomes_quotedText (p := .value n) hdone hs (by simp) ?_ n
    rw [← List.append_assoc]
    exact h.ne_entryFront
  cases alone with
  | false => exact hquoted (IsBusy.append hfront hfeed) rfl
  | true =>
    obtain ⟨A, hA, rfl, -⟩ := simpleKey_spec hkey
    obtain ⟨-, hrun, -⟩ := script_eq_some.mp hscript
    cases key with
    | string t =>
      obtain rfl : t = "run" := by simpa [isRunKey] using hrun
      obtain rfl : A = "run".toList := by
        cases hA
        decide
      obtain ⟨lead, dashes, hcolumn, hline⟩ := hfront
      refine becomes_blockText (p := .value n) hs (by simp) hcolumn ?_
      rw [lastLine_append_of_not_mem done (by decide), hline, entryFront]
      simp [tagLead, untag]
    | tagged t v =>
      refine hquoted ⟨'!', ?_, by decide⟩ rfl
      obtain ⟨cs, hcs⟩ := Scanner.exists_tagText t
      rw [lastLine_append_of_not_mem done hfeed, untag, tagLead, hcs]
      simp
    | _ => cases hrun

/-! ## Nodes -/

theorem becomes_front {lead others restored : List Char} (hdone : b.IsInert (lastLine done)) (hlead : b.IsInert lead)
    (h : b.IsInert (lastLine (done ++ lead)) → b.Becomes indent (done ++ lead) others restored) :
    b.Becomes indent done (lead ++ others) (lead ++ restored) := by
  have hsame : b.Becomes indent done lead lead := becomes_inert hdone hlead
  exact hsame.append (h hsame.inert)

theorem becomes_members {lead first laid others restored : List Char} {next : Bool} (hdone : b.IsInert (lastLine done))
    (hlead : b.IsInert lead) (hat : InFront n alone (done ++ lead))
    (hnext : ∀ {done}, InFront n next (done ++ (laid ++ spaces n)))
    (hfirst : ∀ {done}, b.IsInert (lastLine done) → InFront n alone done → b.Becomes indent done first laid)
    (hothers : ∀ {done}, b.IsInert (lastLine done) → InFront n next (done ++ spaces n) →
      b.Becomes indent done others restored) :
    b.Becomes indent done (lead ++ (first ++ others)) (lead ++ (laid ++ restored)) := by
  refine becomes_front hdone hlead fun hinert => ?_
  have hmember := hfirst hinert hat
  refine hmember.append (hothers hmember.inert ?_)
  rw [List.append_assoc]
  exact hnext

theorem inFront_item {item : List Char} (h : endsIn isBreak item = true) (done : List Char) :
    InFront n (endsInFeed item) (done ++ ('-' :: item ++ spaces n)) := by
  have hfront := inFront_spaces (n := n) h (done ++ ['-'])
  rwa [List.append_assoc] at hfront

theorem becomes_item {item laid : List Char}
    (h : ∀ {done}, b.IsInert (lastLine done) → InFrontOf (.item n) alone done → b.Becomes indent done item laid)
    (hdone : b.IsInert (lastLine done)) (hat : InFront n alone done) :
    b.Becomes indent done ('-' :: item) ('-' :: laid) :=
  becomes_front hdone (isInert_char (c := '-') (by decide)) fun hinert => h hinert (inFrontOf_item hat)

theorem becomes_behindColon {text others restored : List Char} (hdone : b.IsInert (lastLine done))
    (htext : b.IsInert (text ++ [':'])) (h : b.IsInert (lastLine (done ++ (text ++ [':']))) →
      b.Becomes indent (done ++ (text ++ [':'])) others restored) :
    b.Becomes indent done (text ++ ':' :: others) (text ++ ':' :: restored) := by
  rw [List.append_cons text ':' others, List.append_cons text ':' restored]
  exact becomes_front hdone htext h

/-- The entry of a key that stands in front of its value, or behind a question mark. -/
theorem becomes_entry {i : Nat} {key v : Value} (hkey : IsForeign b (texts key) (tags key))
    (hscripts : HoldsFrom b i (markMember b.number i key v).2)
    (hvalue : ∀ {done}, ∀ p, HoldsFrom b i (markFrom b.number i v).2 → b.IsInert (lastLine done) →
      InFrontOf p false done →
      b.Becomes indent done (nodeText p none (markFrom b.number i v).1) (laidNode script? indent p false none v))
    (hdone : b.IsInert (lastLine done)) (hat : InFront n alone done) :
    b.Becomes indent done (entryText n (key, (markMember b.number i key v).1))
      (laidEntry script? indent n alone (key, v)) := by
  rw [entryText, laidEntry]
  cases htext : simpleKey? key with
  | some text =>
    refine becomes_behindColon hdone (isInert_key htext hkey) fun hinert => ?_
    unfold markMember at hscripts ⊢
    cases hscript : script? key v with
    | some s =>
      rw [hscript] at hscripts
      exact becomes_script hinert hscripts.get hscript htext hat
    | none =>
      rw [hscript] at hscripts
      refine hvalue (.value n) hscripts hinert ?_
      rw [← List.append_assoc]
      exact isBusy_concat (by decide) (by decide) _
  | none =>
    -- The key ends its line, so that the colon stands behind spaces only, or behind a line end that is no line feed.
    have hfront := inFront_spaces (n := n) (endsIn_nodeText (.slot n) none key) (done ++ ['?'])
    refine becomes_front hdone (isInert_char (c := '?') (by decide)) fun hmark => ?_
    refine becomes_front hmark (isInert_node (.slot n) none key hkey isForeignTag_none) fun hnode => ?_
    refine becomes_behindColon hnode ((isInert_spaces n).append (isInert_char (c := ':') (by decide))) fun hinert => ?_
    rw [← List.append_assoc] at hfront
    rw [← List.append_assoc] at hinert ⊢
    unfold markMember at hscripts ⊢
    cases hscript : script? key v with
    | some s =>
      rw [hscript] at hscripts
      exact becomes_quotedText (p := .slot n) hinert hscripts.get (by simp) hfront.ne_entryFront n
    | none =>
      rw [hscript] at hscripts
      exact hvalue (.slot n) hscripts hinert (isBusy_concat (by decide) (by decide) _)

mutual

theorem becomes_node (p : Yaml.Place) (alone : Bool) (tag : Option String) (i : Nat) (v : Value) (done : List Char)
    (hv : IsForeign b (texts v) (tags v)) (ht : IsForeignTag b tag)
    (hscripts : HoldsFrom b i (markFrom b.number i v).2) (hdone : b.IsInert (lastLine done))
    (hat : InFrontOf p alone done) :
    b.Becomes indent done (nodeText p tag (markFrom b.number i v).1) (laidNode script? indent p alone tag v) := by
  cases v with
  | tagged t v =>
    obtain ⟨htag, hv⟩ := hv.of_tagged
    rw [markFrom_tagged] at hscripts ⊢
    rw [nodeText, laidNode]
    exact becomes_node p alone (some t) i v done hv (fun u hu => Option.some.inj hu ▸ htag) hscripts hdone hat
  | sequence items =>
    cases items with
    | nil =>
      rw [markFrom_sequence, markItems, nodeText_leaf rfl, laidNode_leaf rfl]
      exact becomes_inert hdone (isInert_leaf p rfl hv.unmarked ht)
    | cons v vs =>
      obtain ⟨hv, hvs⟩ := hv.of_append
      rw [markFrom_sequence, markItems_cons] at hscripts ⊢
      obtain ⟨hfirst, hothers⟩ := hscripts.split
      rw [nodeText_sequence, laidNode, laidItems]
      refine becomes_front hdone (isInert_opening p ht) fun hopen => ?_
      exact becomes_members hopen (isInert_spaces _) (inFront_sequence hat tag) (inFront_item (endsIn_laidNode ..) _)
        (becomes_item fun hinert hin => becomes_node _ _ none i v _ hv isForeignTag_none hfirst hinert hin)
        fun hinert hin => becomes_items _ _ _ vs _ hvs hothers hinert hin
  | mapping entries =>
    cases entries with
    | nil =>
      rw [markFrom_mapping, markEntries, nodeText_leaf rfl, laidNode_leaf rfl]
      exact becomes_inert hdone (isInert_leaf p rfl hv.unmarked ht)
    | cons e es =>
      obtain ⟨he, hes⟩ := hv.of_append
      obtain ⟨hkey, hvalue⟩ := he.of_append
      rw [markFrom_mapping, markEntries_cons] at hscripts ⊢
      obtain ⟨hfirst, hothers⟩ := hscripts.split
      rw [nodeText_mapping, laidNode, laidEntries]
      refine becomes_front hdone (isInert_opening p ht) fun hopen => ?_
      exact becomes_members hopen (isInert_spaces _) (inFront_mapping hat tag) (inFront_spaces (endsIn_laidEntry ..) _)
        (becomes_entry hkey hfirst fun q hmark hinert hin =>
          becomes_node q false none i e.2 _ hvalue isForeignTag_none hmark hinert hin)
        fun hinert hin => becomes_entries _ _ _ es _ hes hothers hinert hin
  | _ =>
    rw [markFrom, nodeText_leaf rfl, laidNode_leaf rfl]
    · exact becomes_inert hdone (isInert_leaf p rfl hv.unmarked ht)
    all_goals simp

theorem becomes_items (n : Nat) (alone : Bool) (i : Nat) (vs : List Value) (done : List Char)
    (hvs : IsForeign b (itemTexts vs) (itemTags vs)) (hscripts : HoldsFrom b i (markItems b.number i vs).2)
    (hdone : b.IsInert (lastLine done)) (hat : InFront n alone (done ++ spaces n)) :
    b.Becomes indent done (itemsText n (markItems b.number i vs).1) (laidItems script? indent n n alone vs) := by
  cases vs with
  | nil =>
    rw [markItems, laidItems]
    exact becomes_inert hdone isInert_nil
  | cons v vs =>
    obtain ⟨hv, hvs⟩ := hvs.of_append
    rw [markItems_cons] at hscripts ⊢
    obtain ⟨hfirst, hothers⟩ := hscripts.split
    rw [itemsText_cons, laidItems]
    exact becomes_members hdone (isInert_spaces n) hat (inFront_item (endsIn_laidNode ..) _)
      (becomes_item fun hinert hin => becomes_node _ _ none i v _ hv isForeignTag_none hfirst hinert hin)
      fun hinert hin => becomes_items _ _ _ vs _ hvs hothers hinert hin

theorem becomes_entries (n : Nat) (alone : Bool) (i : Nat) (es : List (Value × Value)) (done : List Char)
    (hes : IsForeign b (entryTexts es) (entryTags es)) (hscripts : HoldsFrom b i (markEntries b.number i es).2)
    (hdone : b.IsInert (lastLine done)) (hat : InFront n alone (done ++ spaces n)) :
    b.Becomes indent done (entriesText n (markEntries b.number i es).1) (laidEntries script? indent n n alone es) := by
  cases es with
  | nil =>
    rw [markEntries, laidEntries]
    exact becomes_inert hdone isInert_nil
  | cons e es =>
    obtain ⟨he, hes⟩ := hes.of_append
    obtain ⟨hkey, hvalue⟩ := he.of_append
    rw [markEntries_cons] at hscripts ⊢
    obtain ⟨hfirst, hothers⟩ := hscripts.split
    rw [entriesText_cons, laidEntries]
    exact becomes_members hdone (isInert_spaces n) hat (inFront_spaces (endsIn_laidEntry ..) _)
      (becomes_entry hkey hfirst fun q hmark hinert hin =>
        becomes_node q false none i e.2 _ hvalue isForeignTag_none hmark hinert hin)
      fun hinert hin => becomes_entries _ _ _ es _ hes hothers hinert hin

end

/-- The text of a marked value with the scripts put back is the text of the value with its scripts. -/
theorem restore_nodeText (indent : Nat) (v : Value)
    (htags : ∀ t, shownTag t ∈ tags v → ¬ (mark v).2.CitesSome (tagText t)) :
    ((mark v).2.restore indent (String.ofList (nodeText .root none (mark v).1))).toList =
      laidNode script? indent .root true none v := by
  have hfresh : ∀ s ∈ texts v, ¬ (marker (mark v).2.number).toList <:+: s.toList := by
    intro s hs
    have hmarker := fresh_mark v s hs
    rwa [contains, Bool.eq_false_iff, ne_eq, occursIn_iff] at hmarker
  have hnode : (mark v).2.Becomes indent [] (nodeText .root none (mark v).1)
      (laidNode script? indent .root true none v) :=
    becomes_node .root true none 0 v [] ⟨hfresh, htags⟩ isForeignTag_none (List.prefix_refl _) isInert_nil rfl
  rw [toList_restore, String.toList_ofList, hnode.restoreText_eq]

end CiWorkflow.Render
