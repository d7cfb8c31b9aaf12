import CiWorkflow.Proofs.Json.Restore

set_option autoImplicit false

namespace CiWorkflow.Render

open Text Yaml Decimal Json

namespace Blocks

variable (b : Blocks)

/-! ## References to scripts -/

def named? (index : List Char) : Option String :=
  if index ≠ [] ∧ index.all Char.isDigit then b.scripts[digitsValue index]? else none

def citation (index : List Char) : List Char := (marker b.number).toList ++ ':' :: index

/-- The text refers to the script `s` behind `front`. The index goes as far as there are decimal digits, of
whatever alphabet. -/
structure Cites (cs front index back : List Char) (s : String) : Prop where
  text : cs = front ++ (b.citation index ++ back)
  maximal : back.head?.any isDecimalDigit = false
  named : b.named? index = some s

def CitesSome (cs : List Char) : Prop := ∃ front index back s, b.Cites cs front index back s

variable {b} {index : List Char} {s : String}

theorem named_eq_some : b.named? index = some s ↔
    index ≠ [] ∧ (∀ d ∈ index, d.isDigit = true) ∧ b.scripts[digitsValue index]? = some s := by
  rw [named?, Option.ite_none_right_eq_some, List.all_eq_true, and_assoc]

theorem areDigits_of_named (h : b.named? index = some s) : AreDigits index := by
  obtain ⟨hne, hall, -⟩ := named_eq_some.mp h
  exact ⟨hne, fun d hd => isDecimalDigit_of_isDigit d (hall d hd)⟩

theorem mem_scripts_of_named (h : b.named? index = some s) : s ∈ b.scripts :=
  List.mem_of_getElem? (named_eq_some.mp h).2.2

variable (b) in
theorem citation_eq (index : List Char) : b.citation index = spelled (Nat.toDigits 10 b.number) index := by
  simp [citation, spelled, marker]

theorem find_eq_some {number : List Char} (hi : index ≠ []) :
    b.find? number index = some s ↔ number = Nat.toDigits 10 b.number ∧ b.named? index = some s := by
  have hnumber : (toString b.number).toList = Nat.toDigits 10 b.number := by simp
  rw [named_eq_some, find?, hnumber]
  split
  · rename_i h
    simp only [Bool.and_eq_true, decide_eq_true_eq, List.all_eq_true] at h
    simp [h.1, hi, and_iff_right h.2]
  · rename_i h
    simp only [Bool.and_eq_true, decide_eq_true_eq, List.all_eq_true] at h
    simp only [reduceCtorEq, false_iff]
    exact fun h' => h ⟨h'.1, h'.2.2.1⟩

variable {cs front back : List Char}

theorem readReference_citation (h : b.named? index = some s) (hb : back.head?.any isDecimalDigit = false) :
    readReference? (b.citation index ++ back) = some (Nat.toDigits 10 b.number, index, back) := by
  rw [readReference_iff, citation_eq]
  exact ⟨rfl, areDigits_toDigits _, areDigits_of_named h, hb⟩

theorem exists_citation_tail (b : Blocks) (index : List Char) :
    ∃ tail, b.citation index = '_' :: '_' :: 'g' :: tail :=
  ⟨_, by rw [citation, toList_marker]; rfl⟩

theorem quote_not_mem_citation (h : b.named? index = some s) : '"' ∉ b.citation index := by
  intro hmem
  rw [citation_eq] at hmem
  rcases mem_spelled (areDigits_toDigits _) (areDigits_of_named h) hmem with hd | hs | hc
  · exact absurd hd (by decide)
  · exact absurd hs (by decide)
  · cases hc

theorem newline_not_mem_citation (h : b.named? index = some s) : '\n' ∉ b.citation index := by
  intro hmem
  rw [citation_eq] at hmem
  rcases mem_spelled (areDigits_toDigits _) (areDigits_of_named h) hmem with hd | hs | hc
  · exact absurd hd (by decide)
  · exact absurd hs (by decide)
  · cases hc

theorem Cites.behind (h : b.Cites cs front index back s) (before : List Char) :
    b.Cites (before ++ cs) (before ++ front) index back s :=
  ⟨by rw [h.text, List.append_assoc], h.maximal, h.named⟩

theorem Cites.of_behind (before : List Char) (h : b.Cites (before ++ cs) (before ++ front) index back s) :
    b.Cites cs front index back s := by
  refine ⟨?_, h.maximal, h.named⟩
  have htext := h.text
  rwa [List.append_assoc, List.append_cancel_left_eq] at htext

/-! ## Where a reference can start -/

def startsNowhere : List Char → List Char → Bool
  | [], _ => true
  | c :: rest, behind => !(['_', '_', 'g'].isPrefixOf (c :: rest ++ behind)) && startsNowhere rest behind

theorem startsNowhere_append (A A' B : List Char) :
    startsNowhere (A ++ A') B = (startsNowhere A (A' ++ B) && startsNowhere A' B) := by
  induction A with
  | nil => rfl
  | cons c A ih => simp only [List.cons_append, startsNowhere, ih, List.append_assoc, Bool.and_assoc]

theorem startsNowhere_of_not_mem {A : List Char} (h : '_' ∉ A) (B : List Char) : startsNowhere A B = true := by
  induction A with
  | nil => rfl
  | cons c A ih =>
    simp only [List.mem_cons, not_or] at h
    simp [startsNowhere, List.isPrefixOf, h.1, ih h.2]

theorem exists_front_of_startsNowhere {A B : List Char} (hA : startsNowhere A B = true)
    (h : b.Cites (A ++ B) front index back s) : ∃ front', front = A ++ front' := by
  induction A generalizing front with
  | nil => exact ⟨front, rfl⟩
  | cons c A ih =>
    simp only [startsNowhere, Bool.and_eq_true, Bool.not_eq_true'] at hA
    cases front with
    | nil =>
      obtain ⟨tail, htail⟩ := exists_citation_tail b index
      have htext := h.text
      rw [htail] at htext
      rw [htext] at hA
      simp [List.isPrefixOf] at hA
    | cons d front =>
      have htext := h.text
      rw [List.cons_append, List.cons_append, List.cons.injEq] at htext
      obtain ⟨rfl, htext⟩ := htext
      obtain ⟨front', rfl⟩ := ih hA.2 ⟨htext, h.maximal, h.named⟩
      exact ⟨front', rfl⟩

def IsQuote (cs : List Char) : Prop := cs = [] ∨ cs = ['"'] ∨ cs = ['\'']

theorem isQuote_of_isQuoteChar {c : Char} (h : isQuoteChar c = true) : IsQuote [c] := by
  rcases (by simpa [isQuoteChar] using h : c = '"' ∨ c = '\'') with rfl | rfl
  · exact .inr (.inl rfl)
  · exact .inr (.inr rfl)

theorem isQuote_takeQuote (cs : List Char) : IsQuote (takeQuote cs).1 := by
  cases cs with
  | nil => exact .inl rfl
  | cons c rest =>
    simp only [takeQuote]
    split
    · rename_i hc
      exact isQuote_of_isQuoteChar hc
    · exact .inl rfl

theorem IsQuote.not_mem {q : List Char} (h : IsQuote q) {c : Char} (hc : isQuoteChar c = false) : c ∉ q := by
  rcases h with rfl | rfl | rfl
  · simp
  · rw [List.mem_singleton]
    rintro rfl
    cases hc
  · rw [List.mem_singleton]
    rintro rfl
    cases hc

theorem takeQuote_of_isQuote {q : List Char} (h : IsQuote q) (cs : List Char)
    (hcs : cs.head?.any isQuoteChar = false) : takeQuote (q ++ cs) = (q, cs) := by
  rcases h with rfl | rfl | rfl
  · cases cs with
    | nil => rfl
    | cons c cs =>
      have hc : isQuoteChar c = false := by simpa using hcs
      simp [takeQuote, hc]
  · rfl
  · rfl

theorem head_takeQuote {cs : List Char} (h : (takeQuote cs).1 = []) :
    (takeQuote cs).2.head?.any isQuoteChar = false := by
  cases cs with
  | nil => rfl
  | cons c rest =>
    simp only [takeQuote] at h ⊢
    split at h
    · cases h
    · rename_i hc
      simp [hc]

theorem startsNowhere_spelled {number : List Char} (hn : AreDigits number) (hi : AreDigits index) {close : List Char}
    (hc : IsQuote close) (rest : List Char) :
    startsNowhere ((spelled number index).tail ++ close) rest = true := by
  have hmark : isDecimalDigit '_' = false := by decide
  have hnot {ds : List Char} (hds : AreDigits ds) : '_' ∉ ds := fun hm => by simp [hds.digits _ hm] at hmark
  obtain ⟨d, ds, rfl⟩ := List.exists_cons_of_ne_nil hn.nonempty
  have hd : '_' ≠ d := fun heq => hnot hn (List.mem_cons.mpr (.inl heq))
  have htail : (spelled (d :: ds) index).tail ++ close =
      "_ghaflow_block_".toList ++ ((d :: ds) ++ (['_', '_', ':'] ++ (index ++ close))) := by
    simp [spelled, markerStem]
  have hstem (X : List Char) : startsNowhere "_ghaflow_block_".toList (d :: X) = true := by
    simp [startsNowhere, List.isPrefixOf, hd]
  have hcolon (X : List Char) : startsNowhere ['_', '_', ':'] X = true := by
    simp [startsNowhere, List.isPrefixOf]
  have hlast : '_' ∉ index ++ close := by
    simp [hnot hi, hc.not_mem (c := '_') rfl]
  rw [htail, startsNowhere_append, startsNowhere_append, startsNowhere_append, startsNowhere_of_not_mem (hnot hn),
    hcolon, startsNowhere_of_not_mem hlast, List.cons_append, List.cons_append, hstem]
  rfl

/-- A reference either is the one that is read first, or starts behind it. -/
theorem front_cases {open' number close rest : List Char} {i : List Char} (hq : IsQuote open') (hn : AreDigits number)
    (hi : AreDigits i) (hc : IsQuote close)
    (h : b.Cites (open' ++ (spelled number i ++ (close ++ rest))) front index back s) :
    front = open' ∨ ∃ front', front = open' ++ (spelled number i ++ close) ++ front' := by
  obtain ⟨f, rfl⟩ := exists_front_of_startsNowhere
    (startsNowhere_of_not_mem (hq.not_mem (c := '_') rfl) (spelled number i ++ (close ++ rest))) h
  have hread := h.of_behind
  cases f with
  | nil => exact .inl (List.append_nil _)
  | cons c f =>
    refine .inr ?_
    have hsplit : spelled number i ++ (close ++ rest) = ['_'] ++ (((spelled number i).tail ++ close) ++ rest) := by
      simp [spelled, markerStem]
    obtain rfl : c = '_' := by
      have htext := hread.text
      rw [hsplit] at htext
      exact (List.cons.inj htext).1.symm
    rw [hsplit] at hread
    obtain ⟨f', rfl⟩ := exists_front_of_startsNowhere (startsNowhere_spelled hn hi hc rest)
      (Cites.of_behind ['_'] hread)
    exact ⟨f', by simp [spelled, markerStem]⟩

/-! ## Pieces of a line -/

/-- A part of a line that stays, or a reference with the quotes around it. -/
inductive Piece where
  | text (cs : List Char)
  | script (opening index closing : List Char) (s : String)

namespace Piece

def source (b : Blocks) : Piece → List Char
  | .text cs => cs
  | .script opening index closing _ => opening ++ (b.citation index ++ closing)

def shown : Piece → List Char
  | .text cs => cs
  | .script _ _ _ s => quoted s.toList

end Piece

def sources (b : Blocks) (ps : List Piece) : List Char := ps.flatMap (Piece.source b)

def EndsReference (cs : List Char) : Prop :=
  ∃ front number index, AreDigits number ∧ AreDigits index ∧ cs = front ++ spelled number index

theorem EndsReference.behind {cs : List Char} (h : EndsReference cs) (before : List Char) :
    EndsReference (before ++ cs) := by
  obtain ⟨front, number, index, hn, hi, rfl⟩ := h
  exact ⟨before ++ front, number, index, hn, hi, (List.append_assoc ..).symm⟩

/-- The pieces of a line: no reference starts in a part that stays, and each one that is replaced has the quotes
next to it taken along, one on either side, unless the quote in front closes what is spelled like a reference. -/
inductive Divides (b : Blocks) : List Char → List Piece → Prop
  | done : Divides b [] []
  | text {front rest : List Char} {ps : List Piece} :
    (∀ f i back s, b.Cites (front ++ rest) f i back s → ∃ f', f = front ++ f') →
      (∀ before q, front = before ++ [q] → isQuoteChar q = true → (∃ i back s, b.Cites rest [] i back s) →
        EndsReference before) →
      Divides b rest ps → Divides b (front ++ rest) (.text front :: ps)
  | script {opening index closing rest : List Char} {s : String} {ps : List Piece} :
    IsQuote opening → IsQuote closing → (closing = [] → rest.head?.any isQuoteChar = false) →
      b.Cites (opening ++ (b.citation index ++ (closing ++ rest))) opening index (closing ++ rest) s →
      Divides b rest ps →
      Divides b (opening ++ (b.citation index ++ (closing ++ rest))) (.script opening index closing s :: ps)

/-- A quote at the end of what is read as a reference stands behind its index. -/
theorem endsReference_of_quote {opening number index closing before : List Char} {q : Char} (hn : AreDigits number)
    (hi : AreDigits index) (hc : IsQuote closing) (hq : isQuoteChar q = true)
    (h : opening ++ (spelled number index ++ closing) = before ++ [q]) : EndsReference before := by
  cases hclosing : closing with
  | nil =>
    obtain ⟨ds, d, hds⟩ := (List.eq_nil_or_concat' index).resolve_left hi.nonempty
    have hlast : d = q := by
      have hend : opening ++ (spelled number index ++ closing) =
          (opening ++ (markerStem.toList ++ (number ++ ('_' :: '_' :: ':' :: ds)))) ++ [d] := by
        simp [hclosing, hds, spelled]
      exact List.singleton_inj.mp (List.append_inj' (hend.symm.trans h) rfl).2
    have hdigit : isDecimalDigit q = true := hi.digits q (by simp [hds, hlast])
    rcases (by simpa [isQuoteChar] using hq : q = '"' ∨ q = '\'') with rfl | rfl <;> exact absurd hdigit (by decide)
  | cons c rest =>
    obtain rfl : rest = [] := by
      rcases hc with rfl | rfl | rfl <;> cases hclosing <;> rfl
    rw [hclosing, ← List.append_assoc] at h
    exact ⟨opening, number, index, hn, hi, (List.append_inj' h rfl).1.symm⟩

/-- What is read as a reference: its quotes, its digits, and the script it stands for, if there is one. -/
theorem quotedScript_cases {b : Blocks} {cs rest : List Char} {text : Option (List Char)}
    (h : b.quotedScript? cs = some (text, rest)) :
    ∃ opening number index closing, cs = opening ++ (spelled number index ++ (closing ++ rest)) ∧
      IsQuote opening ∧ IsQuote closing ∧ (closing = [] → rest.head?.any isQuoteChar = false) ∧
      AreDigits number ∧ AreDigits index ∧ (closing ++ rest).head?.any isDecimalDigit = false ∧
      text = (b.find? number index).map fun s => quoted s.toList := by
  simp only [quotedScript?, Option.bind_eq_bind, Option.bind_eq_some_iff] at h
  obtain ⟨⟨number, index, behind⟩, hread, h⟩ := h
  obtain ⟨hsplit, hn, hi, hmaximal⟩ := readReference_iff.mp hread
  cases h
  refine ⟨(takeQuote cs).1, number, index, (takeQuote behind).1, ?_, isQuote_takeQuote cs, isQuote_takeQuote behind,
    head_takeQuote, hn, hi, ?_, rfl⟩
  · rw [← takeQuote_spec behind, ← hsplit]
    exact takeQuote_spec cs
  · rw [← takeQuote_spec behind]
    exact hmaximal

theorem quotedScript_citation {b : Blocks} {opening index back : List Char} {s : String} (ho : IsQuote opening)
    (h : b.Cites (b.citation index ++ back) [] index back s) :
    b.quotedScript? (opening ++ (b.citation index ++ back)) =
      some (some (quoted s.toList), (takeQuote back).2) := by
  have hquote : takeQuote (opening ++ (b.citation index ++ back)) = (opening, b.citation index ++ back) := by
    refine takeQuote_of_isQuote ho _ ?_
    obtain ⟨tail, htail⟩ := exists_citation_tail b index
    rw [htail]
    rfl
  have hfind := (find_eq_some (areDigits_of_named h.named).nonempty).mpr ⟨rfl, h.named⟩
  simp [quotedScript?, hquote, readReference_citation h.named h.maximal, hfind]

theorem exists_divides (b : Blocks) (cs : List Char) :
    ∃ ps, Divides b cs ps ∧ b.restoreInLine 0 true cs = ps.flatMap Piece.shown := by
  induction hlen : cs.length using Nat.strong_induction_on generalizing cs with
  | _ n ih =>
    cases cs with
    | nil => exact ⟨[], .done, rfl⟩
    | cons c cs =>
      cases hq : b.quotedScript? (c :: cs) with
      | none =>
        obtain ⟨ps, hps, hshown⟩ := ih cs.length (by simp at hlen; omega) cs rfl
        refine ⟨.text [c] :: ps, @Divides.text _ [c] _ _ (fun f i back s hcites => ?_) ?_ hps, ?_⟩
        · cases f with
          | cons d f => exact ⟨f, by rw [(List.cons.inj hcites.text).1]; rfl⟩
          | nil =>
            have htext : c :: cs = [] ++ (b.citation i ++ back) := hcites.text
            rw [htext, quotedScript_citation (.inl rfl) ⟨rfl, hcites.maximal, hcites.named⟩] at hq
            cases hq
        · -- A quote in front of a reference is read with it.
          rintro before q hfront hquote ⟨i, back, s, hcites⟩
          have hfront : [] ++ [c] = before ++ [q] := hfront
          obtain ⟨rfl, rfl⟩ : before = [] ∧ c = q := by simpa using List.append_inj' hfront rfl
          have ho : IsQuote [c] := isQuote_of_isQuoteChar hquote
          have htext : c :: cs = [c] ++ (b.citation i ++ back) := congrArg (c :: ·) hcites.text
          rw [htext, quotedScript_citation ho ⟨rfl, hcites.maximal, hcites.named⟩] at hq
          cases hq
        · rw [restoreInLine, hq, hshown]
          rfl
      | some r =>
        obtain ⟨text, rest⟩ := r
        obtain ⟨X, rfl⟩ := exists_tail_of_quotedScript b hq
        obtain ⟨ps, hps, hshown⟩ := ih rest.length (by simp at hlen; omega) rest rfl
        obtain ⟨opening, number, index, closing, hline, ho, hc, hgreedy, hn, hi, hmaximal, rfl⟩ := quotedScript_cases hq
        have hfront : c :: X = opening ++ (spelled number index ++ closing) := by
          rw [← List.append_left_inj rest]
          simpa using hline
        rw [restoreInLine_reference b hq, hline, hshown]
        cases hfind : b.find? number index with
        | none =>
          refine ⟨.text (c :: X) :: ps, ?_, rfl⟩
          rw [← hline]
          refine @Divides.text _ (c :: X) _ _ (fun f i back s hcites => ?_) (fun before q hend hquote _ => ?_) hps
          rotate_left
          · exact endsReference_of_quote hn hi hc hquote (hfront.symm.trans hend)
          rw [List.cons_append, hline] at hcites
          obtain rfl | ⟨f', rfl⟩ := front_cases ho hn hi hc hcites
          · -- The reference read here would be one of the scripts.
            have htext := hcites.text
            rw [List.append_cancel_left_eq] at htext
            have hread := readReference_citation hcites.named hcites.maximal
            rw [← htext, readReference_iff.mpr ⟨rfl, hn, hi, hmaximal⟩] at hread
            cases hread
            rw [(find_eq_some hi.nonempty).mpr ⟨rfl, hcites.named⟩] at hfind
            cases hfind
          · exact ⟨f', by rw [hfront, List.append_assoc]⟩
        | some s =>
          obtain ⟨rfl, hnamed⟩ := (find_eq_some hi.nonempty).mp hfind
          rw [← citation_eq]
          exact ⟨.script opening index closing s :: ps, .script ho hc hgreedy ⟨rfl, hmaximal, hnamed⟩ hps, rfl⟩

section Divides

variable {b : Blocks} {cs : List Char} {ps : List Piece}

theorem Divides.sources_eq (h : Divides b cs ps) : sources b ps = cs := by
  induction h with
  | done => rfl
  | text _ _ _ ih => exact congrArg _ ih
  | script _ _ _ _ _ ih =>
    rw [sources, List.flatMap_cons, ← sources, ih]
    simp [Piece.source]

theorem Divides.cites_iff (h : Divides b cs ps) {front index back : List Char} {s : String} :
    b.Cites cs front index back s ↔
      ∃ pre opening closing post, ps = pre ++ .script opening index closing s :: post ∧
        front = sources b pre ++ opening ∧ back = closing ++ sources b post := by
  induction h generalizing front with
  | done =>
    constructor
    · intro h
      obtain ⟨tail, htail⟩ := exists_citation_tail b index
      have htext := h.text
      rw [htail] at htext
      simp at htext
    · rintro ⟨pre, opening, closing, post, h, -⟩
      simp at h
  | @text X rest ps hstart _ hps ih =>
    constructor
    · intro h
      obtain ⟨f, rfl⟩ := hstart _ _ _ _ h
      obtain ⟨pre, opening, closing, post, rfl, rfl, rfl⟩ := ih.mp h.of_behind
      exact ⟨.text X :: pre, opening, closing, post, rfl, by simp [sources, Piece.source], rfl⟩
    · rintro ⟨pre, opening, closing, post, h, rfl, rfl⟩
      cases pre with
      | nil => simp at h
      | cons p pre =>
        rw [List.cons_append, List.cons.injEq] at h
        obtain ⟨rfl, rfl⟩ := h
        have hrest := (ih.mpr ⟨pre, opening, closing, post, rfl, rfl, rfl⟩).behind X
        simpa [sources, Piece.source] using hrest
  | @script opening i closing rest t ps ho hc _ hcites hps ih =>
    have hn : AreDigits (Nat.toDigits 10 b.number) := areDigits_toDigits _
    have hi : AreDigits i := areDigits_of_named hcites.named
    constructor
    · intro h
      rw [citation_eq] at h
      obtain rfl | ⟨f, rfl⟩ := front_cases ho hn hi hc h
      · rw [← citation_eq] at h
        have hthis := readReference_citation hcites.named hcites.maximal
        have hother := readReference_citation h.named h.maximal
        have htext := h.text
        rw [List.append_cancel_left_eq] at htext
        rw [← htext, hthis] at hother
        cases hother
        obtain rfl : t = s := by simpa [hcites.named] using h.named
        exact ⟨[], front, closing, ps, rfl, rfl, by rw [hps.sources_eq]⟩
      · have hrest : b.Cites rest f index back s := by
          refine Cites.of_behind (opening ++ (spelled (Nat.toDigits 10 b.number) i ++ closing)) ?_
          simpa using h
        obtain ⟨pre, opening', closing', post, rfl, rfl, rfl⟩ := ih.mp hrest
        refine ⟨.script opening i closing t :: pre, opening', closing', post, rfl, ?_, rfl⟩
        simp [sources, Piece.source, citation_eq]
    · rintro ⟨pre, opening', closing', post, h, rfl, rfl⟩
      cases pre with
      | nil =>
        cases h
        rw [hps.sources_eq]
        exact hcites
      | cons p pre =>
        rw [List.cons_append, List.cons.injEq] at h
        obtain ⟨rfl, rfl⟩ := h
        have hrest := (ih.mpr ⟨pre, opening', closing', post, rfl, rfl, rfl⟩).behind
          (opening ++ (b.citation i ++ closing))
        simpa [sources, Piece.source] using hrest

theorem Divides.isQuote (h : Divides b cs ps) {opening index closing : List Char} {s : String}
    (hp : .script opening index closing s ∈ ps) : IsQuote opening ∧ IsQuote closing := by
  induction h with
  | done => cases hp
  | text _ _ _ ih =>
    obtain hp | hp := List.mem_cons.mp hp
    · cases hp
    · exact ih hp
  | script ho hc _ _ _ ih =>
    obtain hp | hp := List.mem_cons.mp hp
    · cases hp
      exact ⟨ho, hc⟩
    · exact ih hp

/-- A quote stays in front of a reference only where it closes what is spelled like another one. -/
theorem Divides.endsReference (h : Divides b cs ps) {pre post : List Piece} {index closing : List Char} {s : String}
    (hps : ps = pre ++ .script [] index closing s :: post) {before : List Char} {q : Char}
    (hpre : sources b pre = before ++ [q]) (hq : isQuoteChar q = true) : EndsReference before := by
  induction h generalizing pre before with
  | done => simp at hps
  | @text X rest ps hstart hquote hrest ih =>
    cases pre with
    | nil => simp at hps
    | cons p pre =>
      rw [List.cons_append, List.cons.injEq] at hps
      obtain ⟨rfl, rfl⟩ := hps
      have hpre : X ++ sources b pre = before ++ [q] := hpre
      obtain hnil | ⟨L, d, hL⟩ := List.eq_nil_or_concat' (sources b pre)
      · rw [hnil, List.append_nil] at hpre
        exact hquote before q hpre hq
          ⟨index, _, s, hrest.cites_iff.mpr ⟨pre, [], closing, post, rfl, by rw [hnil]; rfl, rfl⟩⟩
      · rw [hL, ← List.append_assoc] at hpre
        obtain ⟨rfl, hd⟩ := List.append_inj' hpre rfl
        exact (ih rfl (hL.trans (congrArg _ hd))).behind X
  | @script opening i closing' rest t ps ho hc _ hcites hrest ih =>
    cases pre with
    | nil => simp [sources] at hpre
    | cons p pre =>
      rw [List.cons_append, List.cons.injEq] at hps
      obtain ⟨rfl, rfl⟩ := hps
      have hpre : (opening ++ (b.citation i ++ closing')) ++ sources b pre = before ++ [q] := hpre
      obtain hnil | ⟨L, d, hL⟩ := List.eq_nil_or_concat' (sources b pre)
      · rw [hnil, List.append_nil, citation_eq] at hpre
        exact endsReference_of_quote (areDigits_toDigits _) (areDigits_of_named hcites.named) hc hq hpre
      · rw [hL, ← List.append_assoc] at hpre
        obtain ⟨rfl, hd⟩ := List.append_inj' hpre rfl
        exact (ih rfl (hL.trans (congrArg _ hd))).behind _

theorem Divides.head_post (h : Divides b cs ps) {pre post : List Piece} {opening index : List Char} {s : String}
    (hps : ps = pre ++ .script opening index [] s :: post) : (sources b post).head?.any isQuoteChar = false := by
  induction h generalizing pre with
  | done => simp at hps
  | text _ _ _ ih =>
    cases pre with
    | nil => simp at hps
    | cons p pre => exact ih (List.cons.inj hps).2
  | script _ _ hgreedy _ hrest ih =>
    cases pre with
    | nil =>
      cases hps
      rw [hrest.sources_eq]
      exact hgreedy rfl
    | cons p pre => exact ih (List.cons.inj hps).2

/-- The references of a line to scripts with the quotes next to them, and the parts of the line between them. -/
structure Replaces (b : Blocks) (line : List Char) (ps : List Piece) : Prop where
  whole : sources b ps = line
  cites : ∀ front index back s, b.Cites line front index back s ↔
    ∃ pre opening closing post, ps = pre ++ .script opening index closing s :: post ∧
      front = sources b pre ++ opening ∧ back = closing ++ sources b post
  quotes : ∀ opening index closing s, .script opening index closing s ∈ ps → IsQuote opening ∧ IsQuote closing
  opens : ∀ pre index closing s post before q, ps = pre ++ .script [] index closing s :: post →
    sources b pre = before ++ [q] → isQuoteChar q = true → EndsReference before
  closes : ∀ pre opening index s post, ps = pre ++ .script opening index [] s :: post →
    (sources b post).head?.any isQuoteChar = false

theorem Divides.replaces (h : Divides b cs ps) : Replaces b cs ps where
  whole := h.sources_eq
  cites _ _ _ _ := h.cites_iff
  quotes _ _ _ _ := h.isQuote
  opens _ _ _ _ _ _ _ hps hpre hq := h.endsReference hps hpre hq
  closes _ _ _ _ _ hps := h.head_post hps

/-! ## No reference is left -/

/-- The text in front stays when another part stands in front of the rest. -/
theorem exists_behind_part {X whole rest front back : List Char} (hback : back.head?.any isDecimalDigit = false)
    (hfront : '"' ∉ front) (heq : X ++ whole = front ++ back)
    (h : ∀ f, '"' ∉ f → whole = f ++ back → ∃ r, rest = f ++ r ∧ r.head?.any isDecimalDigit = false) :
    ∃ r, X ++ rest = front ++ r ∧ r.head?.any isDecimalDigit = false := by
  obtain ⟨f, rfl, hwhole⟩ | ⟨x, rfl, rfl⟩ := List.append_eq_append_iff.mp heq
  · simp only [List.mem_append, not_or] at hfront
    obtain ⟨r, rfl, hhead⟩ := h f hfront.2 hwhole
    exact ⟨r, (List.append_assoc ..).symm, hhead⟩
  · cases x with
    | nil =>
      obtain ⟨r, hr, hhead⟩ := h [] (by simp) rfl
      exact ⟨r, by simpa using hr, hhead⟩
    | cons c x => exact ⟨(c :: x) ++ rest, by simp, hback⟩

/-- What stands in front of the first quote of a restored line stands in front of the line. -/
theorem Divides.exists_sources (h : Divides b cs ps) {back : List Char} (hback : back.head?.any isDecimalDigit = false)
    (front : List Char) (hfront : '"' ∉ front) (heq : ps.flatMap Piece.shown = front ++ back) :
    ∃ rest, cs = front ++ rest ∧ rest.head?.any isDecimalDigit = false := by
  induction h generalizing front with
  | done =>
    obtain ⟨rfl, rfl⟩ := List.append_eq_nil_iff.mp heq.symm
    exact ⟨[], rfl, rfl⟩
  | text _ _ _ ih => exact exists_behind_part hback hfront heq ih
  | @script opening i closing rest t ps ho =>
    cases front with
    | nil =>
      refine ⟨_, rfl, ?_⟩
      obtain ⟨tail, htail⟩ := exists_citation_tail b i
      rw [htail]
      rcases ho with rfl | rfl | rfl
      · exact (by decide : isDecimalDigit '_' = false)
      · exact (by decide : isDecimalDigit '"' = false)
      · exact (by decide : isDecimalDigit '\'' = false)
    | cons c front =>
      obtain rfl : '"' = c := (List.cons.inj heq).1
      simp at hfront

/-- A text in quotes refers to a script only if the text holds the marker. -/
theorem marker_of_quoted {t : String} {front y : List Char} (hnamed : b.named? index = some s)
    (h : quoted t.toList = front ++ (b.citation index ++ y)) : (marker b.number).toList <:+: t.toList := by
  by_contra hfresh
  refine not_refers_quoted t.toList hfresh ⟨front, Nat.toDigits 10 b.number, index, y, ?_, areDigits_toDigits _,
    areDigits_of_named hnamed, ?_⟩
  · rw [h, citation_eq]
  · rw [(find_eq_some (areDigits_of_named hnamed).nonempty).mpr ⟨rfl, hnamed⟩]
    rfl

/-- A restored line refers to no script, since the scripts themselves do not hold the marker. -/
theorem Divides.not_citesSome (h : Divides b cs ps)
    (hfresh : ∀ s ∈ b.scripts, ¬ (marker b.number).toList <:+: s.toList) :
    ¬ b.CitesSome (ps.flatMap Piece.shown) := by
  induction h with
  | done =>
    rintro ⟨front, index, back, s, hc⟩
    obtain ⟨tail, htail⟩ := exists_citation_tail b index
    have htext := hc.text
    simp [htail] at htext
  | @text X rest ps hstart _ hrest ih =>
    rintro ⟨front, index, back, s, hc⟩
    have htext : X ++ ps.flatMap Piece.shown = front ++ (b.citation index ++ back) := hc.text
    obtain ⟨f, rfl, heq⟩ | ⟨x, rfl, heq⟩ := List.append_eq_append_iff.mp htext
    · exact ih ⟨f, index, back, s, heq, hc.maximal, hc.named⟩
    · -- The reference starts in the part that stays, so it stands in the line as well.
      obtain ⟨r, hr, hhead⟩ := exists_behind_part hc.maximal (quote_not_mem_citation hc.named) heq.symm
        (hrest.exists_sources hc.maximal)
      obtain ⟨f, hf⟩ := hstart front index r s ⟨by rw [List.append_assoc, hr], hhead, hc.named⟩
      obtain ⟨rfl, -⟩ : x = [] ∧ f = [] := by simpa using hf
      exact ih ⟨[], index, back, s, heq.symm, hc.maximal, hc.named⟩
  | @script opening i closing rest t ps ho _ _ hcites _ ih =>
    rintro ⟨front, index, back, s, hc⟩
    have htext : quoted t.toList ++ ps.flatMap Piece.shown = front ++ (b.citation index ++ back) := hc.text
    obtain ⟨f, -, heq⟩ | ⟨x, hx, heq⟩ := List.append_eq_append_iff.mp htext
    · exact ih ⟨f, index, back, s, heq, hc.maximal, hc.named⟩
    · obtain rfl | ⟨x', q, rfl⟩ := List.eq_nil_or_concat' x
      · exact ih ⟨[], index, back, s, heq.symm, hc.maximal, hc.named⟩
      · obtain ⟨y, hy, -⟩ | ⟨y, hy, -⟩ := List.append_eq_append_iff.mp heq
        · rw [hy] at hx
          exact hfresh t (mem_scripts_of_named hcites.named) (marker_of_quoted hc.named hx)
        · -- The reference would hold the quote at the end of the script.
          have hend : ('"' :: t.toList.flatMap Json.escape) ++ ['"'] = (front ++ x') ++ [q] := by
            rw [List.append_assoc, ← hx]
            rfl
          obtain rfl : '"' = q := List.singleton_inj.mp (List.append_inj' hend rfl).2
          refine quote_not_mem_citation hc.named ?_
          rw [hy]
          simp

end Divides

end Blocks

end CiWorkflow.Render
