import CiWorkflow.Proofs.Yaml.LiteralLines
import CiWorkflow.Proofs.Yaml.Number
import CiWorkflow.Proofs.Yaml.Represents

/-!
# Scalars and empty collections as they are written

A node that holds no other nodes is a word, a text in quotes or a pair of brackets, with or without a tag in front of
it. It stands at the end of its line, or in front of the colon that makes it a key.

What is written of a value that holds no other values stands for the value, except that a NaN stands for any. A text of
several lines is a literal block; everything else fits in a key or at the end of a line.
-/
set_option autoImplicit false

namespace CiWorkflow.Yaml

open Position

/-! ## Nodes on one line -/

/-- The text of a node that holds no other nodes and is no block, with its tokens. -/
inductive IsAtomText : List Char → List Token → Prop
  | plain {A : List Char} : IsPlain A → IsAtomText A [.scalar .plain (String.ofList A)]
  | quoted {A s : List Char} : IsQuoted A s → endsIn isBreak A = false →
    IsAtomText A [.scalar .quoted (String.ofList s)]
  | sequence : IsAtomText ['[', ']'] [.flowSequence, .flowSequenceEnd]
  | mapping : IsAtomText ['\x7b', '\x7d'] [.flowMapping, .flowMappingEnd]

theorem endsIn_concat (p : Char → Bool) (cs : List Char) (c : Char) : endsIn p (cs ++ [c]) = p c := by
  simp [endsIn]

theorem endsIn_append {cs : List Char} (h : cs ≠ []) (p : Char → Bool) (front : List Char) :
    endsIn p (front ++ cs) = endsIn p cs := by
  obtain ⟨others, c, rfl⟩ := (List.eq_nil_or_concat' cs).resolve_left h
  rw [← List.append_assoc, endsIn_concat, endsIn_concat]

theorem endsIn_behind {p : Char → Bool} {cs : List Char} (h : endsIn p cs = true) (front : List Char) :
    endsIn p (front ++ cs) = true := by
  rw [endsIn_append _ p front, h]
  rintro rfl
  cases h

theorem IsAtomText.open_line {A : List Char} {us : List Token} (h : IsAtomText A us) :
    A ≠ [] ∧ endsIn isBreak A = false := by
  cases h with
  | plain h =>
    refine ⟨h.nonempty, Bool.eq_false_iff.mpr fun hend => ?_⟩
    obtain ⟨c, hc, hb⟩ := (Option.any_eq_true _ _).mp hend
    rw [h.oneLine c (List.mem_of_getLast? hc)] at hb
    cases hb
  | quoted h hend =>
    obtain ⟨c, tail, read, rfl, -⟩ := h
    exact ⟨List.cons_ne_nil c tail, hend⟩
  | sequence => exact ⟨by simp, by decide⟩
  | mapping => exact ⟨by simp, by decide⟩

def tagLead : Option String → List Char
  | some t => tagText t ++ [' ']
  | none => []

theorem isBreak_of_mem_taggedLine (tag : Option String) {A : List Char} (h : ∀ c ∈ A, isBreak c = false) :
    ∀ c ∈ tagLead tag ++ A, isBreak c = false := by
  intro c hc
  obtain hc | hc := List.mem_append.mp hc
  · cases tag with
    | none => cases hc
    | some t =>
      obtain hc | hc := List.mem_append.mp hc
      · exact isBreak_of_mem_tagText hc
      · rw [List.mem_singleton.mp hc]
        rfl
  · exact h c hc

namespace Scanner

variable {cols : List Nat} {key : Option PossibleKey} {allowed : Bool} {ts us : List Token} {q : Position}
  {A rest : List Char} {k : Nat}

/-! ### At the end of a line -/

theorem leads_bracketsLine {c b : Char} {opening closing : Token} (hl : EndsLine cols key q k)
    (hc : opensToken c = true) (hb : opensToken b = true)
    (hopen : ∀ (u : Scanner) (q : Position) rest, u.token? (q.cell c) rest = u.openBracket? opening)
    (hclose : ∀ (u : Scanner) (q : Position) rest, u.token? (q.cell b) rest = u.closeBracket? closing) :
    Leads (outside cols key allowed ts q (spaces k ++ ([c, b] ++ '\n' :: rest)))
      (outside cols none true (closing :: opening :: ts) (((q.after (spaces k)).after [c, b]).next '\n') rest) := by
  refine ((hl.mayStart hc).leads_emptyBrackets hb ?_ hopen hclose).trans (leads_newLine fun x hx => ?_)
  · exact .of_optional fun x hx => (hl.saved x hx).1
  · obtain ⟨hrequired, hearly⟩ := hl.saved x (mem_of_mem_keepFresh hx)
    refine ⟨hrequired, hearly.trans ?_⟩
    have hle := after_line_le q (spaces k ++ [c, b])
    rwa [after_append] at hle

theorem leads_atomLine (allowed : Bool) (ts : List Token) (h : IsAtomText A us) (hl : EndsLine cols key q k)
    (hrest : Follows cols.head? rest) :
    Leads (outside cols key allowed ts q (spaces k ++ (A ++ '\n' :: rest)))
      (outside cols none true (us.reverse ++ ts) (((q.after (spaces k)).after A).next '\n') rest) := by
  cases h with
  | plain h => exact leads_plainLine h hl hrest
  | quoted h _ => exact leads_quotedLine h hl
  | sequence =>
    exact leads_bracketsLine hl rfl rfl (fun u q rest => token_openSequence u q rest)
      fun u q rest => token_closeSequence u q rest
  | mapping =>
    exact leads_bracketsLine hl rfl rfl (fun u q rest => token_openMapping u q rest)
      fun u q rest => token_closeMapping u q rest

/-- Behind the tag of a node at the end of a line stands a node at the end of the line. -/
theorem exists_behindTag {tag : Option String} (allowed : Bool) (ts : List Token) (ht : LegibleTag tag)
    (hl : EndsLine cols key q k) :
    ∃ (key' : Option PossibleKey) (allowed' : Bool) (q' : Position) (k' : Nat), EndsLine cols key' q' k' ∧
      q'.after (spaces k') = (q.after (spaces k)).after (tagLead tag) ∧
      ∀ X, Leads (outside cols key allowed ts q (spaces k ++ (tagLead tag ++ X)))
        (outside cols key' allowed' ((tagTokens tag).reverse ++ ts) q' (spaces k' ++ X)) := by
  cases tag with
  | none => exact ⟨key, allowed, q, k, hl, rfl, fun X => .refl _⟩
  | some t =>
    have hbreak : ∀ c ∈ tagText t, isBreak c = false := fun c hc => isBreak_of_mem_tagText hc
    refine ⟨saved cols (keepFresh ((q.after (spaces k)).cell '!') key) allowed ts (q.after (spaces k)), false,
      (q.after (spaces k)).after (tagText t), 1, ⟨fun m hm => ?_, fun x hx => ?_, fun x hx => ?_⟩, ?_, fun X => ?_⟩
    · have hin := hl.inside m hm
      rw [after_of_no_break _ _ hbreak, after_spaces]
      simp only
      omega
    · exact (hl.saved x hx).1
    · refine (hl.saved x hx).2.trans ?_
      rw [← after_append]
      exact after_line_le q _
    · simp [tagLead, spaces]
    · have hleads : Leads (outside cols key allowed ts q (spaces k ++ (tagText t ++ ' ' :: X))) _ :=
        leads_tag (hl.mayStart rfl) (ht t rfl) rfl
      simpa [tagLead, tagTokens, spaces] using hleads

theorem leads_taggedLine {tag : Option String} (allowed : Bool) (ts : List Token) (ht : LegibleTag tag)
    (h : IsAtomText A us) (hl : EndsLine cols key q k) (hrest : Follows cols.head? rest) :
    Leads (outside cols key allowed ts q (spaces k ++ (tagLead tag ++ (A ++ '\n' :: rest))))
      (outside cols none true ((tagTokens tag ++ us).reverse ++ ts)
        ((((q.after (spaces k)).after (tagLead tag)).after A).next '\n') rest) := by
  obtain ⟨key', allowed', q', k', hl', hq, hleads⟩ := exists_behindTag allowed ts ht hl
  have hline := leads_atomLine allowed' ((tagTokens tag).reverse ++ ts) h hl' hrest
  rw [hq] at hline
  simpa using (hleads _).trans hline

/-! ### In a key -/

theorem leads_bracketsKey {c b : Char} {opening closing : Token} (hk : InKey cols key allowed q k 2)
    (hc : opensToken c = true) (hb : opensToken b = true)
    (hopen : ∀ (u : Scanner) (q : Position) rest, u.token? (q.cell c) rest = u.openBracket? opening)
    (hclose : ∀ (u : Scanner) (q : Position) rest, u.token? (q.cell b) rest = u.closeBracket? closing) :
    Leads (outside cols key allowed ts q (spaces k ++ ([c, b] ++ rest)))
      (outside cols (saved cols key allowed ts (q.after (spaces k))) false (closing :: opening :: ts)
        ((q.after (spaces k)).after [c, b]) rest) := by
  have hnext : ∀ x ∈ saved cols key allowed ts (q.after (spaces k)),
      isStale (((q.after (spaces k)).next c).cell b) x = false := by
    intro x hx
    have hcell := next_of_not_break (q.after (spaces k)) c (isBreak_of_opensToken c hc)
    unfold Scanner.saved at hx
    split at hx
    · cases hx
      simp [isStale, possibleKey, hcell]
    · obtain ⟨hline, hindex⟩ := hk.near x hx
      have hfar : ¬ x.index + 1024 < q.index + k + 1 := by omega
      simp only [after_spaces] at hcell
      simp [isStale, hcell, after_spaces, hline, hfar]
  have hleads : Leads (outside cols key allowed ts q (spaces k ++ c :: b :: rest)) _ :=
    (hk.mayStart hc).leads_emptyBrackets hb (by rw [hk.keepFresh]; exact fun x hx _ => hnext x hx) hopen hclose
  rw [hk.keepFresh, keepFresh_eq_self hnext] at hleads
  exact hleads

theorem leads_atomKey (ts : List Token) (h : IsAtomText A us) (hk : InKey cols key allowed q k A.length)
    (hrest : endsWord rest = true) :
    Leads (outside cols key allowed ts q (spaces k ++ (A ++ ':' :: rest)))
      (outside cols (saved cols key allowed ts (q.after (spaces k))) false (us.reverse ++ ts)
        ((q.after (spaces k)).after A) (':' :: rest)) := by
  cases h with
  | plain h => exact leads_plainKey h hk hrest
  | quoted h _ => exact leads_quotedKey h hk (by simp)
  | sequence =>
    exact leads_bracketsKey hk rfl rfl (fun u q rest => token_openSequence u q rest)
      fun u q rest => token_closeSequence u q rest
  | mapping =>
    exact leads_bracketsKey hk rfl rfl (fun u q rest => token_openMapping u q rest)
      fun u q rest => token_closeMapping u q rest

/-- A node, with its tag if it has one, in front of the colon of the key that starts with it. -/
theorem leads_taggedKey {tag : Option String} (ht : LegibleTag tag) (h : IsAtomText A us)
    (hcols : ∀ m ∈ cols.head?, m ≤ (q.after (spaces k)).column) (hlength : (tagLead tag ++ A).length ≤ 1024)
    (hrest : endsWord rest = true) :
    Leads (outside cols none true ts q (spaces k ++ (tagLead tag ++ (A ++ ':' :: rest))))
      (outside cols (some (possibleKey cols ts (q.after (spaces k)))) false ((tagTokens tag ++ us).reverse ++ ts)
        (((q.after (spaces k)).after (tagLead tag)).after A) (':' :: rest)) := by
  have hnone : InKey cols none true q k A.length := ⟨hcols, by simp, by simp⟩
  cases tag with
  | none => exact leads_atomKey ts h hnone hrest
  | some t =>
    have hbreak : ∀ c ∈ tagText t, isBreak c = false := fun c hc => isBreak_of_mem_tagText hc
    have htag : Leads (outside cols none true ts q (spaces k ++ (tagText t ++ ' ' :: (A ++ ':' :: rest)))) _ :=
      leads_tag (hnone.mayStart rfl) (ht t rfl) rfl
    have hafter := after_of_no_break (q.after (spaces k)) _ hbreak
    have hkey : InKey cols (some (possibleKey cols ts (q.after (spaces k)))) false
        ((q.after (spaces k)).after (tagText t)) 1 A.length := by
      refine ⟨fun m hm => ?_, by simp, ?_⟩
      · have hin := hcols m hm
        rw [hafter, after_spaces]
        simp only
        omega
      · rintro x ⟨⟩
        simp only [tagLead, List.length_append, List.length_singleton] at hlength
        rw [hafter]
        simp only [possibleKey, true_and]
        omega
    have hatom := leads_atomKey (tagToken t :: ts) h hkey hrest
    simpa [tagLead, tagTokens, saved, spaces] using htag.trans hatom

/-- A key with its colon, which opens the mapping that it is the first key of. -/
theorem leads_simpleKey {tag : Option String} {cols' : List Nat} {ts' : List Token} (ht : LegibleTag tag)
    (h : IsAtomText A us) (hbreak : ∀ c ∈ A, isBreak c = false) (hlength : (tagLead tag ++ A).length ≤ 1024)
    (ho : Opened (q.after (spaces k)).column .blockMapping cols ts cols' ts') (hrest : endsWord rest = true) :
    Leads (outside cols none true ts q (spaces k ++ (tagLead tag ++ (A ++ ':' :: rest))))
      (outside cols' none false (.value :: ((tagTokens tag ++ us).reverse ++ .key :: ts'))
        ((((q.after (spaces k)).after (tagLead tag)).after A).next ':') rest) := by
  have hafter := after_of_no_break (q.after (spaces k)) _ (isBreak_of_mem_taggedLine tag hbreak)
  refine (leads_taggedKey ht h ho.le hlength hrest).trans ?_
  rw [← after_append, hafter]
  refine leads_keyColon ho (Nat.le_add_right _ _) ?_ hrest
  have hfar : ¬ (q.after (spaces k)).index + 1024 < (q.after (spaces k)).index + (tagLead tag ++ A).length := by omega
  simp only [isStale, possibleKey, cell_line, cell_index, Nat.lt_irrefl, decide_false, Bool.false_or]
  exact decide_eq_false hfar

end Scanner

/-! ## What stands for a value -/

open Decimal Value

/-! ### Numbers -/

theorem hasSyntax_of_not_mem {cs : List Char} (hcolon : ':' ∉ cs) (hhash : '#' ∉ cs) (afterBlank : Bool) :
    hasSyntax afterBlank cs = false := by
  induction cs generalizing afterBlank with
  | nil => rfl
  | cons c cs ih =>
    simp only [List.mem_cons, not_or] at hcolon hhash
    simp [hasSyntax, Ne.symm hcolon.1, Ne.symm hhash.1, ih hcolon.2 hhash.2]

theorem isPrintable_of_isNumberChar {c : Char} (h : isNumberChar c = true) : isPrintable c = true := by
  simp only [isNumberChar, isFractionMark, Bool.or_eq_true, decide_eq_true_eq] at h
  obtain ((h | rfl | rfl) | rfl) | rfl := h
  · have hrange : 48 ≤ c.toNat ∧ c.toNat ≤ 57 := by
      simpa [Char.isDigit, UInt32.le_iff_toNat_le] using h
    simp only [isPrintable, Bool.or_eq_true, Bool.and_eq_true, decide_eq_true_eq]
    omega
  all_goals decide

/-- A text that starts with a digit starts with no mark of something else. -/
theorem opensSyntax_of_isDigit {d : Char} (h : d.isDigit = true) (tail : List Char) :
    opensSyntax (d :: tail) = false := by
  have hdigit {x : Char} : x.isDigit = false → d ≠ x := Render.ne_of_isDigit h
  have hindicator : indicators.contains d = false := by
    rw [List.contains_eq_mem, decide_eq_false_iff_not]
    have hall : ∀ x ∈ indicators, x.isDigit = false := Text.forall_mem_of_all (by decide)
    exact fun hmem => hdigit (hall d hmem) rfl
  unfold opensSyntax
  split
  · exact absurd (by assumption) fun heq => hdigit (x := '-') rfl (List.cons.inj heq).1
  · exact absurd (by assumption) fun heq => hdigit (x := '.') rfl (List.cons.inj heq).1
  · rename_i heq
    cases heq
    simp [hdigit (x := '?') rfl, hdigit (x := ':') rfl, hdigit (x := '-') rfl]
    simpa using hindicator
  · rfl

theorem IsNumberText.opens {A : List Char} (h : IsNumberText A) : A ≠ [] ∧ opensSyntax A = false := by
  obtain ⟨negative, d, tail, rfl, hd, -⟩ := h
  cases negative with
  | true =>
    have hdigit {x : Char} : x.isDigit = false → d ≠ x := Render.ne_of_isDigit hd
    have hbreak : isBreak d = false := by
      refine Bool.eq_false_iff.mpr fun hb => ?_
      simp only [isBreak, Bool.or_eq_true, decide_eq_true_eq] at hb
      rcases hb with (((rfl | rfl) | rfl) | rfl) | rfl <;> exact absurd hd (by decide)
    have hword : endsWord (d :: tail) = false := by
      simp [endsWord, isSpaceOrTab, hbreak, hdigit (x := ' ') rfl, hdigit (x := '\t') rfl]
    exact ⟨by simp [signed], by simp [signed, opensSyntax, indicators, hdigit (x := '-') rfl, hword]⟩
  | false => exact ⟨by simp [signed], opensSyntax_of_isDigit hd tail⟩

theorem isPlain_of_isNumberText {A : List Char} (h : IsNumberText A) : IsPlain A := by
  have hchars := h.chars
  have hne {x : Char} (hx : isNumberChar x = false) : x ∉ A := fun hmem => by
    rw [hchars x hmem] at hx
    cases hx
  have hspace : ∀ c ∈ A, isSpace c = false := by
    intro c hc
    refine decide_eq_false ?_
    rintro rfl
    exact hne rfl hc
  have hbreak : ∀ c ∈ A, isBreak c = false := fun c hc => by
    have hwordy := isWordy_of_numberChar c (hchars c hc)
    simp only [isWordy, Bool.and_eq_true, Bool.not_eq_true'] at hwordy
    exact hwordy.1.1.1.2
  refine ⟨h.opens.1, fun c hc => isPrintable_of_isNumberChar (hchars c hc), hbreak, ?_, ?_, h.opens.2, ?_⟩
  · refine Bool.eq_false_iff.mpr fun hstart => ?_
    obtain ⟨c, hc, hs⟩ := (Option.any_eq_true _ _).mp hstart
    rw [hspace c (List.mem_of_mem_head? hc)] at hs
    cases hs
  · refine Bool.eq_false_iff.mpr fun hstop => ?_
    obtain ⟨c, hc, hs⟩ := (Option.any_eq_true _ _).mp hstop
    rw [hspace c (List.mem_of_getLast? hc)] at hs
    cases hs
  · exact hasSyntax_of_not_mem (fun hc => hne rfl (List.mem_of_mem_drop hc))
      (fun hc => hne rfl (List.mem_of_mem_drop hc)) false

theorem eq_infinity_of_kind {x : Binary64} {negative : Bool} (h : x.kind = .infinite negative) :
    x = .infinity negative := by
  have hlt : x.bits.toNat < 2 ^ 64 := x.bits.toNat_lt
  simp only [Binary64.kind] at h
  split at h
  · rename_i hfield
    split at h
    · rename_i hfraction
      cases h
      have hmagnitude : x.magnitude = 2047 * Nat.pow 2 52 := by
        rw [← Nat.div_add_mod x.magnitude (Nat.pow 2 52), hfield, hfraction, Nat.add_zero, Nat.mul_comm]
      have hbits : x.bits.toNat = 2047 * Nat.pow 2 52 + if x.isNegative then Nat.pow 2 63 else 0 := by
        have hpow : Nat.pow 2 63 = 9223372036854775808 := rfl
        simp only [Binary64.magnitude, Binary64.isNegative, hpow, decide_eq_true_eq] at hmagnitude ⊢
        have hfew : Nat.pow 2 52 = 4503599627370496 := rfl
        split <;> omega
      rw [Binary64.infinity, Binary64.ofMagnitude, ← hbits, UInt64.ofNat_toNat]
    · cases h
  · split at h <;> cases h

/-! ### Texts -/

theorem wantedStyle_spec {s : String} (h : wantedStyle s ≠ .literal) :
    '\n' ∉ s.toList ∧ (wantedStyle s = .plain → meaning s = .text) := by
  unfold wantedStyle at h ⊢
  by_cases hfeed : s.toList.contains '\n' = true
  · rw [if_pos hfeed] at h
    exact absurd rfl h
  · rw [if_neg hfeed]
    refine ⟨by simpa using hfeed, fun hwanted => ?_⟩
    split at hwanted
    · rename_i hplain
      simp only [Bool.and_eq_true, decide_eq_true_eq] at hplain
      exact hplain.1
    · cases hwanted

theorem style_spec (s : String) :
    match style s with
    | .plain => allowsPlain s.toList = true ∧ meaning s = .text
    | .single => allowsSingle s.toList = true ∧ '\n' ∉ s.toList
    | .double => True
    | .literal => allowsLiteral s.toList = true := by
  have hspec := @wantedStyle_spec s
  unfold style
  cases hwanted : wantedStyle s with
  | literal =>
    by_cases hliteral : allowsLiteral s.toList = true <;> simp [hliteral]
  | plain =>
    obtain ⟨hfeed, hmeaning⟩ := hspec (by simp [hwanted])
    by_cases hplain : allowsPlain s.toList = true
    · simp [hplain, hmeaning hwanted]
    · by_cases hsingle : allowsSingle s.toList = true
      · simp [hplain, hsingle, hfeed]
      · simp [hplain, hsingle]
  | single =>
    obtain ⟨hfeed, -⟩ := hspec (by simp [hwanted])
    by_cases hsingle : allowsSingle s.toList = true <;> simp [hsingle, hfeed]
  | double => simp

def Means (us : List Token) (v : Value) : Prop :=
  ∀ bare tag, LegibleTag tag → Represents bare (tagTokens tag ++ us) (v.under tag)

theorem means_scalar {form : ScalarForm} {text : String} {v : Value} (h : scalarValue? none form text = some v) :
    Means [.scalar form text] v := fun _ _ ht => represents_scalar ht h

theorem means_text (form : ScalarForm) (h : form ≠ .plain) (cs : List Char) :
    Means [.scalar form (String.ofList cs)] (.string (String.ofList cs)) :=
  means_scalar (by rw [scalarValue?, if_neg h])

theorem exists_textAtom {s : String} {w : Nat} (hstyle : style s ≠ .literal)
    (hw : s.toList.any isBreak = true → w ≠ 0) :
    ∃ us, IsAtomText (scalarText w s) us ∧ Means us (.string s) := by
  have hspec := style_spec s
  have hquoted {A : List Char} (h : IsQuoted A s.toList) (hend : endsIn isBreak A = false) :
      ∃ us, IsAtomText A us ∧ Means us (.string s) := by
    refine ⟨_, .quoted h hend, ?_⟩
    have hmeans := means_text .quoted (by decide) s.toList
    rwa [String.ofList_toList] at hmeans ⊢
  unfold scalarText
  cases h : style s with
  | plain =>
    rw [h] at hspec
    refine ⟨_, .plain (isPlain_of_allowsPlain hspec.1), means_scalar ?_⟩
    rw [String.ofList_toList, scalarValue?, if_pos rfl, hspec.2]
    rfl
  | single =>
    rw [h] at hspec
    exact hquoted (isQuoted_singleQuoted hspec.1 hspec.2 hw) (endsIn_concat _ _ _)
  | double => exact hquoted (isQuoted_doubleQuoted s.toList) (endsIn_concat _ _ _)
  | literal => exact absurd h hstyle

/-! ### Everything on one line -/

theorem exists_wordAtom {A : List Char} {v : Value} {m : Meaning} (h : IsPlain A)
    (hm : meaning (String.ofList A) = m) (hv : m.value? (String.ofList A) = some v) :
    ∃ us, IsAtomText A us ∧ Means us v :=
  ⟨_, .plain h, means_scalar (by rw [scalarValue?, if_pos rfl, hm, hv])⟩

theorem isPlain_float (x : Binary64) : IsPlain (floatLayout.write x).toList := by
  cases h : x.kind with
  | nan =>
    have htext : floatLayout.write x = ".nan" := by rw [Layout.write, h]; rfl
    rw [htext]
    exact isPlain_of_allowsPlain (by decide)
  | infinite negative =>
    have htext : floatLayout.write x = if negative then "-.inf" else ".inf" := by rw [Layout.write, h]; rfl
    rw [htext]
    cases negative <;> exact isPlain_of_allowsPlain (by decide)
  | finite negative m e => exact isPlain_of_isNumberText (isNumberText_float floatLayout rfl x negative m e h)

theorem exists_floatAtom (x : Binary64) :
    ∃ us, IsAtomText (floatLayout.write x).toList us ∧ Means us (Value.float x).withOneNan := by
  have hplain := isPlain_float x
  cases h : x.kind with
  | nan =>
    have htext : floatLayout.write x = ".nan" := by rw [Layout.write, h]; rfl
    have hnan : (Value.float x).withOneNan = .float .nan := by simp [withOneNan, Binary64.isNan, h]
    rw [htext] at hplain ⊢
    rw [hnan]
    exact exists_wordAtom (m := .float .nan) hplain (by decide +kernel) rfl
  | infinite negative =>
    have hx : (Value.float x).withOneNan = .float (.infinity negative) := by
      rw [withOneNan, Binary64.isNan, h, ← eq_infinity_of_kind h]
      rfl
    have htext : floatLayout.write x = if negative then "-.inf" else ".inf" := by rw [Layout.write, h]; rfl
    rw [htext] at hplain ⊢
    rw [hx]
    cases negative with
    | false => exact exists_wordAtom (m := .float (.infinity false)) hplain (by decide +kernel) rfl
    | true => exact exists_wordAtom (m := .float (.infinity true)) hplain (by decide +kernel) rfl
  | finite negative m e =>
    have hx : (Value.float x).withOneNan = .float x := by simp [withOneNan, Binary64.isNan, h]
    rw [hx]
    refine exists_wordAtom (m := .float x) hplain ?_ rfl
    rw [String.ofList_toList, meaning_float floatLayout rfl x negative m e h]

/-- What is written of a value that holds no other values stands for it, but for a literal block. -/
theorem exists_atom {w : Nat} {v : Value} {A : List Char} (hA : atomText? w v = some A) (hv : v.inRange = true)
    (hs : ∀ s, v = .string s → style s ≠ .literal ∧ (s.toList.any isBreak = true → w ≠ 0)) :
    ∃ us, IsAtomText A us ∧ Means us v.withOneNan := by
  unfold atomText? at hA
  split at hA <;> cases hA
  · exact exists_wordAtom (m := .null) (isPlain_of_allowsPlain (by decide)) (by decide +kernel) rfl
  · rename_i b
    cases b with
    | false => exact exists_wordAtom (m := .bool false) (isPlain_of_allowsPlain (by decide)) (by decide +kernel) rfl
    | true => exact exists_wordAtom (m := .bool true) (isPlain_of_allowsPlain (by decide)) (by decide +kernel) rfl
  · rename_i n
    obtain ⟨hlow, hhigh⟩ : -2 ^ 63 ≤ n ∧ n < 2 ^ 64 := by simpa [inRange] using hv
    refine exists_wordAtom (m := .int n) (isPlain_of_isNumberText (isNumberText_int n)) ?_ rfl
    rw [String.ofList_toList, meaning_int n hlow hhigh]
  · exact exists_floatAtom _
  · obtain ⟨hstyle, hw⟩ := hs _ rfl
    exact exists_textAtom hstyle hw
  · exact ⟨_, .sequence, fun _ _ ht => represents_emptySequence ht⟩
  · exact ⟨_, .mapping, fun _ _ ht => represents_emptyMapping ht⟩

end CiWorkflow.Yaml
