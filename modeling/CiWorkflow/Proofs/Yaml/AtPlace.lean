import CiWorkflow.Proofs.Yaml.SimpleKey

/-!
# Nodes at their places

A node stands at the root, behind a key and its colon, or behind the mark of an entry. There a scalar is read with the
rest of its line, and a collection up to the mark of its first entry. What is read ends a line and stands for a value.
The items of a sequence and the entries of a mapping are read one after another, each up to the end of a line. The
first of them may open the collection, and what follows the last of them closes it.
-/
set_option autoImplicit false

namespace CiWorkflow.Yaml

open Position Value
open Render (chompText)

namespace Place

def around : Place → Option Nat
  | .root => none
  | .value n => some n
  | .item n => some n
  | .slot n => some n

/-- Whether a sequence may stand in the column of the mapping around it. -/
def bare : Place → Bool
  | .root => false
  | .value _ => true
  | .item _ => false
  | .slot _ => true

def startsLine (p : Place) (tag : Option String) : Bool := tag.isSome || !p.continuesLine

/-- What stands in front of the first entry of a collection, spaces aside. -/
def opening (p : Place) (tag : Option String) : List Char :=
  match tag with
  | some t => p.gap ++ tagText t ++ ['\n']
  | none => if p.continuesLine then [] else ['\n']

/-- The spaces in front of the first entry of a collection in column `n`. -/
def lead (p : Place) (tag : Option String) (n : Nat) : Nat := if p.startsLine tag then n else p.gap.length

theorem gap_eq_spaces (p : Place) : p.gap = spaces p.gap.length := by
  cases p <;> rfl

theorem opening_of_startsLine {p : Place} {tag : Option String} (h : p.startsLine tag = true) :
    ∃ cs, p.opening tag = cs ++ ['\n'] := by
  cases tag with
  | none =>
    have hcontinues : p.continuesLine = false := by simpa [startsLine] using h
    exact ⟨[], by rw [opening, hcontinues]; rfl⟩
  | some t => exact ⟨_, rfl⟩

theorem opening_of_continues {p : Place} {tag : Option String} (h : p.startsLine tag = false) : p.opening tag = [] := by
  simp only [startsLine, Bool.or_eq_false_iff, Bool.not_eq_false'] at h
  cases tag with
  | none => rw [opening, if_pos h.2]
  | some t => cases h.1

end Place

namespace Scanner

variable {p : Place} {tag : Option String} {cols : List Nat} {allowed bare : Bool} {ts : List Token} {q : Position}
  {T rest : List Char} {v : Value} {n : Nat}

structure AtPlace (p : Place) (cols : List Nat) (q : Position) : Prop where
  around : cols.head? = p.around
  column : match p with
    | .root => q.column = 0
    | .value n => n < q.column
    | .item n => q.column = n + 1
    | .slot n => q.column = n + 1

theorem AtPlace.endsLine (h : AtPlace p cols q) : EndsLine cols none q p.gap.length := by
  refine ⟨fun m hm => ?_, by simp, by simp⟩
  obtain ⟨haround, hcolumn⟩ := h
  rw [haround] at hm
  rw [after_spaces]
  cases p with
  | root => cases hm
  | value n | item n | slot n =>
    cases hm
    simp only [Place.gap, List.length_singleton] at hcolumn ⊢
    omega

/-! ## Whole nodes -/

/-- The text is read as a value, up to the end of a line. -/
structure Reads (bare : Bool) (cols : List Nat) (allowed : Bool) (ts : List Token) (q : Position) (T rest : List Char)
    (v : Value) : Prop where
  ended : endsIn isBreak T = true
  reads : ∃ us, Represents bare us v ∧ Leads (outside cols none allowed ts q (T ++ rest))
    (outside cols none true (us.reverse ++ ts) (q.after T) rest)

theorem column_after_of_endsIn (h : endsIn isBreak T = true) (q : Position) : (q.after T).column = 0 := by
  have hne : T ≠ [] := by
    rintro rfl
    cases h
  obtain ⟨front, c, rfl⟩ := (List.eq_nil_or_concat' T).resolve_left hne
  rw [endsIn_concat] at h
  rw [after_append, after_cons, after_nil, next_of_break _ c h]

def EndsTwice (T : List Char) : Prop := ∃ front c d, T = front ++ [c, d] ∧ isBreak c = true ∧ isBreak d = true

theorem EndsTwice.behind (h : EndsTwice T) (front : List Char) : EndsTwice (front ++ T) := by
  obtain ⟨others, c, d, rfl, hc, hd⟩ := h
  exact ⟨front ++ others, c, d, by simp, hc, hd⟩

theorem endsIn_closeLine (cs : List Char) : endsIn isBreak (closeLine cs) = true := by
  unfold closeLine
  split
  · assumption
  · rw [endsIn_concat]
    rfl

theorem reads_atom {A : List Char} {us : List Token} (hA : IsAtomText A us) (hv : Means us v) (ht : LegibleTag tag)
    (hat : AtPlace p cols q) (hrest : Follows cols.head? rest) :
    Reads bare cols allowed ts q (p.gap ++ (tagLead tag ++ (A ++ ['\n']))) rest (v.under tag) := by
  refine ⟨?_, tagTokens tag ++ us, hv bare tag ht, ?_⟩
  · rw [← List.append_assoc, ← List.append_assoc, endsIn_concat]
    rfl
  · have hleads := leads_taggedLine allowed ts ht hA hat.endsLine hrest
    rw [← Place.gap_eq_spaces] at hleads
    simpa using hleads

theorem exists_indentLines_concat (w : Nat) (fresh : Bool) (front : List Char) (d : Char) :
    ∃ X, indentLines w fresh (front ++ [d]) = X ++ [d] := by
  induction front generalizing fresh with
  | nil =>
    rw [List.nil_append, indentLines]
    split
    · exact ⟨[], rfl⟩
    · exact ⟨_, rfl⟩
  | cons c front ih =>
    obtain ⟨X, hX⟩ := ih (isBreak c)
    rw [List.cons_append, indentLines_cons, hX]
    exact ⟨indentLines w fresh [c] ++ X, by simp⟩

theorem endsIn_indentLines (w : Nat) (fresh : Bool) (cs : List Char) :
    endsIn isBreak (indentLines w fresh cs) = endsIn isBreak cs := by
  obtain rfl | ⟨front, d, rfl⟩ := List.eq_nil_or_concat' cs
  · rfl
  · obtain ⟨X, hX⟩ := exists_indentLines_concat w fresh front d
    rw [hX, endsIn_concat, endsIn_concat]

/-- The lines of a block that is kept whole end in two line ends, that of its header counted. -/
theorem endsTwice_blockText {cs : List Char} (h : Chomps cs .keep) (w : Nat) :
    EndsTwice ('\n' :: blockText w .keep cs) := by
  obtain ⟨front, d, rfl, hd, hfront⟩ := h
  have htext : blockText w .keep (front ++ [d]) = indentLines w true front ++ [d] := by
    simp [blockText, indentLines_concat _ _ hd]
  rw [htext]
  obtain rfl | hlast := hfront
  · exact ⟨[], '\n', d, rfl, rfl, hd⟩
  · obtain rfl | ⟨others, c, rfl⟩ := List.eq_nil_or_concat' front
    · cases hlast
    · rw [endsIn_concat] at hlast
      exact ⟨'\n' :: indentLines w true others, c, d, by simp [indentLines_concat _ _ hlast], hlast, hd⟩

theorem reads_literal {cs : List Char} (hcs : IsLiteral cs) (ht : LegibleTag tag) (hat : AtPlace p cols q)
    (hrest : Follows cols.head? rest)
    (hfeed : rest = ['\n'] → ¬ EndsTwice (closeLine (p.gap ++ (tagLead tag ++ literalBlock p.scalarWidth cs)))) :
    Reads bare cols allowed ts q (closeLine (p.gap ++ (tagLead tag ++ literalBlock p.scalarWidth cs))) rest
      (.under tag (.string (String.ofList cs))) := by
  obtain ⟨chomp, hchomp, hclosed⟩ := closed_literalBlock hcs.nonempty p.scalarWidth
  have hlast : endsIn isBreak (p.gap ++ (tagLead tag ++ literalBlock p.scalarWidth cs)) = endsIn isBreak cs := by
    have hne := hcs.nonempty
    have hlines : indentLines p.scalarWidth true cs ≠ [] := by
      obtain ⟨c, cs, rfl⟩ := List.exists_cons_of_ne_nil hne
      rw [indentLines]
      split <;> simp
    rw [literalBlock, List.append_cons, ← List.append_assoc, ← List.append_assoc, endsIn_append hlines,
      endsIn_indentLines]
  have htext : closeLine (p.gap ++ (tagLead tag ++ literalBlock p.scalarWidth cs)) =
      p.gap ++ (tagLead tag ++
        '|' :: (indentHint cs ++ (chompText chomp ++ '\n' :: blockText p.scalarWidth chomp cs))) := by
    rw [← hclosed, closeLine, hlast]
    split <;> simp
  have hwidth : p.scalarWidth = cols.head?.getD 0 + 2 := by
    rw [hat.around]
    cases p <;> rfl
  have hcolumn : ∀ n ∈ cols.head?, n < p.scalarWidth := by
    intro n hn
    rw [hwidth, show cols.head? = some n from hn]
    exact Nat.lt_add_of_pos_right (by decide)
  have hhint : indentHint cs = [] ∨ ∃ d : Char, indentHint cs = [d] ∧ d.isDigit = true ∧ d ≠ '0' :=
    (indentHint_cases cs).imp_right fun h => ⟨'2', h, rfl, by decide⟩
  refine ⟨endsIn_closeLine _, tagTokens tag ++ [.scalar .literal (String.ofList cs)],
    means_text .literal (by decide) cs bare tag ht, ?_⟩
  obtain ⟨key', allowed', q', k', hl', hq, hleads⟩ := exists_behindTag allowed ts ht hat.endsLine
  have hblock := leads_blockText allowed' ((tagTokens tag).reverse ++ ts) hl' hhint
    (contentColumn_literalBlock hcs hwidth chomp rest _) hcolumn (hwidth ▸ Nat.succ_pos _)
    (fun c hc => keepsChar_of_printable (hcs.printable c hc)) hchomp hrest (fun hkeep heq => by
      subst hkeep
      refine hfeed heq ?_
      rw [htext]
      have htwice := ((endsTwice_blockText hchomp p.scalarWidth).behind
        ('|' :: (indentHint cs ++ chompText .keep))).behind (p.gap ++ tagLead tag)
      simpa using htwice)
  rw [hq] at hblock
  rw [htext]
  rw [← Place.gap_eq_spaces] at hleads hblock
  simpa using (hleads _).trans hblock

theorem reads_leaf {A : List Char} (hA : atomText? p.scalarWidth v = some A) (hv : v.inRange = true)
    (ht : LegibleTag tag) (hat : AtPlace p cols q) (hrest : Follows cols.head? rest)
    (hfeed : rest = ['\n'] → ¬ EndsTwice (closeLine (p.gap ++ (tagLead tag ++ A)))) :
    Reads bare cols allowed ts q (closeLine (p.gap ++ (tagLead tag ++ A))) rest (v.withOneNan.under tag) := by
  by_cases hliteral : ∃ s, v = .string s ∧ style s = .literal
  · obtain ⟨s, rfl, hstyle⟩ := hliteral
    have hspec := style_spec s
    rw [hstyle] at hspec
    have htext : A = literalBlock p.scalarWidth s.toList := by
      have hscalar : scalarText p.scalarWidth s = literalBlock p.scalarWidth s.toList := by
        unfold scalarText
        rw [hstyle]
      rw [← hscalar]
      exact (Option.some.inj hA).symm
    rw [htext] at hfeed ⊢
    have hreads : Reads bare cols allowed ts q _ rest _ :=
      reads_literal (isLiteral_of_allowsLiteral hspec) ht hat hrest hfeed
    rwa [String.ofList_toList] at hreads
  · obtain ⟨us, hatom, hmeans⟩ := exists_atom hA hv fun s hs =>
      ⟨fun hstyle => hliteral ⟨s, hs, hstyle⟩, fun _ => by cases p <;> exact Nat.succ_ne_zero _⟩
    have hclose : closeLine (p.gap ++ (tagLead tag ++ A)) = p.gap ++ (tagLead tag ++ (A ++ ['\n'])) := by
      have hopen : endsIn isBreak (p.gap ++ (tagLead tag ++ A)) = false := by
        rw [← List.append_assoc, endsIn_append hatom.open_line.1, hatom.open_line.2]
      rw [closeLine, hopen]
      simp
    rw [hclose]
    exact reads_atom hatom hmeans ht hat hrest

/-! ## In front of the entries of a collection -/

theorem leads_opening (ts : List Token) (ht : LegibleTag tag) (hat : AtPlace p cols q) (X : List Char) :
    Leads (outside cols none p.continuesLine ts q (p.opening tag ++ X))
      (outside cols none true ((tagTokens tag).reverse ++ ts) (q.after (p.opening tag)) X) := by
  cases tag with
  | none =>
    have hnewLine : Leads (outside cols none false ts q ('\n' :: X)) (outside cols none true ts (q.next '\n') X) :=
      leads_newLine (by simp)
    cases p with
    | value n => exact hnewLine
    | root | item n | slot n => exact .refl _
  | some t =>
    have hl := hat.endsLine
    have htag : Leads (outside cols none p.continuesLine ts q (spaces p.gap.length ++ (tagText t ++ '\n' :: X))) _ :=
      leads_tag (hl.mayStart rfl) (ht t rfl) rfl
    have hline : q.line ≤ ((q.after (spaces p.gap.length)).after (tagText t)).line := by
      rw [← after_append]
      exact after_line_le q _
    have hleads := htag.trans (leads_newLine fun x hx => ⟨(hl.saved x hx).1, (hl.saved x hx).2.trans hline⟩)
    rw [← Place.gap_eq_spaces] at hleads
    simpa [Place.opening, tagTokens] using hleads

theorem column_opening (hn : p.startsLine tag = false → n = q.column + p.gap.length) :
    ((q.after (p.opening tag)).after (spaces (p.lead tag n))).column = n := by
  rw [after_spaces, Place.lead]
  cases hstart : p.startsLine tag with
  | false =>
    rw [Place.opening_of_continues hstart, hn hstart]
    rfl
  | true =>
    obtain ⟨cs, hcs⟩ := Place.opening_of_startsLine hstart
    rw [hcs, after_concat_break q cs '\n' rfl, if_pos rfl]
    exact Nat.zero_add n

theorem AtPlace.column_mapping (hat : AtPlace p cols q) :
    ((q.after (p.opening tag)).after (spaces (p.lead tag p.mappingColumn))).column = p.mappingColumn := by
  refine column_opening fun hstart => ?_
  have hcolumn := hat.column
  cases p with
  | value n => simp [Place.startsLine, Place.continuesLine] at hstart
  | root | item n | slot n =>
    simp only at hcolumn
    simp [Place.mappingColumn, Place.gap, hcolumn]

theorem AtPlace.column_sequence (hat : AtPlace p cols q) :
    ((q.after (p.opening tag)).after (spaces (p.lead tag (p.sequenceColumn tag.isSome)))).column =
      p.sequenceColumn tag.isSome := by
  refine column_opening fun hstart => ?_
  have hcolumn := hat.column
  simp only [Place.startsLine, Bool.or_eq_false_iff, Bool.not_eq_false'] at hstart
  cases p with
  | value n => cases hstart.2
  | root | item n | slot n =>
    simp only at hcolumn
    simp [Place.sequenceColumn, Place.gap, hcolumn, hstart.1]

theorem AtPlace.lt_mappingColumn (hat : AtPlace p cols q) : ∀ m ∈ cols.head?, m < p.mappingColumn := by
  intro m hm
  rw [hat.around] at hm
  cases p with
  | root => cases hm
  | value n | item n | slot n =>
    cases hm
    exact Nat.lt_add_of_pos_right (by decide)

/-- A sequence stands further right than the collection around it, or in the column of the mapping around it. -/
theorem AtPlace.sequenceColumn_cases (hat : AtPlace p cols q) (hasTag : Bool) :
    (p.bare = true ∧ cols.head? = some (p.sequenceColumn hasTag)) ∨
      ∀ m ∈ cols.head?, m < p.sequenceColumn hasTag := by
  rw [hat.around]
  cases p with
  | root => exact .inr (by simp [Place.around])
  | value n => exact .inl ⟨rfl, rfl⟩
  | item n =>
    refine .inr fun m hm => ?_
    cases hm
    exact Nat.lt_add_of_pos_right (by decide)
  | slot n =>
    cases hasTag with
    | true => exact .inl ⟨rfl, rfl⟩
    | false =>
      refine .inr fun m hm => ?_
      cases hm
      exact Nat.lt_add_of_pos_right (by decide)

end Scanner

/-! ## The first character of a node -/

/-- What is written of a node starts with a character that starts a token. -/
theorem IsAtomText.exists_first {A : List Char} {us : List Token} (h : IsAtomText A us) :
    ∃ c cs, A = c :: cs ∧ opensToken c = true := by
  cases h with
  | plain h =>
    obtain ⟨c, cs, rfl⟩ := List.exists_cons_of_ne_nil h.nonempty
    exact ⟨c, cs, rfl, h.opensToken⟩
  | quoted h _ =>
    obtain ⟨c, tail, read, rfl, hc, -⟩ := h
    exact ⟨c, tail, rfl, hc⟩
  | sequence | mapping => exact ⟨_, _, rfl, rfl⟩

theorem exists_first_of_simpleKey {key : Value} {text : List Char} (h : simpleKey? key = some text)
    (hk : key.inRange = true) : ∃ c cs, text = c :: cs ∧ opensToken c = true := by
  obtain ⟨A, us, rfl, hatom, -⟩ := exists_simpleKey h hk
  cases (untag key).1 with
  | none => exact hatom.exists_first
  | some t =>
    refine ⟨'!', (tagText t).drop 1 ++ ' ' :: A, ?_, rfl⟩
    rw [tagLead, tagText]
    split <;> simp

namespace Scanner

variable {p : Place} {tag : Option String} {bare : Bool} {cols cols' : List Nat} {ts ts' : List Token} {q : Position}
  {T rest : List Char} {key v : Value} {vs : List Value} {es : List (Value × Value)} {n k : Nat}

/-! ## What follows a node -/

/-- What follows a node ends it; a last line feed does not follow two line ends, of which the lines of a block that is
kept whole are some. -/
structure EndsNode (bound : Option Nat) (T rest : List Char) : Prop where
  follows : Follows bound rest
  feed : rest = ['\n'] → ¬ EndsTwice T

theorem EndsNode.suffix {bound : Option Nat} {S : List Char} (h : EndsNode bound S rest) (hT : T <:+ S) :
    EndsNode bound T rest := by
  obtain ⟨front, rfl⟩ := hT
  exact ⟨h.follows, fun hfeed htwice => h.feed hfeed (htwice.behind front)⟩

theorem EndsNode.mono {bound : Option Nat} (h : EndsNode bound T rest) (hle : ∀ m ∈ bound, m ≤ n) :
    EndsNode (some n) T rest :=
  ⟨h.follows.mono hle, h.feed⟩

theorem endsNode_token {c : Char} (hc : opensToken c = true) (T cs : List Char) :
    EndsNode (some n) T (spaces n ++ c :: cs) := by
  refine ⟨.token rfl (Nat.le_refl n) hc, fun hfeed => ?_⟩
  cases n with
  | zero =>
    obtain ⟨rfl, -⟩ := List.cons.inj hfeed
    cases hc
  | succ n => cases hfeed

theorem EndsNode.next {others : List Char} (h : EndsNode (some n) (T ++ others) rest)
    (hothers : others = [] ∨ ∃ c cs, others = spaces n ++ c :: cs ∧ opensToken c = true) :
    EndsNode (some n) T (others ++ rest) := by
  obtain rfl | ⟨c, cs, rfl, hc⟩ := hothers
  · rwa [List.append_nil] at h
  · rw [List.append_assoc, List.cons_append]
    exact endsNode_token hc T (cs ++ rest)

/-! ## The parts of a collection -/

/-- A text is read as tokens, up to the end of a line; `cols'` and `ts'` are the open collections and the tokens in
front of them once the collection that they belong to is open. -/
structure Collects (A : List Token → Prop) (cols : List Nat) (ts : List Token) (q : Position) (T rest : List Char)
    (cols' : List Nat) (ts' : List Token) : Prop where
  ended : ∀ front, endsIn isBreak front = true → endsIn isBreak (front ++ T) = true
  reads : ∃ us, A us ∧ Leads (outside cols none true ts q (T ++ rest))
    (outside cols' none true (us.reverse ++ ts') (q.after T) rest)

theorem collects_nil {A : List Token → Prop} (h : A []) : Collects A cols ts q [] rest cols ts :=
  ⟨fun front hfront => by rwa [List.append_nil], [], h, .refl _⟩

theorem Collects.endsIn {A : List Token → Prop} (h : Collects A cols ts q T rest cols' ts') (hT : T ≠ []) :
    endsIn isBreak T = true := by
  rw [← endsIn_append hT isBreak ['\n']]
  exact h.ended ['\n'] rfl

def ItemTokens (vs : List Value) (us : List Token) : Prop :=
  (vs ≠ [] → us.head? = some .blockEntry) ∧ ∀ indented, RepresentsItems indented us vs

def EntryTokens (key v : Value) (us : List Token) : Prop :=
  ∃ ks ws, us = .key :: (ks ++ .value :: ws) ∧ Represents true ks key ∧ Represents true ws v

theorem itemTokens_nil : ItemTokens [] [] := ⟨fun h => absurd rfl h, representsItems_nil⟩

theorem endsWord_of_reads {bare allowed : Bool} (h : Reads bare cols allowed ts q T rest v) (hword : endsWord T = true)
    (tail : List Char) : endsWord (T ++ tail) = true := by
  rw [endsWord_append, hword]
  rintro rfl
  cases h.ended

theorem collects_item {I : List Char} (hn : (q.after (spaces k)).column = n)
    (ho : Opened n .blockSequence cols ts cols' ts') (hword : endsWord I = true)
    (hv : Reads false cols' true (.blockEntry :: ts') ((q.after (spaces k)).next '-') I (T ++ rest) v)
    (hvs : ∀ ts, Collects (ItemTokens vs) cols' ts (((q.after (spaces k)).next '-').after I) T rest cols' ts) :
    Collects (ItemTokens (v :: vs)) cols ts q (spaces k ++ '-' :: (I ++ T)) rest cols' ts' := by
  obtain ⟨us, hmeans, hitem⟩ := hv.reads
  obtain ⟨hended, ws, hothers, hitems⟩ := hvs (us.reverse ++ .blockEntry :: ts')
  refine ⟨fun front _ => ?_, .blockEntry :: (us ++ ws), ⟨fun _ => rfl, fun indented =>
    representsItems_cons hmeans (hothers.2 indented)⟩, ?_⟩
  · simpa using hended _ (endsIn_behind hv.ended (front ++ (spaces k ++ ['-'])))
  · have hdash := leads_blockEntry hn ho (endsWord_of_reads hv hword (T ++ rest))
    simpa using (hdash.trans hitem).trans hitems

theorem collects_simpleEntry {text V : List Char} (hkey : simpleKey? key = some text) (hrange : key.inRange = true)
    (ht : LegibleTag (untag key).1) (hn : (q.after (spaces k)).column = n)
    (ho : Opened n .blockMapping cols ts cols' ts') (hword : endsWord V = true)
    (hv : ∀ ts q, n < q.column → Reads true cols' false ts q V rest v) :
    Collects (EntryTokens key.withOneNan v) cols ts q (spaces k ++ (text ++ ':' :: V)) rest cols' ts' := by
  obtain ⟨A, us, rfl, hatom, hmeans, hbreak, hlength⟩ := exists_simpleKey hkey hrange
  have hcolumn : n < ((((q.after (spaces k)).after (tagLead (untag key).1)).after A).next ':').column := by
    have hline := after_of_no_break (q.after (spaces k)) _ (isBreak_of_mem_taggedLine (untag key).1 hbreak)
    rw [← after_append, hline, next_of_not_break _ ':' rfl, ← hn]
    exact Nat.lt_succ_of_le (Nat.le_add_right _ _)
  have hnode := hv (.value :: ((tagTokens (untag key).1 ++ us).reverse ++ .key :: ts')) _ hcolumn
  obtain ⟨ws, hvalue, hreads⟩ := hnode.reads
  refine ⟨fun front _ => ?_, .key :: ((tagTokens (untag key).1 ++ us) ++ .value :: ws), ⟨_, ws, rfl, ?_, hvalue⟩, ?_⟩
  · simpa using endsIn_behind hnode.ended (front ++ (spaces k ++ (tagLead (untag key).1 ++ (A ++ [':']))))
  · have hname := hmeans true (untag key).1 ht
    rwa [← withOneNan_under, under_untag] at hname
  · have hsimple := leads_simpleKey ht hatom hbreak hlength (hn.symm ▸ ho) (endsWord_of_reads hnode hword rest)
    simpa using hsimple.trans hreads

theorem collects_explicitEntry {K V : List Char} (hn : (q.after (spaces k)).column = n)
    (ho : Opened n .blockMapping cols ts cols' ts') (hwordK : endsWord K = true) (hwordV : endsWord V = true)
    (hkey : ∀ ts q, q.column = n + 1 → Reads true cols' true ts q K (spaces n ++ ':' :: (V ++ rest)) key)
    (hv : ∀ ts q, q.column = n + 1 → Reads true cols' true ts q V rest v) :
    Collects (EntryTokens key v) cols ts q (spaces k ++ '?' :: (K ++ (spaces n ++ ':' :: V))) rest cols' ts' := by
  have hcolumn : ((q.after (spaces k)).next '?').column = n + 1 := by rw [next_of_not_break _ '?' rfl, ← hn]
  have hname := hkey (.key :: ts') _ hcolumn
  obtain ⟨ks, hmeans, hreads⟩ := hname.reads
  have hfresh := column_after_of_endsIn hname.ended ((q.after (spaces k)).next '?')
  have hanswer : ((((q.after (spaces k)).next '?').after K).after (spaces n)).column = n := by
    rw [after_spaces, hfresh]
    exact Nat.zero_add n
  have hcolumn' : (((((q.after (spaces k)).next '?').after K).after (spaces n)).next ':').column = n + 1 := by
    rw [next_of_not_break _ ':' rfl]
    exact congrArg (· + 1) hanswer
  have hnode := hv (.value :: (ks.reverse ++ .key :: ts')) _ hcolumn'
  obtain ⟨ws, hvalue, hreads'⟩ := hnode.reads
  refine ⟨fun front _ => ?_, .key :: (ks ++ .value :: ws), ⟨ks, ws, rfl, hmeans, hvalue⟩, ?_⟩
  · simpa using endsIn_behind hnode.ended (front ++ (spaces k ++ '?' :: (K ++ (spaces n ++ [':']))))
  · have hmark := leads_explicitKey hn ho (endsWord_of_reads hname hwordK (spaces n ++ ':' :: (V ++ rest)))
    have hcolon := leads_answer (ks.reverse ++ .key :: ts') (hanswer.symm ▸ ho.head)
      (endsWord_of_reads hnode hwordV rest)
    simpa using ((hmark.trans hreads).trans hcolon).trans hreads'

theorem collects_entry {E : List Char} (h : Collects (EntryTokens key v) cols ts q E (T ++ rest) cols' ts')
    (hes : ∀ ts, Collects (RepresentsEntries · es) cols' ts (q.after E) T rest cols' ts) :
    Collects (RepresentsEntries · ((key, v) :: es)) cols ts q (E ++ T) rest cols' ts' := by
  obtain ⟨hfirst, us, ⟨ks, ws, rfl, hkey, hvalue⟩, hentry⟩ := h
  obtain ⟨hended, others, hothers, hentries⟩ := hes ((.key :: (ks ++ .value :: ws)).reverse ++ ts')
  refine ⟨fun front hfront => ?_, .key :: (ks ++ .value :: (ws ++ others)), representsEntries_cons hkey hvalue hothers,
    ?_⟩
  · simpa using hended _ (hfirst front hfront)
  · simpa using hentry.trans hentries

/-! ## Collections -/

theorem reads_sequence (ht : LegibleTag tag) (hat : AtPlace p cols q) (hrest : Follows cols.head? rest) (hT : T ≠ [])
    (hne : vs ≠ [])
    (h : ∀ ts cols' ts', Opened (p.sequenceColumn tag.isSome) .blockSequence cols ts cols' ts' →
      Collects (ItemTokens vs) cols ts (q.after (p.opening tag)) T rest cols' ts') :
    Reads p.bare cols p.continuesLine ts q (p.opening tag ++ T) rest (.under tag (.sequence vs)) := by
  have hopening := leads_opening ts ht hat (T ++ rest)
  obtain ⟨hbare, hstays⟩ | hlt := hat.sequenceColumn_cases tag.isSome
  · have hitems := h ((tagTokens tag).reverse ++ ts) cols _ (.stays hstays)
    obtain ⟨us, ⟨hhead, hmeans⟩, hreads⟩ := hitems.reads
    obtain ⟨us, rfl⟩ := List.head?_eq_some_iff.mp (hhead hne)
    refine ⟨endsIn_behind (hitems.endsIn hT) _, tagTokens tag ++ .blockEntry :: us, ?_, ?_⟩
    · rw [hbare]
      exact represents_bareSequence ht (hmeans false)
    · simpa using hopening.trans hreads
  · have hitems := h ((tagTokens tag).reverse ++ ts) _ _ (.opens hlt)
    obtain ⟨us, ⟨-, hmeans⟩, hreads⟩ := hitems.reads
    have hended := endsIn_behind (hitems.endsIn hT) (p.opening tag)
    refine ⟨hended, tagTokens tag ++ .blockSequence :: (us ++ [.blockEnd]), represents_sequence ht (hmeans true), ?_⟩
    rw [← after_append] at hreads
    simpa using (hopening.trans hreads).trans (leads_close (column_after_of_endsIn hended q) hrest hlt)

theorem reads_mapping (ht : LegibleTag tag) (hat : AtPlace p cols q) (hrest : Follows cols.head? rest) (hT : T ≠ [])
    (h : ∀ ts cols' ts', Opened p.mappingColumn .blockMapping cols ts cols' ts' →
      Collects (RepresentsEntries · es) cols ts (q.after (p.opening tag)) T rest cols' ts') :
    Reads bare cols p.continuesLine ts q (p.opening tag ++ T) rest (.under tag (.mapping es)) := by
  have hopening := leads_opening ts ht hat (T ++ rest)
  have hentries := h ((tagTokens tag).reverse ++ ts) _ _ (.opens hat.lt_mappingColumn)
  obtain ⟨us, hmeans, hreads⟩ := hentries.reads
  have hended := endsIn_behind (hentries.endsIn hT) (p.opening tag)
  refine ⟨hended, tagTokens tag ++ .blockMapping :: (us ++ [.blockEnd]), represents_mapping ht hmeans, ?_⟩
  rw [← after_append] at hreads
  simpa using (hopening.trans hreads).trans (leads_close (column_after_of_endsIn hended q) hrest hat.lt_mappingColumn)

end Scanner

end CiWorkflow.Yaml
