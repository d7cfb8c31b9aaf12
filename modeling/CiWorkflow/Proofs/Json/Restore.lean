import CiWorkflow.Proofs.Json.Scan
import CiWorkflow.Proofs.Render.Mark
import CiWorkflow.Proofs.Render.Restore
import CiWorkflow.Proofs.Text.Every

set_option autoImplicit false

namespace CiWorkflow.Json

open Yaml Render Blocks Text Decimal

/-- A part that is restored to another one, whatever is apart from it behind it. -/
def Restores (b : Blocks) (part whole : List Char) : Prop :=
  ∀ rest, isApart rest = true →
    b.restoreInLine 0 true (part ++ rest) = whole ++ b.restoreInLine 0 true rest

def StaysApart (part : List Char) : Prop := ∀ rest, isApart rest = true → isApart (part ++ rest) = true

section Restoring

variable {b : Blocks} {part part' whole whole' : List Char}

theorem restores_plain (h : ∀ c ∈ part, isPlainChar c = true) : Restores b part part :=
  fun rest _ => b.restoreInLine_plain part rest h

theorem restores_self (h : ¬ b.Refers part) : Restores b part part := by
  intro rest hrest
  rw [restoreInLine_append b part rest hrest, restoreInLine_self b part h]

theorem Restores.plain_append {front : List Char} (h : Restores b part whole)
    (hf : ∀ c ∈ front, isPlainChar c = true) : Restores b (front ++ part) (front ++ whole) := by
  intro rest hrest
  rw [List.append_assoc, b.restoreInLine_plain front _ hf, h rest hrest, List.append_assoc]

theorem Restores.append (h : Restores b part whole) (h' : Restores b part' whole') (hp : StaysApart part') :
    Restores b (part ++ part') (whole ++ whole') := by
  intro rest hrest
  rw [List.append_assoc, h _ (hp rest hrest), h' rest hrest, List.append_assoc]

theorem underscore_not_mem_escape (c : Char) (h : escape c ≠ [c]) : '_' ∉ escape c := by
  have hsmall : ∀ n < 0x20, '_' ∉ escape (Char.ofNat n) := by decide
  rcases escape_cases c with ⟨hc, -⟩ | ⟨tail, -, hlt | rfl | rfl⟩
  · exact absurd hc h
  · have := hsmall c.toNat hlt
    rwa [Char.ofNat_toNat] at this
  · decide
  · decide

theorem spares_escape (n : Nat) : Spares escape (marker n).toList := by
  intro c
  by_cases hc : escape c = [c]
  · exact .inl hc
  · rcases escape_cases c with ⟨hc', -⟩ | ⟨tail, htail, -⟩
    · exact absurd hc' hc
    · refine .inr ⟨'\\', tail, htail, ?_, ?_⟩
      · intro hm
        rcases mem_marker hm with hm | hm
        · exact absurd hm (by decide)
        · cases hm
      · intro x hx
        rw [head_marker] at hx
        cases hx
        exact underscore_not_mem_escape c hc

theorem quote_not_mem_marker (n : Nat) : '"' ∉ (marker n).toList := by
  intro hm
  rcases mem_marker hm with hm | hm
  · exact absurd hm (by decide)
  · cases hm

theorem not_refers_quoted (s : List Char) (h : ¬ (marker b.number).toList <:+: s) : ¬ b.Refers (quoted s) := by
  intro hr
  have hquoted : (marker b.number).toList <:+: ['"'] ++ s.flatMap escape ++ ['"'] := marker_of_refers b hr
  have hopen := infix_of_concat (quote_not_mem_marker _) (marker_ne_nil _) hquoted
  have hstart : ∀ x, (marker b.number).toList.head? = some x → x ∉ ['"'] := by
    intro x hx
    rw [head_marker] at hx
    cases hx
    decide
  exact h (infix_of_flatMap (spares_escape _) (marker_ne_nil _) (infix_of_append hstart (marker_ne_nil _) hopen))

theorem restores_string (s : String) (h : contains s (marker b.number) = false) :
    Restores b (quoted s.toList) (quoted s.toList) := by
  refine restores_self (not_refers_quoted _ ?_)
  rw [← occursIn_iff]
  simpa [contains] using h

theorem escape_digit (c : Char) (h : c.isDigit = true) : escape c = [c] := by
  have hrange : 48 ≤ c.toNat ∧ c.toNat ≤ 57 := by
    simpa [Char.isDigit, UInt32.le_iff_toNat_le] using h
  rcases escape_cases c with ⟨hc, -⟩ | ⟨tail, -, hlt | rfl | rfl⟩
  · exact hc
  · omega
  · cases h
  · cases h

theorem quoted_reference (n i : Nat) :
    quoted (reference n i).toList = '"' :: ((reference n i).toList ++ ['"']) := by
  have hstem : ∀ c ∈ markerStem.toList ++ ['_', '_', ':'], escape c = [c] :=
    Text.forall_mem_of_all (by decide)
  have hescape : ∀ c ∈ (reference n i).toList, escape c = [c] := by
    intro c hc
    rw [reference_eq] at hc
    simp only [spelled, List.mem_append, List.mem_cons] at hc
    rcases hc with hc | hc | rfl | rfl | rfl | hc
    · exact hstem c (by simp [hc])
    · exact escape_digit c (Nat.isDigit_of_mem_toDigits (by decide) (by decide) hc)
    · exact hstem '_' (by decide)
    · exact hstem '_' (by decide)
    · exact hstem ':' (by decide)
    · exact escape_digit c (Nat.isDigit_of_mem_toDigits (by decide) (by decide) hc)
  have hflat : ∀ cs : List Char, (∀ c ∈ cs, escape c = [c]) → cs.flatMap escape = cs := by
    intro cs hcs
    induction cs with
    | nil => rfl
    | cons c cs ih => simp [hcs c (by simp), ih fun d hd => hcs d (by simp [hd])]
  rw [quoted, hflat _ hescape]
  rfl

theorem restores_reference (i : Nat) (s : String) (h : b.scripts[i]? = some s) :
    Restores b (quoted (reference b.number i).toList) (quoted s.toList) := by
  intro rest hrest
  have hread : readReference? ((reference b.number i).toList ++ '"' :: rest) =
      some (Nat.toDigits 10 b.number, Nat.toDigits 10 i, '"' :: rest) := by
    rw [readReference_iff, reference_eq]
    exact ⟨rfl, areDigits_toDigits _, areDigits_toDigits _, rfl⟩
  have hquoted : b.quotedScript? ('"' :: ((reference b.number i).toList ++ ['"'] ++ rest)) =
      some (some (quoted s.toList), rest) := by
    simp [quotedScript?, takeQuote, isQuoteChar, hread, find_reference, h]
  have hrestore := b.restoreInLine_reference hquoted
  rw [quoted_reference, List.cons_append]
  simpa using hrestore

theorem isPlainChar_number {w : List Char} (h : IsNumberText w) : ∀ c ∈ w, isPlainChar c = true := by
  intro c hc
  have hchar := h.chars c hc
  have hne : ∀ x : Char, isNumberChar x = false → c ≠ x := by
    rintro x hx rfl
    rw [hx] at hchar
    cases hchar
  simp [isPlainChar, isQuoteChar, hne '"' rfl, hne '\'' rfl, hne '_' rfl]

theorem isPlainChar_newLine (indent depth : Nat) : ∀ c ∈ newLine indent depth, isPlainChar c = true := by
  intro c hc
  rcases List.mem_cons.mp hc with rfl | hc
  · rfl
  · rw [List.eq_of_mem_replicate hc]
    rfl

theorem isPlainChar_open (indent depth : Nat) {c : Char} (hc : isPlainChar c = true) :
    ∀ x ∈ c :: newLine indent depth, isPlainChar x = true :=
  List.forall_mem_cons.mpr ⟨hc, isPlainChar_newLine indent depth⟩

theorem isPlainChar_close (indent depth : Nat) {c : Char} (hc : isPlainChar c = true) :
    ∀ x ∈ newLine indent depth ++ [c], isPlainChar x = true :=
  List.forall_mem_append.mpr ⟨isPlainChar_newLine indent depth, by simpa using hc⟩

theorem staysApart_cons {c : Char} (h : ∀ rest, isApart (c :: rest) = true) (part : List Char) :
    StaysApart (c :: part) := fun rest _ => h (part ++ rest)

theorem StaysApart.append {front back : List Char} (hf : StaysApart front) (hb : StaysApart back) :
    StaysApart (front ++ back) := by
  intro rest hrest
  rw [List.append_assoc]
  exact hf _ (hb rest hrest)

theorem staysApart_newLine (indent depth : Nat) (part : List Char) : StaysApart (newLine indent depth ++ part) :=
  staysApart_cons (fun _ => rfl) _

theorem staysApart_items {indent depth : Nat} {vs : List Value} {others : List Char}
    (h : itemsText indent depth vs = .ok others) : StaysApart others := by
  cases vs with
  | nil =>
    rw [itemsText] at h
    cases h
    exact fun _ hrest => hrest
  | cons v rest =>
    obtain ⟨_, -, _, -, rfl⟩ := itemsText_cons.mp h
    exact staysApart_cons (fun _ => rfl) _

theorem staysApart_entries {indent depth : Nat} {es : List (Value × Value)} (hd : areNamedData es = true)
    {others : List Char} (h : entriesText indent depth es = .ok others) : StaysApart others := by
  match es with
  | [] =>
    rw [entriesText] at h
    cases h
    exact fun _ hrest => hrest
  | (.string k, v) :: rest =>
    obtain ⟨_, -, _, -, rfl⟩ := entriesText_cons.mp h
    exact staysApart_cons (fun _ => rfl) _

theorem restores_name (indent depth : Nat) (k : String) (h : contains k (marker b.number) = false)
    (hr : Restores b part whole) :
    Restores b (nameText indent depth k ++ (' ' :: part)) (nameText indent depth k ++ (' ' :: whole)) := by
  have hcolon : Restores b ([':', ' '] ++ part) ([':', ' '] ++ whole) :=
    hr.plain_append (by simp [isPlainChar, isQuoteChar])
  have hname := (restores_string k h).append hcolon fun _ _ => rfl
  simpa [nameText] using hname.plain_append (isPlainChar_newLine indent depth)

end Restoring

section Marking

variable {b : Blocks} {indent : Nat}

def ValueRestores (b : Blocks) (indent : Nat) (v : Value) : Prop :=
  ∀ depth i text, valueText indent depth v = .ok text → HoldsFrom b i (markFrom b.number i v).2 →
    ∃ marked, valueText indent depth (markFrom b.number i v).1 = .ok marked ∧
      isData (markFrom b.number i v).1 = true ∧ Restores b marked text

def ItemsRestore (b : Blocks) (indent : Nat) (vs : List Value) : Prop :=
  ∀ depth i text, itemsText indent depth vs = .ok text → HoldsFrom b i (markItems b.number i vs).2 →
    ∃ marked, itemsText indent depth (markItems b.number i vs).1 = .ok marked ∧
      areData (markItems b.number i vs).1 = true ∧ Restores b marked text

def EntriesRestore (b : Blocks) (indent : Nat) (es : List (Value × Value)) : Prop :=
  ∀ depth i text, entriesText indent depth es = .ok text → HoldsFrom b i (markEntries b.number i es).2 →
    ∃ marked, entriesText indent depth (markEntries b.number i es).1 = .ok marked ∧
      areNamedData (markEntries b.number i es).1 = true ∧ Restores b marked text

theorem valueRestores_word (v : Value) (w : List Char) (hd : isData v = true)
    (ht : ∀ depth, valueText indent depth v = .ok w) (hm : ∀ number i, markFrom number i v = (v, []))
    (hw : ∀ c ∈ w, isPlainChar c = true) : ValueRestores b indent v := by
  intro depth i text htext _
  rw [ht] at htext
  cases htext
  rw [hm]
  exact ⟨w, ht depth, hd, restores_plain hw⟩

theorem valueRestores_string (s : String) (h : contains s (marker b.number) = false) :
    ValueRestores b indent (.string s) := by
  intro depth i text htext _
  rw [valueText] at htext
  cases htext
  exact ⟨_, by rw [markFrom, valueText] <;> simp, rfl, restores_string s h⟩

theorem valueRestores_sequence (v : Value) (rest : List Value) (hv : ValueRestores b indent v)
    (hr : ItemsRestore b indent rest) : ValueRestores b indent (.sequence (v :: rest)) := by
  intro depth i text htext hholds
  obtain ⟨first, hfirst, others, hothers, rfl⟩ := valueText_sequence.mp htext
  rw [markFrom_sequence, markItems_cons] at hholds ⊢
  obtain ⟨hleft, hright⟩ := hholds.split
  obtain ⟨first', hfirst', hdata, hrf⟩ := hv _ _ _ hfirst hleft
  obtain ⟨others', hothers', hdatas, hro⟩ := hr _ _ _ hothers hright
  have hclose : Restores b (newLine indent depth ++ [']']) (newLine indent depth ++ [']']) :=
    restores_plain (isPlainChar_close indent depth rfl)
  have htail := hro.append hclose (staysApart_newLine indent depth _)
  have hbody := hrf.append htail ((staysApart_items hothers').append (staysApart_newLine indent depth _))
  have hfront := hbody.plain_append (isPlainChar_open indent (depth + 1) (c := '[') rfl)
  exact ⟨_, valueText_sequence.mpr ⟨_, hfirst', _, hothers', rfl⟩, by simp [isData, areData, hdata, hdatas], hfront⟩

theorem itemsRestore_nil : ItemsRestore b indent [] := by
  intro depth i text htext _
  rw [itemsText] at htext
  cases htext
  exact ⟨[], by rw [markItems, itemsText], rfl, fun _ _ => rfl⟩

theorem itemsRestore_cons (v : Value) (rest : List Value) (hv : ValueRestores b indent v)
    (hr : ItemsRestore b indent rest) : ItemsRestore b indent (v :: rest) := by
  intro depth i text htext hholds
  obtain ⟨first, hfirst, others, hothers, rfl⟩ := itemsText_cons.mp htext
  rw [markItems_cons] at hholds ⊢
  obtain ⟨hleft, hright⟩ := hholds.split
  obtain ⟨first', hfirst', hdata, hrf⟩ := hv _ _ _ hfirst hleft
  obtain ⟨others', hothers', hdatas, hro⟩ := hr _ _ _ hothers hright
  have hbody := hrf.append hro (staysApart_items hothers')
  have hfront := hbody.plain_append (isPlainChar_open indent depth (c := ',') rfl)
  exact ⟨_, itemsText_cons.mpr ⟨_, hfirst', _, hothers', rfl⟩, by simp [areData, hdata, hdatas], hfront⟩

theorem memberRestores (k v : Value) (hv : ValueRestores b indent v) {depth i : Nat} {text : List Char}
    (htext : valueText indent depth v = .ok text) (hholds : HoldsFrom b i (markMember b.number i k v).2) :
    ∃ marked, valueText indent depth (markMember b.number i k v).1 = .ok marked ∧
      isData (markMember b.number i k v).1 = true ∧ Restores b marked text := by
  unfold markMember at hholds ⊢
  cases hs : script? k v with
  | none =>
    rw [hs] at hholds
    exact hv _ _ _ htext hholds
  | some s =>
    rw [hs] at hholds
    rw [eq_string_of_script hs, valueText] at htext
    cases htext
    exact ⟨_, by rw [valueText], rfl, restores_reference i s hholds.get⟩

theorem valueRestores_mapping (k : String) (v : Value) (rest : List (Value × Value))
    (hk : contains k (marker b.number) = false) (hv : ValueRestores b indent v)
    (hr : EntriesRestore b indent rest) : ValueRestores b indent (.mapping ((.string k, v) :: rest)) := by
  intro depth i text htext hholds
  obtain ⟨first, hfirst, others, hothers, rfl⟩ := valueText_mapping.mp htext
  rw [markFrom_mapping, markEntries_cons] at hholds ⊢
  obtain ⟨hleft, hright⟩ := hholds.split
  obtain ⟨first', hfirst', hdata, hrf⟩ := memberRestores _ v hv hfirst hleft
  obtain ⟨others', hothers', hdatas, hro⟩ := hr _ _ _ hothers hright
  have hclose : Restores b (newLine indent depth ++ ['\x7d']) (newLine indent depth ++ ['\x7d']) :=
    restores_plain (isPlainChar_close indent depth rfl)
  have htail := hro.append hclose (staysApart_newLine indent depth _)
  have hbody := hrf.append htail ((staysApart_entries hdatas hothers').append (staysApart_newLine indent depth _))
  have hopen : ∀ c ∈ ['\x7b'], isPlainChar c = true := Text.forall_mem_of_all (by decide)
  have hname := (restores_name indent (depth + 1) k hk hbody).plain_append hopen
  exact ⟨_, valueText_mapping.mpr ⟨_, hfirst', _, hothers', rfl⟩, by simp [isData, areNamedData, hdata, hdatas],
    hname⟩

theorem entriesRestore_nil : EntriesRestore b indent [] := by
  intro depth i text htext _
  rw [entriesText] at htext
  cases htext
  exact ⟨[], by rw [markEntries, entriesText], rfl, fun _ _ => rfl⟩

theorem entriesRestore_cons (k : String) (v : Value) (rest : List (Value × Value))
    (hk : contains k (marker b.number) = false) (hv : ValueRestores b indent v)
    (hr : EntriesRestore b indent rest) : EntriesRestore b indent ((.string k, v) :: rest) := by
  intro depth i text htext hholds
  obtain ⟨first, hfirst, others, hothers, rfl⟩ := entriesText_cons.mp htext
  rw [markEntries_cons] at hholds ⊢
  obtain ⟨hleft, hright⟩ := hholds.split
  obtain ⟨first', hfirst', hdata, hrf⟩ := memberRestores _ v hv hfirst hleft
  obtain ⟨others', hothers', hdatas, hro⟩ := hr _ _ _ hothers hright
  have hbody := hrf.append hro (staysApart_entries hdatas hothers')
  have hcomma : ∀ c ∈ [','], isPlainChar c = true := Text.forall_mem_of_all (by decide)
  have hname := (restores_name indent depth k hk hbody).plain_append hcomma
  exact ⟨_, entriesText_cons.mpr ⟨_, hfirst', _, hothers', rfl⟩, by simp [areNamedData, hdata, hdatas], hname⟩

mutual

/-- Restoring the text of a marked value gives the text of the value, if no text of it holds the marker. -/
theorem valueRestores (v : Value) (hd : isData v = true)
    (hf : ∀ s ∈ texts v, contains s (marker b.number) = false) : ValueRestores b indent v := by
  match v, hd with
  | .null, _ =>
    exact valueRestores_word _ "null".toList rfl (fun _ => by rw [valueText]) (fun _ _ => by rw [markFrom] <;> simp)
      (Text.forall_mem_of_all (by decide))
  | .bool c, _ =>
    refine valueRestores_word _ _ rfl (fun _ => by rw [valueText]) (fun _ _ => by rw [markFrom] <;> simp) ?_
    cases c <;> exact Text.forall_mem_of_all (by decide)
  | .int n, _ =>
    exact valueRestores_word _ _ rfl (fun _ => by rw [valueText]) (fun _ _ => by rw [markFrom] <;> simp)
      (isPlainChar_number (isNumberText_int n))
  | .float x, hd =>
    refine valueRestores_word _ _ hd (fun _ => by rw [valueText]) (fun _ _ => by rw [markFrom] <;> simp) ?_
    match hk : x.kind with
    | .finite negative m q =>
      have htext : floatText? x = some (floatLayout.write x).toList := by rw [floatText?, hk]
      rw [htext]
      exact isPlainChar_number (isNumberText_float floatLayout rfl x negative m q hk)
    | .nan => simp [isData, hk] at hd
    | .infinite _ => simp [isData, hk] at hd
  | .string s, _ => exact valueRestores_string s (hf s (by simp [texts]))
  | .sequence [], _ =>
    exact valueRestores_word _ ['[', ']'] rfl (fun _ => by rw [valueText])
      (fun _ _ => by rw [markFrom_sequence, markItems]) (Text.forall_mem_of_all (by decide))
  | .sequence (v :: rest), hd =>
    obtain ⟨hv, hr⟩ : isData v = true ∧ areData rest = true := by simpa [isData, areData] using hd
    simp only [texts, itemTexts, List.forall_mem_append] at hf
    exact valueRestores_sequence v rest (valueRestores v hv hf.1) (itemsRestore rest hr hf.2)
  | .mapping [], _ =>
    exact valueRestores_word _ ['\x7b', '\x7d'] rfl (fun _ => by rw [valueText])
      (fun _ _ => by rw [markFrom_mapping, markEntries]) (Text.forall_mem_of_all (by decide))
  | .mapping ((.string k, v) :: rest), hd =>
    obtain ⟨hv, hr⟩ : isData v = true ∧ areNamedData rest = true := by simpa [isData, areNamedData] using hd
    simp only [texts, entryTexts, List.forall_mem_append, List.forall_mem_singleton] at hf
    exact valueRestores_mapping k v rest hf.1.1 (valueRestores v hv hf.1.2) (entriesRestore rest hr hf.2)

theorem itemsRestore (vs : List Value) (hd : areData vs = true)
    (hf : ∀ s ∈ itemTexts vs, contains s (marker b.number) = false) : ItemsRestore b indent vs := by
  match vs, hd with
  | [], _ => exact itemsRestore_nil
  | v :: rest, hd =>
    obtain ⟨hv, hr⟩ : isData v = true ∧ areData rest = true := by simpa [areData] using hd
    simp only [itemTexts, List.forall_mem_append] at hf
    exact itemsRestore_cons v rest (valueRestores v hv hf.1) (itemsRestore rest hr hf.2)

theorem entriesRestore (es : List (Value × Value)) (hd : areNamedData es = true)
    (hf : ∀ s ∈ entryTexts es, contains s (marker b.number) = false) : EntriesRestore b indent es := by
  match es, hd with
  | [], _ => exact entriesRestore_nil
  | (.string k, v) :: rest, hd =>
    obtain ⟨hv, hr⟩ : isData v = true ∧ areNamedData rest = true := by simpa [areNamedData] using hd
    simp only [texts, entryTexts, List.forall_mem_append, List.forall_mem_singleton] at hf
    exact entriesRestore_cons k v rest hf.1.1 (valueRestores v hv hf.1.2) (entriesRestore rest hr hf.2)

end

end Marking

section Lines

variable {indent : Nat}

theorem isQuiet_append {front : List Char} (h : '\n' ∉ front) (rest : List Char) :
    isQuiet (front ++ rest) = isQuiet rest := by
  induction front with
  | nil => rfl
  | cons c front ih =>
    have hc : c ≠ '\n' := fun hc => h (by simp [hc])
    simpa [isQuiet, hc] using ih fun hm => h (by simp [hm])

theorem opensEntry_spaces (n : Nat) (rest : List Char) :
    opensEntry (List.replicate n ' ' ++ rest) = opensEntry rest := by
  induction n with
  | zero => rfl
  | succ n ih =>
    rw [List.replicate_succ, List.cons_append, ← ih]
    simp [opensEntry]

theorem isQuiet_newLine (depth : Nat) (rest : List Char) (h : opensEntry rest = false) :
    isQuiet (newLine indent depth ++ rest) = isQuiet rest := by
  have hspaces : '\n' ∉ List.replicate (depth * indent) ' ' := by
    intro hm
    cases List.eq_of_mem_replicate hm
  rw [newLine, List.cons_append, isQuiet, isQuiet_append hspaces, opensEntry_spaces, h]
  simp

/-- No line is a `run` entry, neither where the part starts nor inside it. -/
def IsCalm (part : List Char) : Prop :=
  ∀ rest, opensEntry (part ++ rest) = false ∧ isQuiet (part ++ rest) = isQuiet rest

theorem isCalm_quoted (s : List Char) : IsCalm (quoted s) := by
  intro rest
  refine ⟨?_, isQuiet_append (not_mem_quoted '\n' rfl rfl s) rest⟩
  simp [quoted, opensEntry, List.isPrefixOf]

theorem isCalm_number {w : List Char} (h : IsNumberText w) : IsCalm w := by
  intro rest
  have hbreak : '\n' ∉ w := by
    intro hm
    cases h.chars _ hm
  refine ⟨?_, isQuiet_append hbreak rest⟩
  obtain ⟨negative, d, tail, rfl, hd, -⟩ := h
  have hne : ∀ x : Char, x.isDigit = false → d ≠ x := by
    rintro x hx rfl
    rw [hx] at hd
    cases hd
  cases negative <;>
    simp [signed, opensEntry, List.isPrefixOf, hne ' ' rfl, hne 'r' rfl, (hne ' ' rfl).symm,
      (hne '-' rfl).symm]

theorem isQuiet_name (depth : Nat) (k : String) (rest : List Char) :
    isQuiet (nameText indent depth k ++ (' ' :: rest)) = isQuiet rest := by
  have hname := isCalm_quoted k.toList (':' :: ' ' :: rest)
  have htext : nameText indent depth k ++ (' ' :: rest) =
      newLine indent depth ++ (quoted k.toList ++ (':' :: ' ' :: rest)) := by
    simp [nameText]
  rw [htext, isQuiet_newLine depth _ hname.1, hname.2]
  simp [isQuiet]

mutual

theorem isCalm_value (v : Value) (hd : isData v = true) (depth : Nat) (text : List Char)
    (h : valueText indent depth v = .ok text) : IsCalm text := by
  match v, hd with
  | .null, _ =>
    rw [valueText] at h
    cases h
    exact fun rest => ⟨rfl, isQuiet_append (by decide) rest⟩
  | .bool b, _ =>
    rw [valueText] at h
    cases h
    cases b <;> exact fun rest => ⟨rfl, isQuiet_append (by decide) rest⟩
  | .int n, _ =>
    rw [valueText] at h
    cases h
    exact isCalm_number (isNumberText_int n)
  | .float x, hd =>
    rw [valueText] at h
    cases h
    match hk : x.kind with
    | .finite negative m q =>
      have htext : floatText? x = some (floatLayout.write x).toList := by rw [floatText?, hk]
      rw [htext]
      exact isCalm_number (isNumberText_float floatLayout rfl x negative m q hk)
    | .nan => simp [isData, hk] at hd
    | .infinite _ => simp [isData, hk] at hd
  | .string s, _ =>
    rw [valueText] at h
    cases h
    exact isCalm_quoted s.toList
  | .sequence [], _ =>
    rw [valueText] at h
    cases h
    exact fun rest => ⟨rfl, isQuiet_append (by decide) rest⟩
  | .sequence (v :: vs), hd =>
    obtain ⟨hv, hr⟩ : isData v = true ∧ areData vs = true := by simpa [isData, areData] using hd
    obtain ⟨first, hfirst, others, hothers, rfl⟩ := valueText_sequence.mp h
    intro rest
    refine ⟨rfl, ?_⟩
    have hfirst' := isCalm_value v hv _ _ hfirst
    have hclose : isQuiet (newLine indent depth ++ ']' :: rest) = isQuiet rest := by
      rw [isQuiet_newLine depth _ rfl]
      simp [isQuiet]
    rw [List.cons_append, isQuiet]
    simp only [List.append_assoc, List.singleton_append]
    rw [isQuiet_newLine _ _ (hfirst' _).1, (hfirst' _).2, isQuiet_items vs hr _ _ hothers, hclose]
    simp
  | .mapping [], _ =>
    rw [valueText] at h
    cases h
    exact fun rest => ⟨rfl, isQuiet_append (by decide) rest⟩
  | .mapping ((.string k, v) :: es), hd =>
    obtain ⟨hv, hr⟩ : isData v = true ∧ areNamedData es = true := by simpa [isData, areNamedData] using hd
    obtain ⟨first, hfirst, others, hothers, rfl⟩ := valueText_mapping.mp h
    intro rest
    refine ⟨rfl, ?_⟩
    have hfirst' := isCalm_value v hv _ _ hfirst
    have hclose : isQuiet (newLine indent depth ++ '\x7d' :: rest) = isQuiet rest := by
      rw [isQuiet_newLine depth _ rfl]
      simp [isQuiet]
    rw [List.cons_append, isQuiet]
    simp only [List.append_assoc, List.cons_append, List.nil_append]
    rw [isQuiet_name, (hfirst' _).2, isQuiet_entries es hr _ _ hothers, hclose]
    simp

theorem isQuiet_items (vs : List Value) (hd : areData vs = true) (depth : Nat) (others : List Char)
    (h : itemsText indent depth vs = .ok others) (rest : List Char) : isQuiet (others ++ rest) = isQuiet rest := by
  match vs, hd with
  | [], _ =>
    rw [itemsText] at h
    cases h
    rfl
  | v :: vs, hd =>
    obtain ⟨hv, hr⟩ : isData v = true ∧ areData vs = true := by simpa [areData] using hd
    obtain ⟨first, hfirst, others, hothers, rfl⟩ := itemsText_cons.mp h
    have hfirst' := isCalm_value v hv _ _ hfirst
    rw [List.cons_append, isQuiet]
    simp only [List.append_assoc]
    rw [isQuiet_newLine _ _ (hfirst' _).1, (hfirst' _).2, isQuiet_items vs hr _ _ hothers]
    simp

theorem isQuiet_entries (es : List (Value × Value)) (hd : areNamedData es = true) (depth : Nat)
    (others : List Char) (h : entriesText indent depth es = .ok others) (rest : List Char) :
    isQuiet (others ++ rest) = isQuiet rest := by
  match es, hd with
  | [], _ =>
    rw [entriesText] at h
    cases h
    rfl
  | (.string k, v) :: es, hd =>
    obtain ⟨hv, hr⟩ : isData v = true ∧ areNamedData es = true := by simpa [areNamedData] using hd
    obtain ⟨first, hfirst, others, hothers, rfl⟩ := entriesText_cons.mp h
    rw [List.cons_append, isQuiet]
    simp only [List.append_assoc, List.cons_append]
    rw [isQuiet_name, (isCalm_value v hv _ _ hfirst _).2, isQuiet_entries es hr _ _ hothers]
    simp

end

end Lines

end CiWorkflow.Json
