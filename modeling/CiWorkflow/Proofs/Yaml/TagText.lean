import CiWorkflow.Proofs.Yaml.Directive
import CiWorkflow.Proofs.Yaml.Markers
import CiWorkflow.Proofs.Yaml.Parse
import CiWorkflow.Proofs.Yaml.QuotedLine
import CiWorkflow.Yaml.Writer

set_option autoImplicit false

namespace CiWorkflow.Yaml

open Position

/-- A tag that can be read: it has a name, which is its exclamation mark only if there is nothing else, and no comma,
no square bracket and no NUL. -/
structure IsLegible (tag : String) : Prop where
  nonempty : tag ≠ ""
  mark : tag = "!" ∨ tag.toList.head? ≠ some '!'
  unlisted : ∀ c ∈ tag.toList, c ≠ ',' ∧ c ≠ '[' ∧ c ≠ ']'
  uncut : '\x00' ∉ tag.toList

instance (tag : String) : Decidable (IsLegible tag) :=
  decidable_of_iff (tag ≠ "" ∧ (tag = "!" ∨ tag.toList.head? ≠ some '!') ∧
      (tag.toList.all fun c => decide (c ≠ ',' ∧ c ≠ '[' ∧ c ≠ ']')) = true ∧ '\x00' ∉ tag.toList)
    ⟨fun h => ⟨h.1, h.2.1, Text.forall_mem_of_all h.2.2.1, h.2.2.2⟩,
      fun h => ⟨h.nonempty, h.mark, List.all_eq_true.mpr fun c hc => decide_eq_true (h.unlisted c hc), h.uncut⟩⟩

/-! ## Escapes -/

theorem percentBytes_escaped (bs : List UInt8) (rest : List Char) :
    percentBytes? ((bs.flatMap fun b => '%' :: hexDigits 2 b.toNat) ++ rest) =
      (percentBytes? rest).map (bs ++ ·) := by
  induction bs with
  | nil => simp
  | cons b bs ih =>
    have hlt : b.toNat < 256 := b.toNat_lt
    have hdigits : hexDigits 2 b.toNat = [hexDigit (b.toNat / 16 % 16), hexDigit (b.toNat % 16)] := rfl
    have hvalue : 16 * (b.toNat / 16 % 16) + b.toNat % 16 = b.toNat := by omega
    rw [List.flatMap_cons, hdigits, List.append_assoc, List.cons_append, List.cons_append, List.cons_append,
      List.nil_append, percentBytes?, digitValue_hexDigit (Nat.mod_lt _ (by decide)),
      digitValue_hexDigit (Nat.mod_lt _ (by decide)), ih]
    cases percentBytes? rest with
    | none => rfl
    | some bytes =>
      simp only [Option.map_some, Option.bind_eq_bind, Option.bind_some, hvalue, UInt8.ofNat_toNat]
      rfl

theorem escapeTag_cons (c : Char) (cs : List Char) : escapeTag (c :: cs) = escapeTag [c] ++ escapeTag cs := by
  simp [escapeTag]

theorem percentBytes_escapeTag (cs : List Char) : percentBytes? (escapeTag cs) = some cs.utf8Encode.data.toList := by
  induction cs with
  | nil => simp [escapeTag, percentBytes?]
  | cons c cs ih =>
    rw [escapeTag_cons, List.utf8Encode_cons]
    by_cases hc : isTagChar c = true
    · have hone : escapeTag [c] = [c] := by simp [escapeTag, hc]
      have hpercent : c ≠ '%' := by
        rintro rfl
        cases hc
      rw [hone, List.singleton_append, percentBytes?]
      · rw [ih]
        simp [toList_byteArray]
      · rintro a b others rfl
        exact absurd rfl hpercent
      · exact hpercent
    · have hone : escapeTag [c] = (String.singleton c).toUTF8.toList.flatMap fun b => '%' :: hexDigits 2 b.toNat := by
        simp [escapeTag, hc]
      rw [hone, percentBytes_escaped, ih]
      simp [toList_byteArray]

/-! ## Reading -/

theorem isWordChar_of_mem_hexDigits {places n : Nat} {c : Char} (h : c ∈ hexDigits places n) : isWordChar c = true := by
  induction places generalizing n with
  | zero => cases h
  | succ places ih =>
    obtain h | h := List.mem_append.mp h
    · exact ih h
    · have hall : ∀ k : Fin 16, isWordChar (hexDigit k.val) = true := by decide
      rw [List.mem_singleton.mp h]
      exact hall ⟨n % 16, Nat.mod_lt n (by decide)⟩

theorem isTagChar_of_isWordChar {c : Char} (h : isWordChar c = true) : isTagChar c = true := by
  simp only [isWordChar, Bool.or_eq_true, decide_eq_true_eq] at h
  obtain (h | rfl) | rfl := h
  · simp [isTagChar, h]
  · rfl
  · rfl

theorem isBreak_of_isTagUriChar {wide : Bool} {c : Char} (h : isTagUriChar wide c = true) : isBreak c = false := by
  refine Bool.eq_false_iff.mpr fun hb => ?_
  simp only [isBreak, Bool.or_eq_true, decide_eq_true_eq] at hb
  obtain (((rfl | rfl) | rfl) | rfl) | rfl := hb <;> cases wide <;> cases h

theorem mem_escapeTag {c : Char} {cs : List Char} (h : c ∈ escapeTag cs) :
    (c ∈ cs ∧ isTagChar c = true) ∨ c = '%' ∨ isWordChar c = true := by
  obtain ⟨d, hd, hc⟩ := List.mem_flatMap.mp h
  split at hc
  · obtain rfl := List.mem_singleton.mp hc
    exact .inl ⟨hd, by assumption⟩
  · obtain ⟨b, -, hc⟩ := List.mem_flatMap.mp hc
    obtain rfl | hc := List.mem_cons.mp hc
    · exact .inr (.inl rfl)
    · exact .inr (.inr (isWordChar_of_mem_hexDigits hc))

theorem isTagUriChar_of_isWordChar (wide : Bool) {c : Char} (h : isWordChar c = true) : isTagUriChar wide c = true := by
  simp [isTagUriChar, h]

theorem isTagUriChar_of_isTagChar {c : Char} (h : isTagChar c = true) (hlist : c ≠ ',' ∧ c ≠ '[' ∧ c ≠ ']') :
    isTagUriChar false c = true := by
  simp only [isTagChar, Bool.or_eq_true, List.contains_eq_mem, decide_eq_true_eq] at h
  obtain h | h := h
  · simp [isTagUriChar, isWordChar, h]
  · have hall : ∀ d ∈ "-_;/?:@&=+$,.~*'()[]".toList, (d = ',' ∨ d = '[' ∨ d = ']') ∨ isTagUriChar false d = true :=
      Text.forall_mem_of_all (by decide)
    obtain (hc | hc | hc) | hc := hall c h
    · exact absurd hc hlist.1
    · exact absurd hc hlist.2.1
    · exact absurd hc hlist.2.2
    · exact hc

/-- The escapes of a text without commas and brackets are characters of a tag. -/
theorem isTagUriChar_of_mem_escapeTag {cs : List Char} (h : ∀ c ∈ cs, c ≠ ',' ∧ c ≠ '[' ∧ c ≠ ']') {c : Char}
    (hc : c ∈ escapeTag cs) : isTagUriChar false c = true := by
  obtain ⟨hmem, hc⟩ | rfl | hc := mem_escapeTag hc
  · exact isTagUriChar_of_isTagChar hc (h c hmem)
  · rfl
  · exact isTagUriChar_of_isWordChar false hc

def endsTagText (d : Char) : Bool := d = ' ' || d = '\n'

theorem isTagUriChar_of_endsTagText {d : Char} (h : endsTagText d = true) (wide : Bool) :
    isTagUriChar wide (normalBreak d) = false := by
  simp only [endsTagText, Bool.or_eq_true, decide_eq_true_eq] at h
  obtain rfl | rfl := h <;> cases wide <;> rfl

theorem readTagUri_escapeTag (wide mayBeEmpty : Bool) {cs : List Char}
    (hcs : ∀ c ∈ escapeTag cs, isTagUriChar wide c = true) (hnul : '\x00' ∉ cs)
    (hempty : mayBeEmpty = true ∨ escapeTag cs ≠ []) {d : Char} (hd : isTagUriChar wide (normalBreak d) = false)
    (hcr : d ≠ '\r') (q : Position) (rest : List Char) :
    readTagUri? wide mayBeEmpty (q.cells (escapeTag cs ++ d :: rest)) =
      some (String.ofList cs, (q.after (escapeTag cs)).cells (d :: rest)) := by
  have hspan := spanChars_cells q (isTagUriChar wide) (escapeTag cs) d rest
    (fun c hc => ⟨hcs c hc, isBreak_of_isTagUriChar (hcs c hc)⟩) hd hcr
  have hfits : ¬ ((escapeTag cs).isEmpty && !mayBeEmpty) = true := by
    obtain rfl | hne := hempty
    · simp
    · simp [hne]
  simp only [readTagUri?, hspan, unescapeTag_of_bytes (percentBytes_escapeTag cs) hnul, Option.bind_eq_bind,
    Option.bind_some, if_neg hfits]

theorem escapeTag_word {word : List Char} (h : ∀ c ∈ word, isWordChar c = true) : escapeTag word = word := by
  induction word with
  | nil => rfl
  | cons c word ih =>
    have hone : escapeTag [c] = [c] := by simp [escapeTag, isTagChar_of_isWordChar (h c (by simp))]
    rw [escapeTag_cons, hone, ih fun d hd => h d (by simp [hd])]
    rfl

theorem escapeTag_append (as cs : List Char) : escapeTag (as ++ cs) = escapeTag as ++ escapeTag cs :=
  List.flatMap_append

/-- What follows the exclamation mark of a tag starts no tag in full and ends no handle. -/
theorem exists_head_escapeTag (cs : List Char) {d : Char} (hd : endsTagText d = true) (rest : List Char) :
    ∃ e X, escapeTag cs ++ d :: rest = e :: X ∧ (e ≠ '!' ∧ e ≠ '\r' ∧ e ≠ '<') ∧
      (cs.head?.any isWordChar = false → isWordChar (normalBreak e) = false) := by
  cases cs with
  | nil =>
    refine ⟨d, rest, rfl, ?_⟩
    simp only [endsTagText, Bool.or_eq_true, decide_eq_true_eq] at hd
    obtain rfl | rfl := hd <;> decide
  | cons c cs =>
    by_cases htag : isTagChar c = true
    · have hone : escapeTag [c] = [c] := by simp [escapeTag, htag]
      have hne : ∀ x : Char, isTagChar x = false → c ≠ x := by
        rintro x hx rfl
        rw [hx] at htag
        cases htag
      have hchar : normalBreak c = c := by simp [normalBreak, hne '\r' rfl, hne '\u0085' rfl]
      exact ⟨c, escapeTag cs ++ d :: rest, by rw [escapeTag_cons, hone]; rfl, ⟨hne '!' rfl, hne '\r' rfl, hne '<' rfl⟩,
        fun hword => by simpa [hchar] using hword⟩
    · have hone : escapeTag [c] = (String.singleton c).toUTF8.toList.flatMap fun b => '%' :: hexDigits 2 b.toNat := by
        simp [escapeTag, htag]
      obtain ⟨b, bytes, hbytes⟩ := List.exists_cons_of_ne_nil (Render.bytes_ne_nil c)
      refine ⟨'%', _, by rw [escapeTag_cons, hone, hbytes, List.flatMap_cons]; rfl, by decide,
        fun _ => by decide⟩

theorem readShortTag_escapeTag {cs : List Char} (hne : cs ≠ []) (hcs : ∀ c ∈ cs, c ≠ ',' ∧ c ≠ '[' ∧ c ≠ ']')
    (hnul : '\x00' ∉ cs) {d : Char} (hd : endsTagText d = true) (q : Position) (rest : List Char) :
    readShortTag? (q.cells ('!' :: (escapeTag cs ++ d :: rest))) =
      some (.tag "!" (String.ofList cs), (q.after ('!' :: escapeTag cs)).cells (d :: rest)) := by
  obtain ⟨word, cs', rfl, hword, hcs'⟩ : ∃ word cs', cs = word ++ cs' ∧ (∀ c ∈ word, isWordChar c = true) ∧
      cs'.head?.any isWordChar = false :=
    ⟨cs.takeWhile isWordChar, cs.dropWhile isWordChar, List.takeWhile_append_dropWhile.symm,
      fun c hc => List.all_eq_true.mp List.all_takeWhile c hc, by simpa using Text.head?_dropWhile isWordChar cs⟩
  obtain ⟨e, X, hX, ⟨hmark, hcr, -⟩, he⟩ := exists_head_escapeTag cs' hd rest
  have he := he hcs'
  have hbreak : ∀ c ∈ word, isBreak c = false := fun c hc =>
    isBreak_of_isTagUriChar (isTagUriChar_of_isWordChar false (hword c hc))
  have hspan := spanChars_cells (q.next '!') isWordChar word e X (fun c hc => ⟨hword c hc, hbreak c hc⟩) he hcr
  have hsuffix := readTagUri_escapeTag false true (fun c hc => isTagUriChar_of_mem_escapeTag
    (fun x hx => hcs x (List.mem_append_right word hx)) hc) (fun hc => hnul (List.mem_append_right word hc)) (.inl rfl)
    (isTagUriChar_of_endsTagText hd false)
    (by rintro rfl; cases hd) ((q.next '!').after word) rest
  have hhandle : ¬ (decide (('!' :: word).length ≥ 2) && decide (('!' :: word).getLast? = some '!')) = true := by
    cases hend : word.getLast? with
    | none =>
      obtain rfl : word = [] := List.getLast?_eq_none_iff.mp hend
      decide
    | some c =>
      have hlast := hword c (List.mem_of_getLast? hend)
      have hc : c ≠ '!' := by
        rintro rfl
        cases hlast
      simp [List.getLast?_cons, hend, hc]
  have hchar : (((q.next '!').after word).cell e).char ≠ '!' := by
    show normalBreak e ≠ '!'
    unfold normalBreak
    split
    · decide
    · exact hmark
  have hread : readHandle? (q.cells ('!' :: (word ++ (escapeTag cs' ++ d :: rest)))) =
      some ('!' :: word, ((q.next '!').after word).cells (escapeTag cs' ++ d :: rest)) := by
    rw [cells_cons q '!' _ (by decide), readHandle?, hX, hspan, cells_cons _ e X hcr]
    simp [cell_char q '!' rfl, hchar]
  rw [escapeTag_append, escapeTag_word hword, List.append_assoc, readShortTag?, hread]
  simp only [Option.bind_eq_bind, Option.bind_some, if_neg hhandle, hsuffix]
  have hboth : word = [] → cs' ≠ [] := fun hword hnil => hne (by rw [hword, hnil, List.append_nil])
  simpa using hboth

def tagToken (tag : String) : Token := if tag = "!" then .tag "" "!" else .tag "!" tag

theorem fullTag_of_isLegible {tag : String} (h : IsLegible tag) (hmark : tag ≠ "!") :
    tagText tag = '!' :: escapeTag tag.toList := by
  have hhead := h.mark.resolve_left hmark
  have hne : tag.toList ≠ [] := fun hnil => h.nonempty (String.toList_eq_nil_iff.mp hnil)
  obtain ⟨c, cs, hcs⟩ := List.exists_cons_of_ne_nil hne
  have hwhole : tag.toList.takeWhile (· ≠ '\x00') = tag.toList :=
    List.takeWhile_eq_self_iff.mpr fun d hd => decide_eq_true fun hnul => h.uncut (hnul ▸ hd)
  have hfull : fullTag tag = '!' :: c :: cs := by
    unfold fullTag
    split
    · rename_i heq
      exact absurd (by rw [heq]; rfl) hhead
    · rw [← hcs]
      exact congrArg ('!' :: ·) hwhole
  rw [hcs, tagText, hfull]
  rfl

theorem readTag_tagText {tag : String} (h : IsLegible tag) {d : Char} (hd : endsTagText d = true) (q : Position)
    (rest : List Char) : readTag? false (q.cells (tagText tag ++ d :: rest)) =
      some (tagToken tag, (q.after (tagText tag)).cells (d :: rest)) := by
  have hword (p : Position) : atWordEnd (p.cells (d :: rest)) = true := by
    rw [atWordEnd_cells]
    simp only [endsTagText, Bool.or_eq_true, decide_eq_true_eq] at hd
    obtain rfl | rfl := hd <;> rfl
  by_cases hmark : tag = "!"
  · subst hmark
    have htext : tagText "!" = '!' :: '<' :: (escapeTag ['!'] ++ ['>']) := rfl
    have hchars : ∀ c ∈ escapeTag ['!'], isTagUriChar true c = true := Text.forall_mem_of_all (by decide +kernel)
    have hread := readTagUri_escapeTag true false hchars (by decide) (.inr (by decide +kernel)) (d := '>') rfl (by decide)
      ((q.next '!').next '<') (d :: rest)
    have hcells : q.cells (tagText "!" ++ d :: rest) = q.cell '!' :: (q.next '!').cell '<' ::
        ((q.next '!').next '<').cells (escapeTag ['!'] ++ '>' :: d :: rest) := by
      rw [htext, List.cons_append, List.cons_append, List.append_assoc, cells_cons q '!' _ (by decide),
        cells_cons _ '<' _ (by decide)]
      rfl
    have hless : nextIs (· = '<') ((q.cells (tagText "!" ++ d :: rest)).drop 1) = true := by
      rw [hcells]
      simp [nextIs, cell_char _ '<' rfl]
    rw [readTag?, hless, hcells]
    simp only [if_true, readVerbatimTag?, List.drop_succ_cons, List.drop_zero, hread, Option.bind_eq_bind,
      Option.bind_some]
    rw [cells_cons _ '>' _ (by decide)]
    simp only [cell_char _ '>' rfl, if_true, Option.bind_some, endsTag, hword, Bool.true_or, htext, after_cons,
      after_append, after_nil]
    rfl
  · have hne : tag.toList ≠ [] := fun hnil => h.nonempty (String.toList_eq_nil_iff.mp hnil)
    rw [fullTag_of_isLegible h hmark, List.cons_append, tagToken, if_neg hmark]
    have hless : nextIs (· = '<') ((q.cells ('!' :: (escapeTag tag.toList ++ d :: rest))).drop 1) = false := by
      obtain ⟨e, X, hX, ⟨-, hcr, hless⟩, -⟩ := exists_head_escapeTag tag.toList hd rest
      have hchar : ((q.next '!').cell e).char ≠ '<' := by
        show normalBreak e ≠ '<'
        unfold normalBreak
        split
        · decide
        · exact hless
      rw [hX, cells_cons q '!' _ (by decide), List.drop_one, List.tail_cons, cells_cons _ e X hcr]
      simpa [nextIs] using hchar
    have hread := readShortTag_escapeTag hne h.unlisted h.uncut hd q rest
    rw [readTag?, hless]
    simp only [Bool.false_eq_true, if_false, hread, Option.bind_eq_bind, Option.bind_some, endsTag, hword]
    simp

def seenTag (tag : String) : String := if tag = "!" then "!" else "!" ++ tag

theorem tagging_tagToken (tag : String) : Tagging standardHandles [tagToken tag] (some (seenTag tag)) := by
  unfold tagToken seenTag
  split
  · exact .some "" "!" "!" rfl
  · exact .some "!" tag _ rfl

theorem localTag_seenTag {tag : String} (h : IsLegible tag) : localTag? (some (seenTag tag)) = some tag := by
  unfold seenTag
  split
  · rename_i hmark
    rw [hmark]
    rfl
  · rename_i hmark
    have hhead := h.mark.resolve_left hmark
    have hne : tag.toList ≠ [] := fun hnil => h.nonempty (String.toList_eq_nil_iff.mp hnil)
    obtain ⟨c, cs, hcs⟩ := List.exists_cons_of_ne_nil hne
    have hc : c ≠ '!' := by
      rintro rfl
      exact hhead (by rw [hcs]; rfl)
    have hfull : ("!" ++ tag).toList = '!' :: c :: cs := by simp [hcs]
    have hname : Value.tagName (String.ofList (c :: cs)) = tag := by
      unfold Value.tagName
      split
      · rename_i heq
        rw [String.toList_ofList] at heq
        cases heq
        exact absurd rfl hc
      · rw [← hcs, String.ofList_toList]
    have huncut : (c :: cs).contains '\x00' = false := by
      rw [List.contains_eq_mem, decide_eq_false_iff_not, ← hcs]
      exact h.uncut
    rw [localTag?, Option.map_some, hfull]
    simp only [huncut, Bool.false_eq_true, if_false, hname]

theorem isBreak_of_mem_escapeTag {cs : List Char} {c : Char} (h : c ∈ escapeTag cs) : isBreak c = false := by
  obtain ⟨-, hc⟩ | rfl | hc := mem_escapeTag h
  · refine Bool.eq_false_iff.mpr fun hb => ?_
    simp only [isBreak, Bool.or_eq_true, decide_eq_true_eq] at hb
    obtain (((rfl | rfl) | rfl) | rfl) | rfl := hb <;> cases hc
  · rfl
  · exact isBreak_of_isTagUriChar (isTagUriChar_of_isWordChar false hc)

theorem isBreak_of_mem_tagText {tag : String} {c : Char} (h : c ∈ tagText tag) : isBreak c = false := by
  unfold tagText at h
  split at h
  · simp only [List.cons_append, List.mem_cons, List.mem_append, List.not_mem_nil, or_false] at h
    obtain rfl | rfl | h | rfl := h
    · rfl
    · rfl
    · exact isBreak_of_mem_escapeTag h
    · rfl
  · obtain rfl | h := List.mem_cons.mp h
    · rfl
    · exact isBreak_of_mem_escapeTag h

namespace Scanner

variable {cols : List Nat} {key : Option PossibleKey} {allowed : Bool} {ts : List Token} {q : Position}
  {rest : List Char} {k : Nat} {tag : String}

theorem token_tag (u : Scanner) (hu : u.brackets = []) (q : Position) (cells : List Cell) :
    u.token? (q.cell '!') cells = u.leaf? (readTag? false) := by
  simp [token?, cell_char q '!' rfl, not_isMarker _ q '!' _ rfl, inFlow, hu]

theorem exists_tagText (tag : String) : ∃ cs, tagText tag = '!' :: cs := by
  unfold tagText
  split <;> exact ⟨_, rfl⟩

theorem leads_tag (h : MayStart cols key allowed q k '!') (ht : IsLegible tag) {d : Char} (hd : endsTagText d = true) :
    Leads (outside cols key allowed ts q (spaces k ++ (tagText tag ++ d :: rest)))
      (outside cols (saved cols (keepFresh ((q.after (spaces k)).cell '!') key) allowed ts (q.after (spaces k))) false
        (tagToken tag :: ts) ((q.after (spaces k)).after (tagText tag)) (d :: rest)) := by
  have hread := readTag_tagText ht hd (q.after (spaces k)) rest
  have hcr : '\r' ∉ (tagText tag).tail := fun hmem => by
    cases isBreak_of_mem_tagText (List.mem_of_mem_tail hmem)
  have hlength := length_cells_after_le ((q.after (spaces k)).next '!') (tagText tag).tail (d :: rest) hcr
  obtain ⟨cs, hcs⟩ := exists_tagText tag
  rw [hcs] at hread hlength ⊢
  exact h.leads_leaf (fun u hu => token_tag u hu _ _) hread hlength

end Scanner

end CiWorkflow.Yaml
