import CiWorkflow.Proofs.Render.Standing
import CiWorkflow.Proofs.Render.Fresh
import CiWorkflow.Proofs.Yaml.Number
import CiWorkflow.Yaml.Writer

set_option autoImplicit false

namespace CiWorkflow.Render

open Text Yaml

/-! ## Spelling -/

section Spelling

variable {pattern : List Char}

theorem infix_of_insert {inserted : List Char} (h : ∀ c ∈ inserted, c ∉ pattern) {front back : List Char}
    (hin : pattern <:+: front ++ (inserted ++ back)) : pattern <:+: front ++ back := by
  induction inserted with
  | nil => exact hin
  | cons c inserted ih =>
    refine ih (fun d hd => h d (by simp [hd])) ?_
    obtain hf | hb := (infix_append_cons_iff (h c (by simp))).mp hin
    · exact hf.trans (List.prefix_append ..).isInfix
    · exact hb.trans (List.suffix_append ..).isInfix

theorem infix_of_indentLines (hspace : ' ' ∉ pattern) (width : Nat) (fresh : Bool) (front : List Char)
    {cs : List Char} (h : pattern <:+: front ++ indentLines width fresh cs) : pattern <:+: front ++ cs := by
  induction cs generalizing fresh front with
  | nil => exact h
  | cons c rest ih =>
    have hbehind (fresh : Bool) (h : pattern <:+: front ++ c :: indentLines width fresh rest) :
        pattern <:+: front ++ c :: rest := by
      rw [List.append_cons] at h ⊢
      exact ih fresh _ h
    rw [indentLines] at h
    split at h
    · exact hbehind true h
    · refine hbehind false (infix_of_insert (fun d hd => ?_) h)
      cases fresh with
      | true => exact List.eq_of_mem_replicate hd ▸ hspace
      | false => cases hd

theorem underscore_not_mem_hexDigits (places n : Nat) : '_' ∉ hexDigits places n := by
  have hdigit : ∀ k < 16, hexDigit k ≠ '_' := by decide
  induction places generalizing n with
  | zero => simp [hexDigits]
  | succ places ih =>
    rw [hexDigits, List.mem_append, List.mem_singleton]
    rintro (h | h)
    · exact ih _ h
    · exact hdigit (n % 16) (Nat.mod_lt n (by decide)) h.symm

theorem escapeName_ne {c name : Char} (h : escapeName? c = some name) : name ≠ '_' := by
  unfold escapeName? at h
  split at h <;> cases h <;> decide

theorem escape_cases (c : Char) :
    Yaml.escape c = [c] ∨ ∃ tail, Yaml.escape c = '\\' :: tail ∧ '_' ∉ tail := by
  have hdigits (places : Nat) {letter : Char} (hletter : letter ≠ '_') :
      '_' ∉ letter :: hexDigits places c.toNat :=
    fun h => (List.mem_cons.mp h).elim (fun h => hletter h.symm) (underscore_not_mem_hexDigits places c.toNat)
  unfold Yaml.escape
  split
  · exact .inl rfl
  · cases hname : escapeName? c with
    | some name => exact .inr ⟨[name], rfl, fun h => escapeName_ne hname (List.mem_singleton.mp h).symm⟩
    | none =>
      right
      dsimp only
      split
      · exact ⟨_, rfl, hdigits 2 (by decide)⟩
      split
      · exact ⟨_, rfl, hdigits 4 (by decide)⟩
      · exact ⟨_, rfl, hdigits 8 (by decide)⟩

theorem spares_yamlEscape (n : Nat) : Spares Yaml.escape (marker n).toList := by
  intro c
  obtain hc | ⟨tail, hc, htail⟩ := escape_cases c
  · exact .inl hc
  · refine .inr ⟨'\\', tail, hc, not_mem_marker (by decide) n, fun x hx => ?_⟩
    rw [head_marker] at hx
    cases hx
    simp [hc, htail]

theorem spares_apostrophes (n : Nat) :
    Spares (fun c => if c = '\'' then ['\'', '\''] else [c]) (marker n).toList := by
  intro c
  by_cases hc : c = '\''
  · refine .inr ⟨'\'', ['\''], if_pos hc, not_mem_marker (by decide) n, fun x hx => ?_⟩
    rw [head_marker] at hx
    cases hx
    simp [hc]
  · exact .inl (if_neg hc)

variable {n : Nat} {cs : List Char}

theorem holdsAt_singleQuoted (h : HoldsAt n cs []) (width : Nat) : HoldsAt n (singleQuoted width cs) [] := by
  have hlines : HoldsAt n (indentLines width false (doubleApostrophes cs)) [] := by
    refine HoldsAt.nil_iff.mpr fun hin => HoldsAt.nil_iff.mp h ?_
    have hdoubled := infix_of_indentLines (not_mem_marker (by decide) n) width false [] hin
    exact infix_of_flatMap (spares_apostrophes n) (marker_ne_nil n) hdoubled
  obtain ⟨pad, hpad, heq⟩ : ∃ pad : List Char, (∀ c ∈ pad, c = ' ') ∧
      singleQuoted width cs = ['\''] ++ indentLines width false (doubleApostrophes cs) ++ (pad ++ ['\'']) := by
    refine ⟨if endsIn isBreak cs then Yaml.spaces width else [], ?_, by simp [singleQuoted]⟩
    split
    · exact fun c hc => List.eq_of_mem_replicate hc
    · simp
  have hback : '_' ∉ pad ++ ['\''] := by
    intro h
    obtain h | h := List.mem_append.mp h
    · exact absurd (hpad _ h) (by decide)
    · exact absurd h (by decide)
  have hstart : ∀ c ∈ (pad ++ ['\'']).head?, isReferenceChar c = false := by
    intro c hc
    obtain hc | hc := List.mem_append.mp (List.mem_of_mem_head? hc)
    · exact hpad c hc ▸ by decide
    · exact List.mem_singleton.mp hc ▸ by decide
  rw [heq]
  exact (hlines.behind ['\''] (by decide) (by simp; decide)).before _ hback hstart

theorem holdsAt_doubleQuoted (h : HoldsAt n cs []) : HoldsAt n (doubleQuoted cs) [] := by
  have hescaped : HoldsAt n (cs.flatMap Yaml.escape) [] :=
    HoldsAt.nil_iff.mpr fun hin => HoldsAt.nil_iff.mp h (infix_of_flatMap (spares_yamlEscape n) (marker_ne_nil n) hin)
  exact (hescaped.behind ['"'] (by decide) (by simp; decide)).before ['"'] (by decide) (by simp; decide)

theorem holdsAt_literalBlock (h : HoldsAt n cs []) (width : Nat) : HoldsAt n (literalBlock width cs) [] := by
  have hlines : HoldsAt n (indentLines width true cs) [] := by
    refine HoldsAt.nil_iff.mpr fun hin => HoldsAt.nil_iff.mp h ?_
    exact infix_of_indentLines (not_mem_marker (by decide) n) width true [] hin
  have hhint : '_' ∉ indentHint cs := by
    unfold indentHint
    split
    · simp
    · split <;> simp
  have hchomping : '_' ∉ chomping cs := by
    unfold chomping
    split
    · simp
    · split
      · simp
      · split <;> simp
  have hfront : '_' ∉ '|' :: indentHint cs ++ chomping cs ++ ['\n'] := by
    simp [hhint, hchomping]
  have hend : ∀ c ∈ ('|' :: indentHint cs ++ chomping cs ++ ['\n']).getLast?, isReferenceChar c = false := by
    rw [List.getLast?_concat]
    rintro c ⟨⟩
    decide
  have hall := hlines.behind _ hfront hend
  simpa [literalBlock] using hall

theorem holdsAt_scalarText {s : String} (h : HoldsAt n s.toList []) (width : Nat) :
    HoldsAt n (scalarText width s) [] := by
  unfold scalarText
  split
  · exact h
  · exact holdsAt_singleQuoted h width
  · exact holdsAt_doubleQuoted h
  · exact holdsAt_literalBlock h width

/-- The characters of a reference are written as they are, in quotes or not. -/
theorem plain_of_mem_reference {i : Nat} {c : Char} (h : c ∈ (reference n i).toList) :
    needsEscape c = false ∧ c ≠ '\'' := by
  have hdigit : ∀ k < 58, 48 ≤ k → needsEscape (Char.ofNat k) = false ∧ Char.ofNat k ≠ '\'' := by decide
  have hstem : ∀ c ∈ ':' :: markerStem.toList, needsEscape c = false ∧ c ≠ '\'' := forall_mem_of_all (by decide)
  have hof (hc : c.isDigit = true) : needsEscape c = false ∧ c ≠ '\'' := by
    have hrange : 48 ≤ c.toNat ∧ c.toNat ≤ 57 := by simpa [Char.isDigit, UInt32.le_iff_toNat_le] using hc
    have := hdigit c.toNat (by omega) hrange.1
    rwa [Char.ofNat_toNat] at this
  have heq : (reference n i).toList = (marker n).toList ++ ':' :: Nat.toDigits 10 i := by simp [reference]
  rw [heq, List.mem_append, List.mem_cons] at h
  obtain h | rfl | h := h
  · obtain h | h := mem_marker h
    · exact hstem c (List.mem_cons_of_mem _ h)
    · exact hof h
  · exact hstem _ (List.mem_cons_self ..)
  · exact hof (Nat.isDigit_of_mem_toDigits (by decide) (by decide) h)

theorem flatMap_eq_self {f : Char → List Char} (h : ∀ c ∈ cs, f c = [c]) : cs.flatMap f = cs := by
  rw [List.flatMap_congr h, List.flatMap_singleton']

theorem indentLines_eq_self (width : Nat) (h : ∀ c ∈ cs, isBreak c = false) : indentLines width false cs = cs := by
  induction cs with
  | nil => rfl
  | cons c rest ih =>
    rw [indentLines, if_neg (by simp [h c (by simp)]), ih fun d hd => h d (by simp [hd])]
    rfl

theorem mem_doubleApostrophes {cs : List Char} {c : Char} (h : c ∈ doubleApostrophes cs) : c ∈ cs := by
  obtain ⟨d, hd, hc⟩ := List.mem_flatMap.mp h
  split at hc
  · rename_i hquote
    have hsame : c = d := by simpa [hquote] using hc
    rwa [hsame]
  · rwa [List.mem_singleton.mp hc]

theorem endsIn_line {cs : List Char} (h : ∀ c ∈ cs, isBreak c = false) : endsIn isBreak cs = false := by
  refine Bool.eq_false_iff.mpr fun hend => ?_
  obtain ⟨c, hc, hb⟩ := (Option.any_eq_true _ _).mp hend
  rw [h c (List.mem_of_getLast? hc)] at hb
  cases hb

section OneLine

variable {s : String} (hbreak : ∀ c ∈ s.toList, isBreak c = false)

include hbreak

theorem style_ne_literal : style s ≠ .literal := by
  have hfeed : s.toList.contains '\n' = false := by
    rw [List.contains_eq_mem, decide_eq_false_iff_not]
    intro hmem
    cases hbreak _ hmem
  have hwanted : wantedStyle s ≠ .literal := by
    unfold wantedStyle
    rw [hfeed]
    simp only [Bool.false_eq_true, if_false]
    split <;> simp
  unfold style
  dsimp only
  split
  · exact absurd ‹_› hwanted
  · split
    · simp
    · split <;> simp
  · split <;> simp
  · simp

theorem singleQuoted_line (w : Nat) : singleQuoted w s.toList = '\'' :: (doubleApostrophes s.toList ++ ['\'']) := by
  rw [singleQuoted, indentLines_eq_self w fun c hc => hbreak c (mem_doubleApostrophes hc), endsIn_line hbreak]
  simp

end OneLine

theorem isBreak_of_mem_reference {i : Nat} {c : Char} (h : c ∈ (reference n i).toList) : isBreak c = false := by
  have hplain := (plain_of_mem_reference h).1
  simp only [needsEscape, Bool.or_eq_false_iff] at hplain
  exact hplain.1.1.2

theorem exists_scalarText_reference (n i width : Nat) : ∃ quote, (quote = [] ∨ quote = ['"'] ∨ quote = ['\'']) ∧
    scalarText width (reference n i) = quote ++ ((reference n i).toList ++ quote) := by
  have hplain {c : Char} (hc : c ∈ (reference n i).toList) := (plain_of_mem_reference hc).1
  have hdoubled : doubleApostrophes (reference n i).toList = (reference n i).toList :=
    flatMap_eq_self fun c hc => if_neg (plain_of_mem_reference hc).2
  have hescaped : (reference n i).toList.flatMap Yaml.escape = (reference n i).toList :=
    flatMap_eq_self fun c hc => by simp [Yaml.escape, hplain hc]
  unfold scalarText
  split
  · exact ⟨[], .inl rfl, (List.append_nil _).symm⟩
  · exact ⟨['\''], .inr (.inr rfl), by rw [singleQuoted_line fun _ => isBreak_of_mem_reference, hdoubled]; rfl⟩
  · exact ⟨['"'], .inr (.inl rfl), by rw [doubleQuoted, hescaped]; rfl⟩
  · rename_i hstyle
    exact absurd hstyle (style_ne_literal fun _ => isBreak_of_mem_reference)

theorem holdsAt_scalarText_reference (n i width : Nat) : HoldsAt n (scalarText width (reference n i)) [i] := by
  obtain ⟨quote, hquote, heq⟩ := exists_scalarText_reference n i width
  rw [heq]
  have hreference := HoldsAt.of_reference n i
  obtain rfl | rfl | rfl := hquote
  · simpa using hreference
  · exact (hreference.before _ (by decide) (by simp; decide)).behind _ (by decide) (by simp; decide)
  · exact (hreference.before _ (by decide) (by simp; decide)).behind _ (by decide) (by simp; decide)

end Spelling

/-! ## Tags -/

theorem bytes_ne_nil (c : Char) : (String.singleton c).toUTF8.toList ≠ [] := by
  have hsize : 0 < (String.singleton c).toUTF8.size := by simp [List.utf8Encode_singleton, c.utf8Size_pos]
  have hloop (bs : ByteArray) (i : Nat) (r : List UInt8) : r ≠ [] → ByteArray.toList.loop bs i r ≠ [] := by
    fun_induction ByteArray.toList.loop bs i r with
    | case1 i r hlt ih => exact fun _ => ih (by simp)
    | case2 i r hge => simp
  rw [ByteArray.toList, ByteArray.toList.loop, if_pos hsize]
  exact hloop _ _ _ (by simp)

theorem spares_tag (n : Nat) : Spares (fun c => if isTagChar c then [c]
    else (String.singleton c).toUTF8.toList.flatMap fun b => '%' :: hexDigits 2 b.toNat) (marker n).toList := by
  intro c
  by_cases hc : isTagChar c = true
  · exact .inl (if_pos hc)
  · obtain ⟨b, bytes, hbytes⟩ := List.exists_cons_of_ne_nil (bytes_ne_nil c)
    have hnone : '_' ∉ (b :: bytes).flatMap fun b => '%' :: hexDigits 2 b.toNat := by
      intro h
      obtain ⟨x, -, hx⟩ := List.mem_flatMap.mp h
      obtain hx | hx := List.mem_cons.mp hx
      · exact absurd hx (by decide)
      · exact underscore_not_mem_hexDigits 2 x.toNat hx
    dsimp only
    rw [if_neg hc, hbytes]
    refine .inr ⟨'%', hexDigits 2 b.toNat ++ bytes.flatMap fun b => '%' :: hexDigits 2 b.toNat, rfl,
      not_mem_marker (by decide) n, fun x hx => ?_⟩
    rw [head_marker] at hx
    cases hx
    exact hnone

theorem isInfix_fullTag (t : String) : fullTag t <:+: '!' :: t.toList := by
  have hcut (cs : List Char) : '!' :: cs.takeWhile (· ≠ '\x00') <+: '!' :: cs :=
    (List.prefix_cons_inj _).mpr (List.takeWhile_prefix _)
  unfold fullTag
  split
  · rename_i rest heq
    rw [heq]
    exact (hcut rest).isInfix.trans (List.suffix_cons _ _).isInfix
  · exact (hcut t.toList).isInfix

theorem holdsAt_tagText {n : Nat} {t : String} (h : HoldsAt n (Value.shownTag t).toList []) :
    HoldsAt n (tagText t) [] := by
  have hshown : (Value.shownTag t).toList = '!' :: t.toList := by simp [Value.shownTag]
  rw [hshown] at h
  have hfull : HoldsAt n (fullTag t) [] := h.nil_of_infix (isInfix_fullTag t)
  have hescaped {cs : List Char} (hcs : HoldsAt n cs []) : HoldsAt n (escapeTag cs) [] :=
    HoldsAt.nil_iff.mpr fun hin => HoldsAt.nil_iff.mp hcs (infix_of_flatMap (spares_tag n) (marker_ne_nil n) hin)
  unfold tagText
  split
  · have hmark : HoldsAt n ['!'] [] := .of_not_mem (by decide)
    have hopen := (hescaped hmark).behind ['!', '<'] (by decide) (by simp; decide)
    exact hopen.before ['>'] (by decide) (by simp; decide)
  · have hrest := hescaped (hfull.nil_of_infix (List.drop_suffix 1 (fullTag t)).isInfix)
    exact hrest.behind ['!'] (by decide) (by simp; decide)

/-! ## Atoms -/

theorem holdsAt_number {n : Nat} {w : List Char} (h : IsNumberText w) : HoldsAt n w [] := by
  refine .of_not_mem fun hw => ?_
  have := h.chars '_' hw
  revert this
  decide

theorem holdsAt_atom {n width : Nat} {v : Value} {text : List Char} {is : List Nat}
    (h : atomText? width v = some text) (hm : Mentions n (texts v) is) : HoldsAt n text is := by
  cases v with
  | string s =>
    cases h
    cases hm with
    | free hs h =>
      cases h
      exact holdsAt_scalarText hs width
    | reference h =>
      cases h
      exact holdsAt_scalarText_reference n _ width
  | float x =>
    cases h
    cases hm
    cases hk : x.kind with
    | nan =>
      have htext : Yaml.floatLayout.write x = ".nan" := by rw [Decimal.Layout.write, hk]; rfl
      rw [htext]
      exact .of_not_mem (by decide)
    | infinite negative =>
      have htext : Yaml.floatLayout.write x = if negative then "-.inf" else ".inf" := by
        rw [Decimal.Layout.write, hk]
        rfl
      rw [htext]
      cases negative <;> exact .of_not_mem (by decide)
    | finite negative m q => exact holdsAt_number (isNumberText_float Yaml.floatLayout rfl x negative m q hk)
  | int k =>
    cases h
    cases hm
    exact holdsAt_number (isNumberText_int k)
  | null =>
    cases h
    cases hm
    exact .of_not_mem (by decide)
  | bool b =>
    cases h
    cases hm
    cases b <;> exact .of_not_mem (by decide)
  | sequence items =>
    cases items with
    | nil =>
      cases h
      cases hm
      exact .of_not_mem (by decide)
    | cons => cases h
  | mapping entries =>
    cases entries with
    | nil =>
      cases h
      cases hm
      exact .of_not_mem (by decide)
    | cons => cases h
  | tagged => cases h

/-! ## Lines -/

def Closed (cs : List Char) : Prop := ∀ c ∈ cs.getLast?, isReferenceChar c = false

theorem Closed.append {A B : List Char} (hA : Closed A) (hB : Closed B) : Closed (A ++ B) := by
  intro c hc
  rw [List.getLast?_append] at hc
  cases hlast : B.getLast? with
  | none =>
    rw [hlast] at hc
    exact hA c hc
  | some b =>
    rw [hlast] at hc
    cases hc
    exact hB c hlast

theorem Closed.concat (cs : List Char) {c : Char} (h : isReferenceChar c = false) : Closed (cs ++ [c]) := by
  intro d hd
  rw [List.getLast?_concat] at hd
  cases hd
  exact h

theorem isReferenceChar_of_isBreak {c : Char} (h : isBreak c = true) : isReferenceChar c = false := by
  simp only [isBreak, Bool.or_eq_true, decide_eq_true_eq] at h
  obtain (((rfl | rfl) | rfl) | rfl) | rfl := h <;> decide

/-- The text holds the marker at the given references and ends in a character that no reference has. -/
structure HoldsLines (n : Nat) (cs : List Char) (is : List Nat) : Prop where
  holds : HoldsAt n cs is
  closed : Closed cs

namespace HoldsLines

variable {n : Nat} {A B : List Char} {is js : List Nat}

theorem nil : HoldsLines n [] [] := ⟨.of_not_mem (by decide), by simp [Closed]⟩

theorem append (hA : HoldsLines n A is) (hB : HoldsLines n B js) : HoldsLines n (A ++ B) (is ++ js) :=
  ⟨hA.holds.append hB.holds fun c hc _ _ => .inl (hA.closed c hc), hA.closed.append hB.closed⟩

theorem of_plain (h : '_' ∉ A) (hclosed : Closed A) : HoldsLines n A [] := ⟨.of_not_mem h, hclosed⟩

theorem closeWith (h : HoldsAt n A is) {c : Char} (hc : isReferenceChar c = false) : HoldsLines n (A ++ [c]) is := by
  refine ⟨h.before [c] ?_ ?_, .concat A hc⟩
  · intro hmem
    rw [List.mem_singleton] at hmem
    subst hmem
    cases hc
  · rintro d ⟨⟩
    exact hc

theorem spaces (width : Nat) : HoldsLines n (Yaml.spaces width) [] := by
  refine of_plain (fun h => absurd (List.eq_of_mem_replicate h) (by decide)) fun c hc => ?_
  rw [List.eq_of_mem_replicate (List.mem_of_getLast? hc)]
  decide

end HoldsLines

theorem holdsLines_closeLine {n : Nat} {cs : List Char} {is : List Nat} (h : HoldsAt n cs is) :
    HoldsLines n (closeLine cs) is := by
  unfold closeLine
  split
  · rename_i hend
    obtain ⟨c, hc, hb⟩ := (Option.any_eq_true _ _).mp hend
    refine ⟨h, fun d hd => ?_⟩
    rw [hc] at hd
    cases hd
    exact isReferenceChar_of_isBreak hb
  · exact .closeWith h (by decide)

theorem holdsLines_gap (n : Nat) (p : Yaml.Place) : HoldsLines n p.gap [] := by
  have hblank : HoldsLines n [' '] [] := .of_plain (by decide) (by simp [Closed]; decide)
  cases p with
  | root => exact .nil
  | value => exact hblank
  | item => exact hblank
  | slot => exact hblank

theorem holdsLines_placeBlock {n : Nat} {body : List Char} {is : List Nat} (p : Yaml.Place) (tag : Option String)
    (m : Nat) (htag : ∀ t ∈ tag, HoldsAt n (Value.shownTag t).toList []) (h : HoldsLines n body is) :
    HoldsLines n (placeBlock p tag m (Yaml.spaces m ++ body)) is := by
  have hblock := (HoldsLines.spaces m).append h
  have hfeed : HoldsLines n ['\n'] [] := .of_plain (by decide) (by simp [Closed]; decide)
  unfold placeBlock
  split
  · rename_i t
    have hline := HoldsLines.closeWith (holdsAt_tagText (htag t rfl)) (by decide : isReferenceChar '\n' = false)
    simpa using (holdsLines_gap n p).append (hline.append hblock)
  · split
    · have hdrop : (Yaml.spaces m ++ body).drop m = body := by simp [Yaml.spaces]
      rw [hdrop]
      exact (holdsLines_gap n p).append h
    · exact hfeed.append hblock

theorem holdsAt_simpleKey {n : Nat} {k : Value} {key : List Char} {is : List Nat} (h : simpleKey? k = some key)
    (htags : ∀ t ∈ tags k, HoldsAt n t.toList []) (hm : Mentions n (texts k) is) : HoldsAt n key is := by
  unfold simpleKey? at h
  have huntag : Mentions n (texts (untag k).2) is ∧ ∀ t ∈ (untag k).1, HoldsAt n (Value.shownTag t).toList [] := by
    cases k with
    | tagged t v =>
      refine ⟨hm, fun u hu => ?_⟩
      cases hu
      exact htags _ (List.mem_cons_self ..)
    | _ => exact ⟨hm, nofun⟩
  generalize untag k = r at h huntag
  obtain ⟨tag, v⟩ := r
  dsimp only at h huntag
  cases htext : atomText? 0 v with
  | none => simp [htext] at h
  | some text =>
    have hatom := holdsAt_atom htext huntag.1
    rw [htext] at h
    dsimp only at h
    rw [Option.ite_none_left_eq_some] at h
    obtain ⟨-, h⟩ := h
    cases tag with
    | none =>
      cases h
      exact hatom
    | some t =>
      cases h
      have hlead := HoldsLines.closeWith (holdsAt_tagText (huntag.2 t rfl)) (by decide : isReferenceChar ' ' = false)
      have hall := hlead.holds.append hatom fun c hc _ _ => .inl (hlead.closed c hc)
      simpa using hall

/-! ## Values -/

section Values

variable {n : Nat} {is js ks : List Nat}

def leafLead (p : Yaml.Place) : Option String → List Char
  | some t => p.gap ++ tagText t ++ [' ']
  | none => p.gap

theorem holdsLines_leaf (p : Yaml.Place) (tag : Option String) {v : Value} {text : List Char}
    (htag : ∀ t ∈ tag, HoldsAt n (Value.shownTag t).toList []) (htext : atomText? p.scalarWidth v = some text)
    (hm : Mentions n (texts v) is) : HoldsLines n (closeLine (leafLead p tag ++ text)) is := by
  have hlead : HoldsLines n (leafLead p tag) [] := by
    cases tag with
    | none => exact holdsLines_gap n p
    | some t =>
      have hclosed := HoldsLines.closeWith (holdsAt_tagText (htag t rfl)) (by decide : isReferenceChar ' ' = false)
      simpa [leafLead] using (holdsLines_gap n p).append hclosed
  exact holdsLines_closeLine (hlead.holds.append (holdsAt_atom htext hm) fun c hc _ _ => .inl (hlead.closed c hc))

/-- An item behind the dash that starts in column `m`, with the items after it. -/
theorem holdsLines_itemBody {m : Nat} {v : Value} {rest : List Value}
    (hv : HoldsLines n (nodeText (.item m) none v) is) (hrest : HoldsLines n (itemsText m rest) js) :
    HoldsLines n ('-' :: nodeText (.item m) none v ++ itemsText m rest) (is ++ js) := by
  have hdash : HoldsLines n ['-'] [] := .of_plain (by decide) (by simp [Closed]; decide)
  simpa using hdash.append (hv.append hrest)

theorem exists_entryBody {m : Nat} {k v : Value} {rest : List (Value × Value)}
    (hkey : ∀ key, simpleKey? k = some key → HoldsAt n key is)
    (hslot : HoldsLines n (nodeText (.slot m) none k) is) (hvalue : ∀ p, HoldsLines n (nodeText p none v) js)
    (hrest : HoldsLines n (entriesText m rest) ks) :
    ∃ body, entriesText m ((k, v) :: rest) = Yaml.spaces m ++ body ∧ HoldsLines n body (is ++ js ++ ks) := by
  have hquestion : HoldsLines n ['?'] [] := .of_plain (by decide) (by simp [Closed]; decide)
  have hcolon : HoldsLines n [':'] [] := .of_plain (by decide) (by simp [Closed]; decide)
  rw [entriesText]
  cases hsimple : simpleKey? k with
  | some key =>
    have hline := HoldsLines.closeWith (hkey key hsimple) (by decide : isReferenceChar ':' = false)
    refine ⟨key ++ ':' :: nodeText (.value m) none v ++ entriesText m rest, by simp, ?_⟩
    simpa using hline.append ((hvalue (.value m)).append hrest)
  | none =>
    refine ⟨'?' :: nodeText (.slot m) none k ++ Yaml.spaces m ++ ':' :: nodeText (.slot m) none v ++
      entriesText m rest, by simp, ?_⟩
    simpa using hquestion.append (hslot.append
      ((HoldsLines.spaces m).append (hcolon.append ((hvalue (.slot m)).append hrest))))

mutual

theorem holdsLines_node (p : Yaml.Place) (tag : Option String) (v : Value) {is : List Nat}
    (htag : ∀ t ∈ tag, HoldsAt n (Value.shownTag t).toList []) (htags : ∀ t ∈ tags v, HoldsAt n t.toList [])
    (hm : Mentions n (texts v) is) : HoldsLines n (nodeText p tag v) is := by
  cases v with
  | tagged t v =>
    rw [nodeText]
    have ht := List.forall_mem_cons.mp htags
    exact holdsLines_node p (some t) v (fun u hu => by cases hu; exact ht.1) ht.2 hm
  | sequence items =>
    cases items with
    | nil => exact holdsLines_leaf p tag htag rfl hm
    | cons v rest =>
      obtain ⟨js, ks, rfl, hjs, hks⟩ := Mentions.of_append hm
      have htags := List.forall_mem_append.mp htags
      rw [nodeText, itemsText, List.append_assoc]
      exact holdsLines_placeBlock p tag _ htag (holdsLines_itemBody (holdsLines_node _ none v nofun htags.1 hjs)
        (holdsLines_items _ rest htags.2 hks))
  | mapping entries =>
    cases entries with
    | nil => exact holdsLines_leaf p tag htag rfl hm
    | cons e rest =>
      obtain ⟨k, v⟩ := e
      obtain ⟨is, ls, rfl, his, hls⟩ := Mentions.of_append hm
      obtain ⟨js, ks, rfl, hjs, hks⟩ := Mentions.of_append his
      simp only [tags, entryTags, List.forall_mem_append] at htags
      obtain ⟨body, heq, hbody⟩ := exists_entryBody (m := p.mappingColumn)
        (fun key hkey => holdsAt_simpleKey hkey htags.1.1 hjs)
        (holdsLines_node _ none k nofun htags.1.1 hjs) (fun p => holdsLines_node p none v nofun htags.1.2 hks)
        (holdsLines_entries _ rest htags.2 hls)
      rw [nodeText, heq]
      exact holdsLines_placeBlock p tag _ htag hbody
  | null => exact holdsLines_leaf p tag htag rfl hm
  | bool b => exact holdsLines_leaf p tag htag rfl hm
  | int k => exact holdsLines_leaf p tag htag rfl hm
  | float x => exact holdsLines_leaf p tag htag rfl hm
  | string s => exact holdsLines_leaf p tag htag rfl hm

theorem holdsLines_items (m : Nat) (vs : List Value) {is : List Nat}
    (htags : ∀ t ∈ itemTags vs, HoldsAt n t.toList []) (hm : Mentions n (itemTexts vs) is) :
    HoldsLines n (itemsText m vs) is := by
  cases vs with
  | nil =>
    cases hm
    exact .nil
  | cons v rest =>
    obtain ⟨js, ks, rfl, hjs, hks⟩ := Mentions.of_append hm
    have htags := List.forall_mem_append.mp htags
    have hbody := holdsLines_itemBody (m := m) (holdsLines_node _ none v nofun htags.1 hjs)
      (holdsLines_items m rest htags.2 hks)
    rw [itemsText, List.append_assoc]
    exact (HoldsLines.spaces m).append hbody

theorem holdsLines_entries (m : Nat) (es : List (Value × Value)) {is : List Nat}
    (htags : ∀ t ∈ entryTags es, HoldsAt n t.toList []) (hm : Mentions n (entryTexts es) is) :
    HoldsLines n (entriesText m es) is := by
  cases es with
  | nil =>
    cases hm
    exact .nil
  | cons e rest =>
    obtain ⟨k, v⟩ := e
    obtain ⟨is, ls, rfl, his, hls⟩ := Mentions.of_append hm
    obtain ⟨js, ks, rfl, hjs, hks⟩ := Mentions.of_append his
    simp only [entryTags, List.forall_mem_append] at htags
    obtain ⟨body, heq, hbody⟩ := exists_entryBody (m := m)
      (fun key hkey => holdsAt_simpleKey hkey htags.1.1 hjs)
      (holdsLines_node _ none k nofun htags.1.1 hjs) (fun p => holdsLines_node p none v nofun htags.1.2 hks)
      (holdsLines_entries m rest htags.2 hls)
    rw [heq]
    exact (HoldsLines.spaces m).append hbody

end

end Values

end CiWorkflow.Render
