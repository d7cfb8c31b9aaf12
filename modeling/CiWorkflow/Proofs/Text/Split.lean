import CiWorkflow.Text.Split

/-!
# Pieces of a text

A separator inside a text parts its pieces into those of the text in front and those of the text behind.
Taking away a start or an end gives what it was put to, and a pattern does not reach across a character that
it does not hold.

The pieces between the places of a pattern, joined by it, give the text again, and the pattern is in none of them.
The other way round, texts joined by a pattern are cut apart again if none of them holds it, as long as one place of
the pattern cannot reach into the next. Cutting at a character is what the library does.
-/
set_option autoImplicit false

namespace CiWorkflow.Text

theorem splitWhere_append {p : Char → Bool} {sep : Char} (h : p sep = true) (front back : List Char) :
    splitWhere p (front ++ sep :: back) = splitWhere p front ++ splitWhere p back := by
  induction front with
  | nil => simp [splitWhere, h]
  | cons c front ih =>
    by_cases hc : p c = true
    · simp [splitWhere, hc, ih]
    · obtain ⟨first, others, hfront⟩ := List.exists_cons_of_ne_nil (splitWhere_ne_nil p front)
      simp [splitWhere, hc, ih, hfront]

theorem splitAt_append (sep : Char) (front back : List Char) :
    splitAt sep (front ++ sep :: back) = splitAt sep front ++ splitAt sep back :=
  splitWhere_append (by simp) front back

theorem splitAt_of_not_mem {sep : Char} {cs : List Char} (h : sep ∉ cs) : splitAt sep cs = [cs] := by
  induction cs with
  | nil => rfl
  | cons c cs ih =>
    have hc : c ≠ sep := fun hc => h (by simp [hc])
    have hcs := ih fun hm => h (by simp [hm])
    unfold splitAt at *
    simp [splitWhere, hc, hcs]

/-- What stands behind the last separator goes on with a text that has none. -/
theorem splitAt_append_of_not_mem {sep : Char} {tail : List Char} (h : sep ∉ tail) (cs : List Char) :
    ∃ front last, splitAt sep cs = front ++ [last] ∧ splitAt sep (cs ++ tail) = front ++ [last ++ tail] := by
  induction cs with
  | nil => exact ⟨[], [], rfl, splitAt_of_not_mem h⟩
  | cons c cs ih =>
    obtain ⟨front, last, hcs, htail⟩ := ih
    unfold splitAt at *
    by_cases hc : c = sep
    · exact ⟨[] :: front, last, by simp [splitWhere, hc, hcs], by simp [splitWhere, hc, htail]⟩
    · cases front with
      | nil => exact ⟨[], c :: last, by simp [splitWhere, hc, hcs], by simp [splitWhere, hc, htail]⟩
      | cons first front =>
        exact ⟨(c :: first) :: front, last, by simp [splitWhere, hc, hcs], by simp [splitWhere, hc, htail]⟩

theorem not_mem_of_mem_splitAt {sep : Char} {piece cs : List Char} (h : piece ∈ splitAt sep cs) : sep ∉ piece := by
  induction cs generalizing piece with
  | nil => simp_all [splitAt, splitWhere]
  | cons c cs ih =>
    obtain ⟨first, others, hcs⟩ := List.exists_cons_of_ne_nil (splitWhere_ne_nil (· = sep) cs)
    unfold splitAt at *
    rw [hcs] at ih
    by_cases hc : c = sep
    · rw [splitWhere, if_pos (by simpa using hc), hcs] at h
      obtain rfl | h := List.mem_cons.mp h
      · simp
      · exact ih h
    · rw [splitWhere, if_neg (by simpa using hc), hcs] at h
      obtain rfl | h := List.mem_cons.mp h
      · simpa [Ne.symm hc] using ih (List.mem_cons_self ..)
      · exact ih (List.mem_cons_of_mem _ h)

theorem flatMap_splitAt (sep : Char) (cs : List Char) :
    (splitAt sep cs).flatMap (· ++ [sep]) = cs ++ [sep] := by
  induction cs with
  | nil => rfl
  | cons c cs ih =>
    obtain ⟨first, others, hcs⟩ := List.exists_cons_of_ne_nil (splitWhere_ne_nil (· = sep) cs)
    unfold splitAt at *
    rw [hcs, List.flatMap_cons] at ih
    rw [splitWhere, hcs]
    split
    · rename_i hc
      obtain rfl : c = sep := by simpa using hc
      simp [ih]
    · simpa using ih

theorem exists_mem_splitAt {sep c : Char} (hc : c ≠ sep) {cs : List Char} (h : c ∈ cs) :
    ∃ piece ∈ splitAt sep cs, c ∈ piece := by
  have hmem : c ∈ (splitAt sep cs).flatMap (· ++ [sep]) := by
    rw [flatMap_splitAt]
    exact List.mem_append_left _ h
  obtain ⟨piece, hpiece, hmem⟩ := List.mem_flatMap.mp hmem
  exact ⟨piece, hpiece, (List.mem_append.mp hmem).resolve_right fun hsep => hc (List.mem_singleton.mp hsep)⟩

theorem mem_of_mem_splitAt {sep c : Char} {piece cs : List Char} (h : piece ∈ splitAt sep cs) (hc : c ∈ piece) :
    c ∈ cs := by
  have hmem : c ∈ cs ++ [sep] := by
    rw [← flatMap_splitAt]
    exact List.mem_flatMap.mpr ⟨piece, h, List.mem_append_left _ hc⟩
  refine (List.mem_append.mp hmem).resolve_right fun hsep => ?_
  obtain rfl := List.mem_singleton.mp hsep
  exact not_mem_of_mem_splitAt h hc

theorem splitAt_flatMap {sep : Char} {lines : List (List Char)} (h : ∀ l ∈ lines, sep ∉ l) :
    splitAt sep (lines.flatMap (· ++ [sep])) = lines ++ [[]] := by
  induction lines with
  | nil => rfl
  | cons l lines ih =>
    rw [List.flatMap_cons, List.append_assoc, List.singleton_append, splitAt_append,
      splitAt_of_not_mem (h l (by simp)), ih fun l' hl' => h l' (by simp [hl'])]
    rfl

theorem stripPrefix_eq_some {pre cs rest : List Char} :
    stripPrefix? pre cs = some rest ↔ cs = pre ++ rest := by
  unfold stripPrefix?
  constructor
  · intro h
    split at h
    · rename_i hp
      obtain ⟨tail, rfl⟩ := List.isPrefixOf_iff_prefix.mp hp
      cases h
      simp
    · cases h
  · rintro rfl
    simp [List.isPrefixOf_iff_prefix]

theorem stripSuffix_eq_some {post cs rest : List Char} :
    stripSuffix? post cs = some rest ↔ cs = rest ++ post := by
  unfold stripSuffix?
  constructor
  · intro h
    split at h
    · rename_i hs
      obtain ⟨front, rfl⟩ := List.isSuffixOf_iff_suffix.mp hs
      cases h
      simp
    · cases h
  · rintro rfl
    simp [List.isSuffixOf_iff_suffix]

theorem isPrefix_of_splitAt {sep : Char} {first cs : List Char} {others : List (List Char)}
    (h : splitAt sep cs = first :: others) : first <+: cs := by
  induction cs generalizing first others with
  | nil =>
    obtain ⟨rfl, -⟩ : [] = first ∧ [] = others := by simpa [splitAt, splitWhere] using h
    exact List.nil_prefix
  | cons c cs ih =>
    obtain ⟨next, rest, hcs⟩ := List.exists_cons_of_ne_nil (splitWhere_ne_nil (· = sep) cs)
    rw [splitAt, splitWhere, hcs] at h
    split at h
    · cases h
      exact List.nil_prefix
    · cases h
      exact List.cons_prefix_cons.mpr ⟨rfl, ih hcs⟩

theorem infix_append_cons_iff {pattern front back : List Char} {sep : Char} (h : sep ∉ pattern) :
    pattern <:+: front ++ sep :: back ↔ pattern <:+: front ∨ pattern <:+: back := by
  have hstart : ∀ part, part <:+: pattern → part <+: sep :: back → part = [] := by
    intro part hpart hp
    rcases List.prefix_cons_iff.mp hp with rfl | ⟨tail, rfl, -⟩
    · rfl
    · exact absurd (hpart.mem (List.mem_cons_self ..)) h
  constructor
  · intro hin
    rcases List.infix_append_iff.mp hin with hf | hb | ⟨l, r, rfl, hl, hr⟩
    · exact .inl hf
    · rcases List.infix_cons_iff.mp hb with hp | hb
      · rw [hstart pattern List.infix_rfl hp]
        exact .inl (List.nil_infix)
      · exact .inr hb
    · rw [hstart r (List.suffix_append l r).isInfix hr, List.append_nil]
      exact .inl hl.isInfix
  · rintro (hf | hb)
    · exact hf.trans (List.prefix_append ..).isInfix
    · exact hb.trans ((List.suffix_cons sep back).trans (List.suffix_append ..)).isInfix

theorem infix_flatMap_iff {pattern : List Char} {sep : Char} (h : sep ∉ pattern) (hne : pattern ≠ [])
    (lines : List (List Char)) : pattern <:+: lines.flatMap (· ++ [sep]) ↔ ∃ l ∈ lines, pattern <:+: l := by
  induction lines with
  | nil => simp [List.infix_nil, hne]
  | cons l lines ih => simp [infix_append_cons_iff h, ih]

theorem infix_splitAt_iff {pattern : List Char} {sep : Char} (h : sep ∉ pattern) (hne : pattern ≠ [])
    (cs : List Char) : (∃ piece ∈ splitAt sep cs, pattern <:+: piece) ↔ pattern <:+: cs := by
  rw [← infix_flatMap_iff h hne, flatMap_splitAt, infix_append_cons_iff h]
  simp [List.infix_nil, hne]

theorem infix_intercalate_iff {pattern : List Char} {a b : Char} (ha : a ∉ pattern) (hb : b ∉ pattern)
    (hne : pattern ≠ []) (parts : List (List Char)) :
    pattern <:+: [a, b].intercalate parts ↔ ∃ part ∈ parts, pattern <:+: part := by
  induction parts with
  | nil => simp [List.intercalate, List.infix_nil, hne]
  | cons part parts ih =>
    cases parts with
    | nil => simp
    | cons next rest =>
      rw [List.intercalate_cons_cons, List.append_assoc, List.cons_append, infix_append_cons_iff ha,
        ← List.nil_append ([b] ++ _), List.singleton_append, infix_append_cons_iff hb, ih]
      simp [List.infix_nil, hne]

/-! ## Cutting at a pattern -/

theorem splitAt_eq_splitOn (sep : Char) (cs : List Char) : splitAt sep cs = cs.splitOn sep := by
  unfold splitAt
  rw [List.splitOn_eq_splitOnP]
  induction cs with
  | nil => rfl
  | cons c cs ih =>
    obtain ⟨first, others, hcs⟩ := List.exists_cons_of_ne_nil (splitWhere_ne_nil (· = sep) cs)
    rw [List.splitOnP_cons_eq_if_modifyHead, ← ih, splitWhere, hcs]
    simp

theorem splitAt_intercalate {sep : Char} {pieces : List (List Char)} (hne : pieces ≠ [])
    (h : ∀ piece ∈ pieces, sep ∉ piece) : splitAt sep ([sep].intercalate pieces) = pieces := by
  rw [splitAt_eq_splitOn]
  exact List.splitOn_intercalate sep h hne

theorem intercalate_splitSeqFrom {sep : List Char} (hne : sep ≠ []) (skip : Nat) (cs : List Char) :
    sep.intercalate (splitSeqFrom sep skip cs) = cs.drop skip := by
  induction cs generalizing skip with
  | nil => simp [splitSeqFrom]
  | cons c rest ih =>
    cases skip with
    | succ k => exact ih k
    | zero =>
      obtain ⟨first, others, hrest⟩ := List.exists_cons_of_ne_nil (splitSeqFrom_ne_nil sep 0 rest)
      obtain ⟨next, behind, hbehind⟩ :=
        List.exists_cons_of_ne_nil (splitSeqFrom_ne_nil sep (sep.length - 1) rest)
      rw [splitSeqFrom]
      split
      · -- the pattern stands here, and what is passed over is its rest
        rename_i hp
        obtain ⟨tail, htail⟩ := List.isPrefixOf_iff_prefix.mp hp
        obtain ⟨d, ds, rfl⟩ := List.exists_cons_of_ne_nil hne
        have hjoined := ih ((d :: ds).length - 1)
        obtain ⟨rfl, rfl⟩ : d = c ∧ ds ++ tail = rest := by simpa using htail
        rw [hbehind] at hjoined ⊢
        rw [List.intercalate_cons_cons, hjoined]
        simp
      · have hjoined := ih 0
        rw [hrest] at hjoined ⊢
        cases others with
        | nil => simpa using hjoined
        | cons second others =>
          rw [List.intercalate_cons_cons] at hjoined ⊢
          simpa using hjoined

theorem intercalate_splitSeq {sep : List Char} (hne : sep ≠ []) (cs : List Char) :
    sep.intercalate (splitSeq sep cs) = cs :=
  intercalate_splitSeqFrom hne 0 cs

theorem isPrefix_intercalate (sep first : List Char) (others : List (List Char)) :
    first <+: sep.intercalate (first :: others) := by
  cases others with
  | nil => simp
  | cons second others =>
    rw [List.intercalate_cons_cons, List.append_assoc]
    exact List.prefix_append ..

theorem not_infix_of_mem_splitSeqFrom {sep : List Char} (hne : sep ≠ []) {skip : Nat} {cs piece : List Char}
    (h : piece ∈ splitSeqFrom sep skip cs) : ¬ sep <:+: piece := by
  induction cs generalizing skip piece with
  | nil =>
    obtain rfl : piece = [] := by simpa [splitSeqFrom] using h
    simpa [List.infix_nil] using hne
  | cons c rest ih =>
    cases skip with
    | succ k => exact ih (show piece ∈ splitSeqFrom sep k rest from h)
    | zero =>
      rw [splitSeqFrom] at h
      split at h
      · rcases List.mem_cons.mp h with rfl | h
        · simpa [List.infix_nil] using hne
        · exact ih h
      · rename_i hp
        obtain ⟨first, others, hrest⟩ := List.exists_cons_of_ne_nil (splitSeqFrom_ne_nil sep 0 rest)
        have hpieces : ∀ piece ∈ splitSeqFrom sep 0 rest, ¬ sep <:+: piece := fun _ hpiece => ih hpiece
        rw [hrest, List.forall_mem_cons] at hpieces
        obtain ⟨hfirst, hothers⟩ := hpieces
        rw [hrest] at h
        rcases List.mem_cons.mp h with rfl | h
        · -- an occurrence at the start of the piece is one at the start of the text
          have hprefix : first <+: rest := by
            have hjoined := intercalate_splitSeqFrom hne 0 rest
            rw [hrest, List.drop_zero] at hjoined
            exact hjoined ▸ isPrefix_intercalate sep first others
          rw [List.infix_cons_iff]
          rintro (hstart | hlater)
          · exact hp (List.isPrefixOf_iff_prefix.mpr (hstart.trans (List.cons_prefix_cons.mpr ⟨rfl, hprefix⟩)))
          · exact hfirst hlater
        · exact hothers piece h

theorem not_infix_of_mem_splitSeq {sep : List Char} (hne : sep ≠ []) {cs piece : List Char}
    (h : piece ∈ splitSeq sep cs) : ¬ sep <:+: piece :=
  not_infix_of_mem_splitSeqFrom hne h

theorem splitSeqFrom_drop (sep passed cs : List Char) :
    splitSeqFrom sep passed.length (passed ++ cs) = splitSeqFrom sep 0 cs := by
  induction passed with
  | nil => rfl
  | cons c passed ih => exact ih

/-- A pattern whose first character does not come again in it starts nowhere in front of another place of its
and goes on into that place. -/
theorem prefix_of_prefix_append {first : Char} {others front back : List Char} (h : first ∉ others)
    (hne : front ≠ []) (hp : first :: others <+: front ++ (first :: others ++ back)) :
    first :: others <+: front := by
  rcases List.prefix_or_prefix_of_prefix hp (List.prefix_append ..) with hshort | ⟨more, hmore⟩
  · exact hshort
  · rw [← hmore, List.prefix_append_right_inj, hmore] at hp
    obtain ⟨c, front, rfl⟩ := List.exists_cons_of_ne_nil hne
    obtain ⟨rfl, rfl⟩ : c = first ∧ front ++ more = others := by simpa using hmore
    cases more with
    | nil => simp
    | cons d more =>
      obtain ⟨rfl, -⟩ := List.cons_prefix_cons.mp hp
      simp at h

theorem splitSeqFrom_append {first : Char} {others : List Char} (h : first ∉ others) (front back : List Char)
    (skip : Nat) (hskip : skip ≤ front.length) :
    splitSeqFrom (first :: others) skip (front ++ (first :: others ++ back)) =
      splitSeqFrom (first :: others) skip front ++ splitSeqFrom (first :: others) 0 back := by
  induction front generalizing skip with
  | nil =>
    obtain rfl : skip = 0 := by simpa using hskip
    have hpassed := splitSeqFrom_drop (first :: others) others back
    have hhere : (first :: others).isPrefixOf (first :: (others ++ back)) = true :=
      List.isPrefixOf_iff_prefix.mpr (List.prefix_append (first :: others) back)
    rw [List.nil_append, List.cons_append, splitSeqFrom, splitSeqFrom, if_pos hhere, List.length_cons,
      Nat.add_sub_cancel, hpassed]
    rfl
  | cons c front ih =>
    cases skip with
    | succ k => exact ih k (Nat.le_of_succ_le_succ hskip)
    | zero =>
      have hsame : (first :: others).isPrefixOf (c :: (front ++ (first :: others ++ back))) =
          (first :: others).isPrefixOf (c :: front) := by
        rw [Bool.eq_iff_iff, List.isPrefixOf_iff_prefix, List.isPrefixOf_iff_prefix]
        exact ⟨prefix_of_prefix_append h (List.cons_ne_nil c front), fun hp => hp.trans (List.prefix_append ..)⟩
      rw [List.cons_append, splitSeqFrom, splitSeqFrom, hsame]
      split
      · rename_i hp
        have hlength := (List.isPrefixOf_iff_prefix.mp hp).length_le
        rw [ih _ (by simpa using hlength), List.cons_append]
      · rw [ih 0 (Nat.zero_le _)]
        obtain ⟨next, behind, hfront⟩ := List.exists_cons_of_ne_nil (splitSeqFrom_ne_nil (first :: others) 0 front)
        rw [hfront]
        rfl

theorem splitSeq_append {first : Char} {others : List Char} (h : first ∉ others) (front back : List Char) :
    splitSeq (first :: others) (front ++ (first :: others ++ back)) =
      splitSeq (first :: others) front ++ splitSeq (first :: others) back :=
  splitSeqFrom_append h front back 0 (Nat.zero_le _)

/-- Texts joined by a pattern are cut where they were joined and where they hold it themselves. -/
theorem splitSeq_intercalate {first : Char} {others : List Char} (h : first ∉ others) {parts : List (List Char)}
    (hne : parts ≠ []) : splitSeq (first :: others) ((first :: others).intercalate parts) =
      parts.flatMap (splitSeq (first :: others)) := by
  induction parts with
  | nil => exact absurd rfl hne
  | cons part parts ih =>
    cases parts with
    | nil => simp
    | cons next parts =>
      rw [List.intercalate_cons_cons, List.append_assoc, splitSeq_append h, ih (by simp)]
      rfl

theorem splitSeq_of_not_infix {sep cs : List Char} (h : ¬ sep <:+: cs) : splitSeq sep cs = [cs] := by
  unfold splitSeq
  induction cs with
  | nil => rfl
  | cons c cs ih =>
    rw [List.infix_cons_iff, not_or] at h
    rw [splitSeqFrom, if_neg fun hp => h.1 (List.isPrefixOf_iff_prefix.mp hp), ih h.2]

end CiWorkflow.Text
