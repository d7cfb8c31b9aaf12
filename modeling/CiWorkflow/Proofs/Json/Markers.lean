import CiWorkflow.Proofs.Json.Restore
import CiWorkflow.Proofs.Yaml.Markers

set_option autoImplicit false

namespace CiWorkflow.Json

open Yaml Render Text Decimal

variable {n : Nat} {is js : List Nat}

theorem holdsLines_quoted {s : String} (hm : Mentions n [s] is) : HoldsLines n (quoted s.toList) is := by
  have hopen {cs : List Char} {is : List Nat} (h : HoldsAt n cs is) : HoldsLines n ('"' :: cs ++ ['"']) is :=
    .closeWith (h.behind ['"'] (by decide) (by simp; decide)) (by decide)
  cases hm with
  | free hs h =>
    cases h
    refine hopen (HoldsAt.nil_iff.mpr fun hin => HoldsAt.nil_iff.mp hs ?_)
    exact infix_of_flatMap (spares_escape n) (marker_ne_nil n) hin
  | reference h =>
    cases h
    rw [quoted_reference]
    exact hopen (.of_reference n _)

theorem holdsAt_floatText {x : Binary64} {text : List Char} (h : floatText? x = some text) : HoldsAt n text [] := by
  unfold floatText? at h
  split at h
  · rename_i negative m q hk
    cases h
    exact holdsAt_number (isNumberText_float floatLayout rfl x negative m q hk)
  · cases h

theorem holdsLines_name {k : Value} {name : List Char} (h : keyName k = .ok name) (hm : Mentions n (texts k) is) :
    HoldsLines n (quoted name) is := by
  have hword {w : List Char} (hw : HoldsAt n w []) : HoldsLines n (quoted w) [] := by
    have := holdsLines_quoted (s := String.ofList w) (.free (by rwa [String.toList_ofList]) .nil)
    rwa [String.toList_ofList] at this
  cases k with
  | string s =>
    cases h
    exact holdsLines_quoted hm
  | bool b =>
    cases h
    cases hm
    cases b <;> exact hword (.of_not_mem (by decide))
  | int k =>
    cases h
    cases hm
    exact hword (holdsAt_number (isNumberText_int k))
  | float x =>
    cases hm
    rw [keyName] at h
    split at h
    · rename_i text htext
      cases h
      exact hword (holdsAt_floatText htext)
    · cases h
  | _ => cases h

theorem holdsLines_newLine (indent depth : Nat) : HoldsLines n (newLine indent depth) [] := by
  have hfeed : HoldsLines n ['\n'] [] := .of_plain (by decide) (by simp [Closed]; decide)
  exact hfeed.append (.spaces (depth * indent))

theorem holdsAt_member {indent depth : Nat} {name text : List Char} (hname : HoldsLines n (quoted name) is)
    (htext : HoldsAt n text js) : HoldsAt n (member indent depth name text) (is ++ js) := by
  have hcolon : HoldsLines n [':', ' '] [] := .of_plain (by decide) (by simp [Closed]; decide)
  have hlead := ((holdsLines_newLine indent depth).append hname).append hcolon
  have hall := hlead.holds.append htext fun c hc _ _ => .inl (hlead.closed c hc)
  simpa [member] using hall

/-- Further parts of a collection, the first of which is set apart from what is in front. -/
structure HoldsOthers (n : Nat) (cs : List Char) (is : List Nat) : Prop where
  holds : HoldsAt n cs is
  apart : ∀ c ∈ cs.head?, isReferenceChar c = false

theorem HoldsOthers.nil : HoldsOthers n [] [] := ⟨.of_not_mem (by decide), by simp⟩

theorem HoldsOthers.holdsAt_append {part others : List Char} (hothers : HoldsOthers n others js)
    (hpart : HoldsAt n part is) : HoldsAt n (part ++ others) (is ++ js) :=
  hpart.append hothers.holds fun _ _ c hc => .inr (hothers.apart c hc)

theorem HoldsOthers.comma {lead part others : List Char} (hothers : HoldsOthers n others js)
    (hlead : HoldsLines n (',' :: lead) []) (hpart : HoldsAt n part is) :
    HoldsOthers n (',' :: (lead ++ (part ++ others))) (is ++ js) where
  holds := by
    have hall := hlead.holds.append (hothers.holdsAt_append hpart) fun c hc _ _ => .inl (hlead.closed c hc)
    simpa using hall
  apart := by
    rintro c ⟨⟩
    decide

theorem holdsAt_brackets {indent depth : Nat} {lead first others : List Char} {closing : Char}
    (hlead : HoldsLines n lead []) (hclosing : isReferenceChar closing = false) (hfirst : HoldsAt n first is)
    (hothers : HoldsOthers n others js) :
    HoldsAt n (lead ++ (first ++ (others ++ (newLine indent depth ++ [closing])))) (is ++ js) := by
  have hend : HoldsOthers n (newLine indent depth ++ [closing]) [] := by
    refine ⟨(HoldsLines.closeWith (holdsLines_newLine indent depth).holds hclosing).holds, ?_⟩
    rintro c ⟨⟩
    decide
  have hback : HoldsOthers n (others ++ (newLine indent depth ++ [closing])) js := by
    refine ⟨by simpa using hend.holdsAt_append hothers.holds, fun c hc => ?_⟩
    cases others with
    | nil => exact hend.apart c hc
    | cons d others => exact hothers.apart c hc
  exact hlead.holds.append (hback.holdsAt_append hfirst) fun c hc _ _ => .inl (hlead.closed c hc)

theorem valueText_entries {indent depth : Nat} {k v : Value} {rest : List (Value × Value)} {text : List Char} :
    valueText indent depth (.mapping ((k, v) :: rest)) = .ok text ↔
      ∃ name, keyName k = .ok name ∧ ∃ first, valueText indent (depth + 1) v = .ok first ∧
        ∃ others, entriesText indent (depth + 1) rest = .ok others ∧
          ['\x7b'] ++ (member indent (depth + 1) name first ++ (others ++ (newLine indent depth ++ ['\x7d']))) =
            text := by
  simp [valueText, bind_eq_ok, pure, Except.pure]

theorem entriesText_entry {indent depth : Nat} {k v : Value} {rest : List (Value × Value)} {text : List Char} :
    entriesText indent depth ((k, v) :: rest) = .ok text ↔
      ∃ name, keyName k = .ok name ∧ ∃ first, valueText indent depth v = .ok first ∧
        ∃ others, entriesText indent depth rest = .ok others ∧
          ',' :: ([] ++ (member indent depth name first ++ others)) = text := by
  simp [entriesText, bind_eq_ok, pure, Except.pure]

theorem valueText_tagged {indent depth : Nat} {t : String} {v : Value} {text : List Char} :
    valueText indent depth (.tagged t v) = .ok text ↔
      ∃ first, valueText indent (depth + 1) v = .ok first ∧
        ['\x7b'] ++ (member indent (depth + 1) (Value.shownTag t).toList first ++
          ([] ++ (newLine indent depth ++ ['\x7d']))) = text := by
  simp [valueText, bind_eq_ok, pure, Except.pure]

mutual

theorem holdsAt_value {indent depth : Nat} (v : Value) {text : List Char} {is : List Nat}
    (h : valueText indent depth v = .ok text) (htags : ∀ t ∈ tags v, HoldsAt n t.toList [])
    (hm : Mentions n (texts v) is) : HoldsAt n text is := by
  cases v with
  | null =>
    cases h
    cases hm
    exact .of_not_mem (by decide)
  | bool b =>
    cases h
    cases hm
    cases b <;> exact .of_not_mem (by decide)
  | int k =>
    cases h
    cases hm
    exact holdsAt_number (isNumberText_int k)
  | float x =>
    cases h
    cases hm
    cases htext : floatText? x with
    | none => exact .of_not_mem (by decide)
    | some text => exact holdsAt_floatText htext
  | string s =>
    cases h
    exact (holdsLines_quoted hm).holds
  | sequence items =>
    cases items with
    | nil =>
      cases h
      cases hm
      exact .of_not_mem (by decide)
    | cons v rest =>
      obtain ⟨first, hfirst, others, hothers, rfl⟩ := valueText_sequence.mp h
      obtain ⟨js, ks, rfl, hjs, hks⟩ := Mentions.of_append hm
      simp only [tags, itemTags, List.forall_mem_append] at htags
      have hlead : HoldsLines n ('[' :: newLine indent (depth + 1)) [] :=
        HoldsLines.append (A := ['[']) (.of_plain (by decide) (by simp [Closed]; decide)) (holdsLines_newLine _ _)
      exact holdsAt_brackets hlead (by decide) (holdsAt_value v hfirst htags.1 hjs)
        (holdsOthers_items rest hothers htags.2 hks)
  | mapping entries =>
    cases entries with
    | nil =>
      cases h
      cases hm
      exact .of_not_mem (by decide)
    | cons e rest =>
      obtain ⟨k, v⟩ := e
      obtain ⟨name, hname, first, hfirst, others, hothers, rfl⟩ := valueText_entries.mp h
      obtain ⟨front, ls, rfl, hfront, hls⟩ := Mentions.of_append hm
      obtain ⟨js, ks, rfl, hjs, hks⟩ := Mentions.of_append hfront
      simp only [tags, entryTags, List.forall_mem_append] at htags
      exact holdsAt_brackets (.of_plain (by decide) (by simp [Closed]; decide)) (by decide)
        (holdsAt_member (holdsLines_name hname hjs) (holdsAt_value v hfirst htags.1.2 hks))
        (holdsOthers_entries rest hothers htags.2 hls)
  | tagged t v =>
    obtain ⟨first, hfirst, rfl⟩ := valueText_tagged.mp h
    have htags := List.forall_mem_cons.mp htags
    have hname := holdsLines_quoted (s := Value.shownTag t) (.free htags.1 .nil)
    rw [← List.append_nil is]
    exact holdsAt_brackets (.of_plain (by decide) (by simp [Closed]; decide)) (by decide)
      (holdsAt_member hname (holdsAt_value v hfirst htags.2 hm)) .nil

theorem holdsOthers_items {indent depth : Nat} (vs : List Value) {others : List Char} {is : List Nat}
    (h : itemsText indent depth vs = .ok others) (htags : ∀ t ∈ itemTags vs, HoldsAt n t.toList [])
    (hm : Mentions n (itemTexts vs) is) : HoldsOthers n others is := by
  cases vs with
  | nil =>
    cases h
    cases hm
    exact .nil
  | cons v rest =>
    obtain ⟨first, hfirst, others, hothers, rfl⟩ := itemsText_cons.mp h
    obtain ⟨js, ks, rfl, hjs, hks⟩ := Mentions.of_append hm
    simp only [itemTags, List.forall_mem_append] at htags
    have hlead : HoldsLines n (',' :: newLine indent depth) [] :=
      HoldsLines.append (A := [',']) (.of_plain (by decide) (by simp [Closed]; decide)) (holdsLines_newLine _ _)
    exact (holdsOthers_items rest hothers htags.2 hks).comma hlead (holdsAt_value v hfirst htags.1 hjs)

theorem holdsOthers_entries {indent depth : Nat} (es : List (Value × Value)) {others : List Char} {is : List Nat}
    (h : entriesText indent depth es = .ok others) (htags : ∀ t ∈ entryTags es, HoldsAt n t.toList [])
    (hm : Mentions n (entryTexts es) is) : HoldsOthers n others is := by
  cases es with
  | nil =>
    cases h
    cases hm
    exact .nil
  | cons e rest =>
    obtain ⟨k, v⟩ := e
    obtain ⟨name, hname, first, hfirst, others, hothers, rfl⟩ := entriesText_entry.mp h
    obtain ⟨front, ls, rfl, hfront, hls⟩ := Mentions.of_append hm
    obtain ⟨js, ks, rfl, hjs, hks⟩ := Mentions.of_append hfront
    simp only [entryTags, List.forall_mem_append] at htags
    have hlead : HoldsLines n [','] [] := .of_plain (by decide) (by simp [Closed]; decide)
    exact (holdsOthers_entries rest hothers htags.2 hls).comma hlead
      (holdsAt_member (holdsLines_name hname hjs) (holdsAt_value v hfirst htags.1.2 hks))

end

end CiWorkflow.Json
