import CiWorkflow.Expression.Template
import CiWorkflow.Proofs.Expression.Wrapped
import CiWorkflow.Proofs.Text.Split
import Mathlib.Data.List.Forall2

/-!
# What a template gives

A template is filled exactly if every slot has a value that can be written and what comes out can be wrapped.
Otherwise surplus values are refused first, then the first slot that cannot be filled, and then the text as a
whole. A text that fills a slot is not searched for slots again. Marking the slots in one text or giving the parts
around them comes to the same, unless a part has a slot mark of its own.
-/
set_option autoImplicit false

namespace CiWorkflow.Expression

open Text Decimal

def IsMalformed (s : String) : Prop :=
  openMark.toList <+: s.toList ∧ ∀ content, s ≠ openText ++ content ++ closeText

theorem unwrap_of_not_complete {s : String} (h : ∀ content, s ≠ openText ++ content ++ closeText) :
    unwrap s = .error (.malformedExpression s) := by
  rw [unwrap]
  split
  · rename_i cs hcs
    have hok : unwrap s = .ok (String.ofList cs) := by simp [unwrap, hcs]
    exact absurd (unwrap_eq_ok_iff.mp hok) (h _)
  · rfl

namespace Argument

inductive Writes : Argument → String → Prop where
  | fragment (f : Fragment) : Writes (.fragment f) f.inner
  | wrapped (w : Wrapped) : Writes (.wrapped w) w.inner
  /-- The text of a complete expression gives what stands between the delimiters. -/
  | complete (content : String) : Writes (.text (openText ++ content ++ closeText)) content
  | path {s : String} (hs : ¬ openMark.toList <+: s.toList) (hp : isTokenPath s = true) : Writes (.text s) s
  | literal {s : String} (hs : ¬ openMark.toList <+: s.toList) (hp : isTokenPath s = false) :
      Writes (.text s) (quote s)
  | bool (b : Bool) : Writes (.bool b) (if b then "true" else "false")
  | int (n : Int) : Writes (.int n) (toString n)
  | float (x : Binary64) : Writes (.float x) (floatLayout.write x)

theorem isPrefix_complete (content : String) :
    openMark.toList <+: (openText ++ content ++ closeText).toList := by
  simp [openMark, openText]

theorem inTemplate_cases (a : Argument) :
    (∃ text, a.Writes text ∧ a.inTemplate = .ok (some text)) ∨ (a = .missing ∧ a.inTemplate = .ok none) ∨
      ∃ s, a = .text s ∧ IsMalformed s ∧ a.inTemplate = .error (.malformedExpression s) := by
  cases a with
  | fragment f => exact .inl ⟨_, .fragment f, rfl⟩
  | wrapped w => exact .inl ⟨_, .wrapped w, rfl⟩
  | bool b => exact .inl ⟨_, .bool b, rfl⟩
  | int n => exact .inl ⟨_, .int n, rfl⟩
  | float x => exact .inl ⟨_, .float x, rfl⟩
  | missing => exact .inr (.inl ⟨rfl, rfl⟩)
  | text s =>
    by_cases hs : openMark.toList <+: s.toList
    · have hshown : (Argument.text s).inTemplate = (unwrap s).map some := by
        simp [inTemplate, innerWith, List.isPrefixOf_iff_prefix, hs]
      by_cases hm : ∃ content, s = openText ++ content ++ closeText
      · obtain ⟨content, rfl⟩ := hm
        exact .inl ⟨content, .complete content, by rw [hshown, unwrap_eq_ok_iff.mpr rfl]; rfl⟩
      · have hm : IsMalformed s := ⟨hs, fun content hc => hm ⟨content, hc⟩⟩
        exact .inr (.inr ⟨s, rfl, hm, by rw [hshown, unwrap_of_not_complete hm.2]; rfl⟩)
    · have hshown : (Argument.text s).inTemplate = .ok (some (if isTokenPath s then s else quote s)) := by
        simp [inTemplate, innerWith, List.isPrefixOf_iff_prefix, hs]
      cases hp : isTokenPath s with
      | true => exact .inl ⟨s, .path hs hp, by simp [hshown, hp]⟩
      | false => exact .inl ⟨quote s, .literal hs hp, by simp [hshown, hp]⟩

theorem inTemplate_of_writes {a : Argument} {text : String} (h : a.Writes text) :
    a.inTemplate = .ok (some text) := by
  cases h with
  | complete =>
    have hprefix := List.isPrefixOf_iff_prefix.mpr (isPrefix_complete text)
    rw [inTemplate, innerWith, if_pos hprefix, unwrap_eq_ok_iff.mpr rfl]
    rfl
  | path hs hp => simp [inTemplate, innerWith, List.isPrefixOf_iff_prefix, hs, hp]
  | literal hs hp => simp [inTemplate, innerWith, List.isPrefixOf_iff_prefix, hs, hp]
  | _ => rfl

theorem Writes.unique {a : Argument} {text text' : String} (h : a.Writes text) (h' : a.Writes text') :
    text' = text := by
  have hsame := (inTemplate_of_writes h').symm.trans (inTemplate_of_writes h)
  simpa using hsame

theorem exists_writes_iff (a : Argument) :
    (∃ text, a.Writes text) ↔ a ≠ .missing ∧
      ∀ s, a = .text s → openMark.toList <+: s.toList → ∃ content, s = openText ++ content ++ closeText := by
  constructor
  · rintro ⟨text, hw⟩
    constructor
    · rintro rfl
      cases hw
    · rintro s rfl hs
      cases hw with
      | complete => exact ⟨text, rfl⟩
      | path hplain => exact absurd hs hplain
      | literal hplain => exact absurd hs hplain
  · rintro ⟨hgiven, hcomplete⟩
    obtain ⟨text, hw, -⟩ | ⟨rfl, -⟩ | ⟨s, rfl, hm, -⟩ := a.inTemplate_cases
    · exact ⟨text, hw⟩
    · exact absurd rfl hgiven
    · obtain ⟨content, hs⟩ := hcomplete s rfl hm.1
      exact absurd hs (hm.2 content)

end Argument

inductive SlotFault (template : String) (index : Nat) : Option Argument → Error → Prop where
  | absent : SlotFault template index none (.undefinedInterpolation template index)
  | missing : SlotFault template index (some .missing) (.undefinedInterpolation template index)
  | malformed {s : String} (h : IsMalformed s) :
      SlotFault template index (some (.text s)) (.malformedExpression s)

theorem not_slotFault_of_writes {template : String} {index : Nat} {a : Argument} {text : String} {e : Error}
    (h : a.Writes text) : ¬ SlotFault template index (some a) e := by
  intro hf
  cases hf with
  | missing => cases h
  | malformed hm =>
    cases h with
    | complete => exact hm.2 _ rfl
    | path hs => exact hs hm.1
    | literal hs => exact hs hm.1

def interleave : List String → List String → String
  | part :: parts, text :: texts => part ++ text ++ interleave parts texts
  | part :: _, [] => part
  | [], _ => ""

def FirstFault (template : String) (index slots : Nat) (values : List Argument) (e : Error) : Prop :=
  ∃ i < slots, SlotFault template (index + i) values[i]? e ∧
    ∀ j < i, ∃ a ∈ values[j]?, ∃ text, a.Writes text

theorem firstFault_cons_iff {template : String} {index slots : Nat} {a : Argument} {values : List Argument}
    {text : String} {e : Error} (h : a.Writes text) :
    FirstFault template index (slots + 1) (a :: values) e ↔ FirstFault template (index + 1) slots values e := by
  constructor
  · rintro ⟨i, hi, hf, hfirst⟩
    cases i with
    | zero => exact absurd hf (not_slotFault_of_writes h)
    | succ i =>
      refine ⟨i, by omega, by rwa [Nat.add_assoc, Nat.add_comm 1 i], fun j hj => ?_⟩
      simpa using hfirst (j + 1) (by omega)
  · rintro ⟨i, hi, hf, hfirst⟩
    refine ⟨i + 1, by omega, by rwa [Nat.add_assoc, Nat.add_comm 1 i] at hf, fun j hj => ?_⟩
    cases j with
    | zero => exact ⟨a, rfl, text, h⟩
    | succ j => simpa using hfirst j (by omega)

theorem SlotFault.unique {template : String} {index : Nat} {x : Option Argument} {e e' : Error}
    (h : SlotFault template index x e) (h' : SlotFault template index x e') : e' = e := by
  cases h <;> cases h' <;> rfl

theorem firstFault_iff_of_fault {template : String} {index slots : Nat} {values : List Argument} {e e' : Error}
    (h : SlotFault template index values[0]? e) (hs : 0 < slots) :
    FirstFault template index slots values e' ↔ e' = e := by
  constructor
  · rintro ⟨i, hi, hf, hfirst⟩
    cases i with
    | zero => exact h.unique hf
    | succ i =>
      obtain ⟨a, ha, text, hw⟩ := hfirst 0 (by omega)
      rw [Option.mem_def.mp ha] at h
      exact absurd h (not_slotFault_of_writes hw)
  · rintro rfl
    exact ⟨0, hs, h, by simp⟩

/-- A slot is filled with what its value is written as, or there is a fault in it. -/
theorem slot_cases (template : String) (index : Nat) (values : List Argument) :
    (∃ a rest text, values = a :: rest ∧ a.Writes text) ∨ ∃ e, SlotFault template index values[0]? e := by
  cases values with
  | nil => exact .inr ⟨_, .absent⟩
  | cons a rest =>
    obtain ⟨text, hw, -⟩ | ⟨rfl, -⟩ | ⟨s, rfl, hm, -⟩ := a.inTemplate_cases
    · exact .inl ⟨a, rest, text, rfl, hw⟩
    · exact .inr ⟨_, .missing⟩
    · exact .inr ⟨_, .malformed hm⟩

section Slots

variable {template : String} {index : Nat} {part next : String} {parts : List String} {a : Argument}
  {values : List Argument} {text : String} {e : Error}

theorem fillSlots_of_writes (h : a.Writes text) :
    fillSlots template index (part :: next :: parts) (a :: values) =
      (fillSlots template (index + 1) (next :: parts) values).map (part ++ text ++ ·) := by
  rw [fillSlots, Argument.inTemplate_of_writes h]
  cases fillSlots template (index + 1) (next :: parts) values <;> rfl

theorem fillSlots_of_fault (h : SlotFault template index values[0]? e) :
    fillSlots template index (part :: next :: parts) values = .error e := by
  cases values with
  | nil =>
    cases h
    rfl
  | cons a values =>
    rw [fillSlots]
    cases h with
    | missing => rfl
    | malformed hm =>
      obtain ⟨text, hw, -⟩ | ⟨⟨⟩, -⟩ | ⟨s, hs, -, hvalue⟩ := (Argument.text _).inTemplate_cases
      · have hwritten : ∀ e, ¬ SlotFault template index _ e := fun _ => not_slotFault_of_writes hw
        exact absurd (.malformed hm) (hwritten _)
      · cases hs
        rw [hvalue]
        rfl

theorem fillSlots_eq_ok_iff (h : values.length ≤ parts.length - 1) :
    fillSlots template index parts values = .ok text ↔
      values.length = parts.length - 1 ∧
        ∃ texts, List.Forall₂ Argument.Writes values texts ∧ text = interleave parts texts := by
  induction parts generalizing index values text with
  | nil =>
    obtain rfl : values = [] := by simpa using h
    simp [fillSlots, interleave, eq_comm]
  | cons part parts ih =>
    cases parts with
    | nil =>
      obtain rfl : values = [] := by simpa using h
      simp [fillSlots, interleave, eq_comm]
    | cons next parts =>
      obtain ⟨a, values, shown, rfl, hw⟩ | ⟨e, hf⟩ := slot_cases template index values
      · have hlength : values.length ≤ (next :: parts).length - 1 := by simpa using h
        rw [fillSlots_of_writes hw, map_eq_ok]
        simp only [ih hlength]
        constructor
        · rintro ⟨rest, ⟨hslots, texts, hws, rfl⟩, rfl⟩
          exact ⟨by simpa using hslots, shown :: texts, .cons hw hws, rfl⟩
        · rintro ⟨hslots, _, hws, rfl⟩
          cases hws with
          | cons hw' hws =>
            obtain rfl := hw.unique hw'
            exact ⟨_, ⟨by simpa using hslots, _, hws, rfl⟩, rfl⟩
      · rw [fillSlots_of_fault hf]
        simp only [reduceCtorEq, false_iff]
        rintro ⟨hslots, texts, hws, -⟩
        cases hws with
        | nil => simp at hslots
        | cons hw hws => exact not_slotFault_of_writes hw hf

theorem fillSlots_eq_error_iff (h : values.length ≤ parts.length - 1) :
    fillSlots template index parts values = .error e ↔ FirstFault template index (parts.length - 1) values e := by
  induction parts generalizing index values with
  | nil => simp [fillSlots, FirstFault]
  | cons part parts ih =>
    cases parts with
    | nil => simp [fillSlots, FirstFault]
    | cons next parts =>
      have hslots : (part :: next :: parts).length - 1 = (next :: parts).length - 1 + 1 := by simp
      rw [hslots]
      obtain ⟨a, values, shown, rfl, hw⟩ | ⟨e', hf⟩ := slot_cases template index values
      · have hlength : values.length ≤ (next :: parts).length - 1 := by simpa using h
        rw [firstFault_cons_iff hw, ← ih hlength, fillSlots_of_writes hw]
        cases fillSlots template (index + 1) (next :: parts) values <;> simp [Except.map]
      · rw [fillSlots_of_fault hf, firstFault_iff_of_fault hf (by omega)]
        simp [eq_comm]

end Slots

theorem wrap_eq_error_iff {content : String} {e : Error} :
    wrap content = .error e ↔
      (openMark.toList <:+: content.toList ∧ e = .alreadyWrapped content (bareText content)) ∨
        ((∀ c ∈ content.toList, isBlank c = true) ∧ e = .emptyExpression) := by
  rw [← trim_eq_nil_iff]
  obtain ⟨hm, he⟩ | ⟨hm, hb, he⟩ | ⟨hm, hb, w, he, -⟩ := wrap_cases content
  · have hb : trim content.toList ≠ [] := by
      intro hnil
      have hdollar := (trim_eq_nil_iff _).mp hnil '$' (hm.mem (by decide))
      exact absurd hdollar (by decide)
    simp [he, hm, hb, eq_comm]
  · simp [he, hm, hb, eq_comm]
  · simp [he, hm, hb]

/-- A template, with its slots marked in a text or given by its parts. -/
inductive Template where
  | marked (text : String)
  | parted (parts : List String)

namespace Template

def parts : Template → List String
  | .marked text => (splitSeq slotMark.toList text.toList).map String.ofList
  | .parted parts => parts

def text : Template → String
  | .marked text => text
  | .parted parts => slotMark.intercalate parts

def slots (t : Template) : Nat := t.parts.length - 1

def build : Template → List Argument → Except Error Wrapped
  | .marked text => ofTemplate text
  | .parted parts => ofParts parts

theorem build_eq (t : Template) (values : List Argument) : t.build values = fill t.text t.parts values := by
  cases t <;> rfl

/-- Every slot has a value, and this is what comes out. -/
def Fills (t : Template) (values : List Argument) (content : String) : Prop :=
  values.length = t.slots ∧
    ∃ texts, List.Forall₂ Argument.Writes values texts ∧ content = interleave t.parts texts

/-- Why a template is not built, in the order of precedence. -/
inductive Refuses (t : Template) (values : List Argument) : Error → Prop where
  | surplus (h : t.slots < values.length) : Refuses t values (.interpolationCount t.text t.slots values.length)
  | slot {e : Error} (h : values.length ≤ t.slots) (hf : FirstFault t.text 0 t.slots values e) : Refuses t values e
  | marked {content : String} (h : t.Fills values content) (hm : openMark.toList <:+: content.toList) :
      Refuses t values (.alreadyWrapped content (bareText content))
  | blank {content : String} (h : t.Fills values content) (hb : ∀ c ∈ content.toList, isBlank c = true) :
      Refuses t values .emptyExpression

theorem intercalate_parts (t : Template) : slotMark.intercalate t.parts = t.text := by
  cases t with
  | marked text =>
    have hjoined : slotMark.toList.intercalate (splitSeq slotMark.toList text.toList) = text.toList :=
      intercalate_splitSeq (by decide) _
    rw [← String.toList_inj, String.toList_intercalate]
    simpa [parts, Template.text, Function.comp_def] using hjoined
  | parted parts => rfl

theorem not_infix_of_mem_parts {text part : String} (h : part ∈ (marked text).parts) :
    ¬ slotMark.toList <:+: part.toList := by
  obtain ⟨piece, hpiece, rfl⟩ := List.mem_map.mp h
  rw [String.toList_ofList]
  exact not_infix_of_mem_splitSeq (by decide) hpiece

section Building

variable {t : Template} {values : List Argument}

theorem build_of_surplus (h : t.slots < values.length) :
    t.build values = .error (.interpolationCount t.text t.slots values.length) := by
  rw [build_eq, fill]
  exact if_pos h

theorem build_of_not_surplus (h : values.length ≤ t.slots) :
    t.build values = fillSlots t.text 0 t.parts values >>= wrap := by
  rw [build_eq, fill]
  exact if_neg (Nat.not_lt.mpr h)

theorem fillSlots_eq_ok_iff_fills {content : String} (h : values.length ≤ t.slots) :
    fillSlots t.text 0 t.parts values = .ok content ↔ t.Fills values content :=
  fillSlots_eq_ok_iff h

theorem build_of_fills {content : String} (h : t.Fills values content) : t.build values = wrap content := by
  rw [build_of_not_surplus h.1.le, (fillSlots_eq_ok_iff_fills h.1.le).mpr h]
  rfl

theorem build_eq_ok_iff {w : Wrapped} :
    t.build values = .ok w ↔ ∃ content, t.Fills values content ∧ ¬ openMark.toList <:+: content.toList ∧
      (∃ c ∈ content.toList, isBlank c = false) ∧ w.inner = String.ofList (trim content.toList) := by
  have hblank : ∀ content : String, trim content.toList ≠ [] ↔ ∃ c ∈ content.toList, isBlank c = false := by
    intro content
    simp [trim_eq_nil_iff]
  by_cases h : t.slots < values.length
  · rw [build_of_surplus h]
    simp only [reduceCtorEq, false_iff]
    rintro ⟨content, ⟨hslots, -⟩, -⟩
    omega
  · rw [build_of_not_surplus (by omega), bind_eq_ok]
    simp only [fillSlots_eq_ok_iff_fills (Nat.not_lt.mp h), wrap_eq_ok_iff, hblank]

theorem build_eq_error_iff {e : Error} : t.build values = .error e ↔ t.Refuses values e := by
  by_cases h : t.slots < values.length
  · rw [build_of_surplus h]
    constructor
    · rintro ⟨⟩
      exact .surplus h
    · intro hr
      cases hr with
      | surplus => rfl
      | slot hle => omega
      | marked hfills => exact absurd hfills.1 (by omega)
      | blank hfills => exact absurd hfills.1 (by omega)
  · have hle := Nat.not_lt.mp h
    rw [build_of_not_surplus hle, bind_eq_error]
    simp only [fillSlots_eq_ok_iff_fills hle, wrap_eq_error_iff]
    constructor
    · rintro (hfault | ⟨content, hfills, ⟨hm, rfl⟩ | ⟨hb, rfl⟩⟩)
      · exact .slot hle ((fillSlots_eq_error_iff hle).mp hfault)
      · exact .marked hfills hm
      · exact .blank hfills hb
    · intro hr
      cases hr with
      | surplus hlt => exact absurd hlt h
      | slot _ hf => exact .inl ((fillSlots_eq_error_iff hle).mpr hf)
      | marked hfills hm => exact .inr ⟨_, hfills, .inl ⟨hm, rfl⟩⟩
      | blank hfills hb => exact .inr ⟨_, hfills, .inr ⟨hb, rfl⟩⟩

end Building

theorem build_alone {a : Argument} {w : Wrapped} (h : a.Writes w.inner) : (marked slotMark).build [a] = .ok w := by
  have hcontent : interleave (marked slotMark).parts [w.inner] = w.inner := by
    change "" ++ w.inner ++ "" = w.inner
    simp
  have hfills : (marked slotMark).Fills [a] w.inner := ⟨rfl, [w.inner], .cons h .nil, hcontent.symm⟩
  rw [build_of_fills hfills]
  exact wrap_of_wrappable w

/-- The text of joined parts has a slot at each join, and the slots that the parts have themselves. -/
theorem parts_marked_intercalate {parts : List String} (hne : parts ≠ []) :
    (marked (slotMark.intercalate parts)).parts = parts.flatMap fun part => (marked part).parts := by
  have hmark : slotMark.toList = ['\x7b', '\x7d'] := rfl
  simp only [Template.parts, String.toList_intercalate, hmark]
  rw [splitSeq_intercalate (by decide) (by simpa using hne), List.flatMap_map, List.map_flatMap]

theorem parts_marked_eq_iff (text : String) : (marked text).parts = [text] ↔ ¬ slotMark.toList <:+: text.toList := by
  constructor
  · intro h
    exact not_infix_of_mem_parts (h ▸ List.mem_singleton_self text)
  · intro h
    rw [parts, splitSeq_of_not_infix h, List.map_singleton, String.ofList_toList]

theorem parts_marked_of_length {text : String} (h : (marked text).parts.length = 1) :
    (marked text).parts = [text] := by
  obtain ⟨part, hpart⟩ := List.length_eq_one_iff.mp h
  have hjoined := intercalate_parts (marked text)
  rw [hpart] at hjoined ⊢
  exact congrArg ([·]) (by simpa [Template.text] using hjoined)

theorem length_parts_marked_pos (text : String) : 0 < (marked text).parts.length := by
  refine List.length_pos_of_ne_nil ?_
  simp [parts, splitSeq, splitSeqFrom_ne_nil]

theorem length_le_length_parts (parts : List String) :
    parts.length ≤ (parts.flatMap fun part => (marked part).parts).length := by
  induction parts with
  | nil => exact Nat.le_refl _
  | cons part parts ih =>
    have hpart := length_parts_marked_pos part
    simp only [List.flatMap_cons, List.length_cons, List.length_append]
    omega

theorem length_parts_eq_iff (parts : List String) :
    (parts.flatMap fun part => (marked part).parts).length = parts.length ↔
      ∀ part ∈ parts, (marked part).parts = [part] := by
  induction parts with
  | nil => simp
  | cons part parts ih =>
    have hpart := length_parts_marked_pos part
    have hparts := length_le_length_parts parts
    simp only [List.flatMap_cons, List.length_cons, List.length_append, List.forall_mem_cons, ← ih]
    constructor
    · intro h
      exact ⟨parts_marked_of_length (by omega), by omega⟩
    · rintro ⟨hone, hrest⟩
      rw [hone, hrest, List.length_singleton, Nat.add_comm]

theorem build_of_same {t t' : Template} (htext : t.text = t'.text) (hparts : t.parts = t'.parts)
    (values : List Argument) : t.build values = t'.build values := by
  rw [build_eq, build_eq, htext, hparts]

theorem slots_eq_of_build {t t' : Template} (h : ∀ values, t.build values = t'.build values) :
    t.slots = t'.slots := by
  have hsurplus := h (List.replicate (t.slots + t'.slots + 1) .missing)
  have hlength : (List.replicate (t.slots + t'.slots + 1) Argument.missing).length = t.slots + t'.slots + 1 :=
    List.length_replicate
  rw [build_of_surplus (by rw [hlength]; omega), build_of_surplus (by rw [hlength]; omega)] at hsurplus
  simp only [Except.error.injEq, Error.interpolationCount.injEq] at hsurplus
  exact hsurplus.2.1

/-- A template with its slots marked and the same template given by its parts are built alike, whatever the
values, exactly if no part has a slot mark of its own. -/
theorem ofTemplate_intercalate_iff (parts : List String) :
    (∀ values, ofTemplate (slotMark.intercalate parts) values = ofParts parts values) ↔
      ∀ part ∈ parts, ¬ slotMark.toList <:+: part.toList := by
  simp only [← parts_marked_eq_iff]
  cases parts with
  | nil =>
    -- no parts join to the empty text, which is one part without slots
    refine ⟨by simp, fun _ values => ?_⟩
    cases values <;> rfl
  | cons first others =>
    have hparts := parts_marked_intercalate (List.cons_ne_nil first others)
    constructor
    · intro h
      have hslots : (marked _).slots = (parted _).slots := slots_eq_of_build h
      rw [slots, slots, hparts] at hslots
      have hlength := length_le_length_parts (first :: others)
      refine (length_parts_eq_iff _).mp ?_
      simp only [Template.parts, List.length_cons] at hslots hlength ⊢
      omega
    · intro h
      have hsame : (marked (slotMark.intercalate (first :: others))).parts = (parted (first :: others)).parts :=
        hparts.trans ((List.flatMap_congr h).trans (List.flatMap_singleton' _))
      change ∀ values, (marked _).build values = (parted _).build values
      exact build_of_same rfl hsame

end Template

end CiWorkflow.Expression
