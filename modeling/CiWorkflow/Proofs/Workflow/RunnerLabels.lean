import CiWorkflow.Workflow.Runner

/-!
# What a `runs-on` value comes down to

A text stands for itself, a machine for its label, and a list for the labels of its elements. Reading
tries a machine before a list, and a record also reads from a list of its fields. So every value reads
as it should, except a list of exactly three texts: it is taken for the three fields of one machine.
-/
set_option autoImplicit false

namespace CiWorkflow.RunsOn

open Yaml

/-- The label of a text or of a machine mapping; other values are no runner. -/
def elementLabel? : Value → Option (Option String)
  | .string s => some (some s)
  | .mapping es => (Machine.read? (.mapping es : Value)).map Machine.label?
  | _ => none

/-- What a runner or a list of runners means, element by element. -/
def meaning? : Value → Option (Option RunnerLabel)
  | .sequence vs => (vs.mapM elementLabel?).map fun ls => (ls.mapM id).map .many
  | v => (elementLabel? v).map fun l => l.map .one

theorem runner_read_of_element (v : Value) (l : Option String) (h : elementLabel? v = some l) :
    ∃ r, Runner.read? v = some r ∧ r.label? = l := by
  cases v with
  | string s =>
    refine ⟨.label s, rfl, ?_⟩
    simpa [elementLabel?, Runner.label?] using h
  | mapping es =>
    simp only [elementLabel?, Option.map_eq_some_iff] at h
    obtain ⟨m, hm, hl⟩ := h
    refine ⟨.machine m, ?_, hl⟩
    simp [Runner.read?, readOneOf?, Source.buffer?, Value.text?, hm]
  | _ => simp [elementLabel?] at h

theorem runners_read_of_elements (vs : List Value) (ls : List (Option String))
    (h : vs.mapM elementLabel? = some ls) :
    ∃ rs, vs.mapM (Runner.read? (σ := Value)) = some rs ∧ rs.mapM Runner.label? = ls.mapM id := by
  induction vs generalizing ls with
  | nil =>
    have hl : ls = [] := by simpa using h.symm
    exact ⟨[], rfl, by rw [hl]; rfl⟩
  | cons v rest ih =>
    simp only [List.mapM_cons, Option.bind_eq_bind, Option.bind_eq_some_iff, Option.pure_def,
      Option.some.injEq] at h
    obtain ⟨l, hv, others, hrest, rfl⟩ := h
    obtain ⟨r, hr, hlabel⟩ := runner_read_of_element v l hv
    obtain ⟨rs, hrs, hlabels⟩ := ih others hrest
    refine ⟨r :: rs, by simp [hr, hrs], ?_⟩
    rw [List.mapM_cons, List.mapM_cons, hlabel, hlabels]
    rfl

theorem present_of_element (v : Value) (h : (elementLabel? v).isSome) : Source.present? v = some true := by
  cases v with
  | string s => rfl
  | mapping es => rfl
  | _ => simp [elementLabel?] at h

theorem readOptional_of_present {α : Type} (read : Value → Option α) (v : Value) (x : Option α)
    (hp : Source.present? v = some true) (h : readOptional? read v = some x) : ∃ a, read v = some a := by
  rw [readOptional?, hp] at h
  obtain ⟨a, ha, -⟩ := Option.map_eq_some_iff.mp h
  exact ⟨a, ha⟩

theorem eq_string_of_text (v : Value) (a : String) (h : Source.text? v = some a) : ∃ s, v = .string s := by
  cases v with
  | string s => exact ⟨s, rfl⟩
  | _ => simp [Source.text?, Value.text?] at h

theorem eq_string_of_labels (v : Value) (ls : List String) (he : (elementLabel? v).isSome)
    (h : Machine.readLabels? v = some ls) : ∃ s, v = .string s := by
  cases v with
  | string s => exact ⟨s, rfl⟩
  | mapping es =>
    simp [Machine.readLabels?, readOneOf?, Source.buffer?, Value.text?, readTexts?, readList?,
      Source.shape, Value.shape] at h
  | _ => simp [elementLabel?] at he

theorem machine_read_three (x y z : Value) (m : Machine)
    (hx : (elementLabel? x).isSome) (hy : (elementLabel? y).isSome) (hz : (elementLabel? z).isSome)
    (h : Machine.read? (.sequence [x, y, z] : Value) = some m) :
    ∃ a b c, x = .string a ∧ y = .string b ∧ z = .string c := by
  change (readOptional? Source.text? x).bind (fun name => (readOptional? Source.text? y).bind fun group =>
    (readOptional? Machine.readLabels? z).bind fun labels => some ⟨name, group, labels⟩) = some m at h
  obtain ⟨name, hname, h⟩ := Option.bind_eq_some_iff.mp h
  obtain ⟨group, hgroup, h⟩ := Option.bind_eq_some_iff.mp h
  obtain ⟨labels, hlabels, -⟩ := Option.bind_eq_some_iff.mp h
  obtain ⟨a, ha⟩ := readOptional_of_present _ x name (present_of_element x hx) hname
  obtain ⟨b, hb⟩ := readOptional_of_present _ y group (present_of_element y hy) hgroup
  obtain ⟨ls, hls⟩ := readOptional_of_present _ z labels (present_of_element z hz) hlabels
  obtain ⟨a, rfl⟩ := eq_string_of_text x a ha
  obtain ⟨b, rfl⟩ := eq_string_of_text y b hb
  obtain ⟨c, rfl⟩ := eq_string_of_labels z ls hz hls
  exact ⟨a, b, c, rfl, rfl, rfl⟩

theorem machine_read_length (vs : List Value) (m : Machine)
    (h : Machine.read? (.sequence vs : Value) = some m) : vs.length = 3 := by
  match vs with
  | [] | [_] | [_, _] =>
    simp [Machine.read?, Machine.fieldNames, Record.read?, Source.shape, Value.shape, Record.optional?,
      List.lookup_cons] at h
  | [_, _, _] => rfl
  | x :: y :: z :: u :: rest =>
    have hlong : ¬ (x :: y :: z :: u :: rest).length ≤ Machine.fieldNames.length := by
      have hfields : Machine.fieldNames.length = 3 := rfl
      simp only [List.length_cons, hfields]
      omega
    have hnone : Record.read? Machine.fieldNames (.sequence (x :: y :: z :: u :: rest) : Value) = none := by
      change (if (x :: y :: z :: u :: rest).length ≤ Machine.fieldNames.length then
        some (Record.mk true (Machine.fieldNames.zip (x :: y :: z :: u :: rest))) else none) = none
      rw [if_neg hlong]
    rw [Machine.read?, hnone] at h
    cases h

theorem read_three (a b c : String) :
    RunsOn.read? (.sequence [.string a, .string b, .string c] : Value) =
      some (.one (.machine ⟨some a, some b, some [c]⟩)) := rfl

theorem elements_isSome (vs : List Value) (ls : List (Option String))
    (h : vs.mapM elementLabel? = some ls) : ∀ v ∈ vs, (elementLabel? v).isSome := by
  induction vs generalizing ls with
  | nil => simp
  | cons v rest ih =>
    simp only [List.mapM_cons, Option.bind_eq_bind, Option.bind_eq_some_iff] at h
    obtain ⟨l, hv, others, hrest, -⟩ := h
    intro w hw
    rcases List.mem_cons.mp hw with rfl | hw
    · simp [hv]
    · exact ih others hrest w hw

theorem read_sequence (vs : List Value) (ls : List (Option String))
    (h : vs.mapM elementLabel? = some ls)
    (hno : ∀ a b c, vs ≠ [.string a, .string b, .string c]) :
    ∃ rs, RunsOn.read? (.sequence vs : Value) = some (.many rs) ∧ rs.mapM Runner.label? = ls.mapM id := by
  obtain ⟨rs, hrs, hlabels⟩ := runners_read_of_elements vs ls h
  refine ⟨rs, ?_, hlabels⟩
  have hm : Machine.read? (.sequence vs : Value) = none := by
    rw [Option.eq_none_iff_forall_ne_some]
    intro m hm
    have hlen := machine_read_length vs m hm
    match vs, hlen with
    | [x, y, z], _ =>
      have he := elements_isSome [x, y, z] ls h
      obtain ⟨a, b, c, rfl, rfl, rfl⟩ := machine_read_three x y z m (he x (by simp)) (he y (by simp))
        (he z (by simp)) hm
      exact hno a b c rfl
  have hl : readList? (Runner.read? (σ := Value)) (.sequence vs : Value) = some rs := hrs
  simp [RunsOn.read?, readOneOf?, Source.buffer?, Value.text?, hm, hl]

/-- Reading and collapsing a value of the documented shape gives what it means, unless the value is a
list of exactly three texts. -/
theorem labels_read_iff_not_three {σ : Type} [Source σ] (s : σ) (v : Value) (r : Option RunnerLabel)
    (hb : Source.buffer? s = some v) (h : meaning? v = some r) :
    (RunsOn.read? s).map RunsOn.labels? = some r ↔
      ∀ a b c, v ≠ .sequence [.string a, .string b, .string c] := by
  have hs : RunsOn.read? s = RunsOn.read? v := by
    simp [RunsOn.read?, readOneOf?, hb, show Source.buffer? v = some v from rfl]
  rw [hs]
  cases v with
  | string t =>
    have hr : r = some (.one t) := by simpa [meaning?, elementLabel?] using h.symm
    subst hr
    simp [RunsOn.read?, readOneOf?, Source.buffer?, Value.text?, RunsOn.labels?, Runner.label?]
  | mapping es =>
    simp only [meaning?, elementLabel?, Option.map_map, Option.map_eq_some_iff] at h
    obtain ⟨m, hm, hr⟩ := h
    subst hr
    simp [RunsOn.read?, readOneOf?, Source.buffer?, Value.text?, hm, RunsOn.labels?, Runner.label?]
  | sequence vs =>
    simp only [meaning?, Option.map_eq_some_iff] at h
    obtain ⟨ls, hls, rfl⟩ := h
    constructor
    · rintro hread a b c ⟨⟩
      have hls' : ls = [some a, some b, some c] := by simpa [elementLabel?] using hls.symm
      have hone : (some (.one (.machine ⟨some a, some b, some [c]⟩)) : Option RunsOn).map RunsOn.labels? =
          some ((Machine.label? ⟨some a, some b, some [c]⟩).map .one) := rfl
      rw [read_three, hone, hls'] at hread
      cases hlabel : Machine.label? ⟨some a, some b, some [c]⟩ <;> simp [hlabel] at hread
    · intro hno
      obtain ⟨rs, hrs, hlabels⟩ := read_sequence vs ls hls fun a b c he => hno a b c (by rw [he])
      simp [hrs, RunsOn.labels?, hlabels]
  | _ => simp [meaning?, elementLabel?] at h

/-- A machine among labels does not disturb the list around it. -/
theorem labels_read_mixed :
    Source.buffer? (.sequence [.string "linux", .mapping [(.string "group", .string "big")], .string "arm"] :
        Value) =
      some (.sequence [.string "linux", .mapping [(.string "group", .string "big")], .string "arm"]) ∧
    (RunsOn.read? (.sequence [.string "linux", .mapping [(.string "group", .string "big")], .string "arm"] :
        Value)).map RunsOn.labels? = some (some (.many ["linux", "big", "arm"])) :=
  ⟨rfl, (labels_read_iff_not_three _ _ _ rfl (by decide)).mpr (by simp)⟩

/-- Three labels come back as the second of them alone. -/
theorem labels_read_three_texts :
    ¬ ∀ (v : Value) (r : Option RunnerLabel), meaning? v = some r →
      (RunsOn.read? v).map RunsOn.labels? = some r := by
  intro h
  have hthree := h (.sequence [.string "a", .string "b", .string "c"]) (some (.many ["a", "b", "c"])) rfl
  rw [read_three] at hthree
  exact absurd hthree (by decide)

end CiWorkflow.RunsOn
