import CiWorkflow.Expression.Wrapped
import CiWorkflow.Proofs.Text.Split
import Mathlib.Data.List.TakeWhile

set_option autoImplicit false

namespace CiWorkflow.Expression

open Text

theorem contains_iff (s pattern : String) : contains s pattern = true ↔ pattern.toList <:+: s.toList :=
  occursIn_iff ..

theorem isWrappable_iff (content : String) :
    isWrappable content = true ↔ content.toList ≠ [] ∧ trim content.toList = content.toList ∧
      ¬ openMark.toList <:+: content.toList := by
  rw [← contains_iff]
  simp [isWrappable, and_assoc]

theorem not_marked_iff (s : String) : contains s openMark = false ↔ ¬ openMark.toList <:+: s.toList := by
  simp [← contains_iff]

theorem not_marked_of_not_mem {cs : List Char} (h : '$' ∉ cs) : ¬ openMark.toList <:+: cs :=
  fun hm => h (hm.mem (List.mem_cons_self ..))

theorem trim_eq_self_iff (cs : List Char) :
    trim cs = cs ↔ cs.head?.any isBlank = false ∧ cs.getLast?.any isBlank = false := by
  constructor
  · intro h
    have hhead := head?_trim cs
    have hlast := getLast?_trim cs
    rw [h] at hhead hlast
    exact ⟨by simpa using hhead, by simpa using hlast⟩
  · exact fun ⟨hh, hl⟩ => trim_eq_self (by simp [hh]) (by simp [hl])

theorem isWrappable_iff_of_head {text : String} {c : Char} {rest : List Char} (ht : text.toList = c :: rest)
    (hc : isBlank c = false) :
    isWrappable text = true ↔
      text.toList.getLast?.any isBlank = false ∧ ¬ openMark.toList <:+: text.toList := by
  rw [isWrappable_iff, trim_eq_self_iff]
  simp [ht, hc]

theorem isWrappable_of_plain {text : String} (hne : text.toList ≠ [])
    (h : ∀ c ∈ text.toList, isBlank c = false ∧ c ≠ '$') : isWrappable text = true := by
  obtain ⟨c, rest, ht⟩ := List.exists_cons_of_ne_nil hne
  rw [isWrappable_iff_of_head ht (h c (by simp [ht])).1, List.getLast?_eq_some_getLast hne]
  exact ⟨(h _ (List.getLast_mem hne)).1, not_marked_of_not_mem fun hm => (h _ hm).2 rfl⟩

theorem head_of_isWrappable {text : String} (h : isWrappable text = true) :
    ∃ c rest, text.toList = c :: rest ∧ isBlank c = false := by
  obtain ⟨hne, htrim, -⟩ := (isWrappable_iff text).mp h
  obtain ⟨c, rest, ht⟩ := List.exists_cons_of_ne_nil hne
  have hhead := ((trim_eq_self_iff _).mp htrim).1
  exact ⟨c, rest, ht, by simpa [ht] using hhead⟩

namespace Wrapped

@[simp] theorem toList_text (w : Wrapped) :
    w.text.toList = openText.toList ++ w.inner.toList ++ closeText.toList := by
  simp [text]

theorem inner_ne_nil (w : Wrapped) : w.inner.toList ≠ [] := ((isWrappable_iff _).mp w.wrappable).1

theorem trim_inner (w : Wrapped) : trim w.inner.toList = w.inner.toList :=
  ((isWrappable_iff _).mp w.wrappable).2.1

theorem inner_inj {w v : Wrapped} (h : w.inner = v.inner) : w = v := by
  cases w
  cases v
  cases h
  rfl

end Wrapped

/-- A text with an opening mark is refused, a blank one too, and of any other the trimmed form is wrapped. -/
theorem wrap_cases (text : String) :
    openMark.toList <:+: text.toList ∧ wrap text = .error (.alreadyWrapped text (bareText text)) ∨
    ¬ openMark.toList <:+: text.toList ∧ trim text.toList = [] ∧ wrap text = .error .emptyExpression ∨
    ¬ openMark.toList <:+: text.toList ∧ trim text.toList ≠ [] ∧
      ∃ w, wrap text = .ok w ∧ w.inner = String.ofList (trim text.toList) := by
  simp only [← contains_iff, ← List.isEmpty_iff, ne_eq]
  by_cases hm : contains text openMark = true
  · exact .inl ⟨hm, by rw [wrap, dif_pos hm]⟩
  · by_cases hb : (trim text.toList).isEmpty = true
    · exact .inr (.inl ⟨hm, hb, by rw [wrap, dif_neg hm, dif_pos hb]⟩)
    · refine .inr (.inr ⟨hm, hb, ?_⟩)
      rw [wrap, dif_neg hm, dif_neg hb]
      exact ⟨_, rfl, rfl⟩

theorem wrap_of_marked {text : String} (h : openMark.toList <:+: text.toList) :
    wrap text = .error (.alreadyWrapped text (bareText text)) := by
  obtain ⟨-, he⟩ | ⟨hm, -⟩ | ⟨hm, -⟩ := wrap_cases text
  · exact he
  · exact absurd h hm
  · exact absurd h hm

theorem wrap_eq_ok_iff {text : String} {w : Wrapped} :
    wrap text = .ok w ↔ ¬ openMark.toList <:+: text.toList ∧ trim text.toList ≠ [] ∧
      w.inner = String.ofList (trim text.toList) := by
  obtain ⟨hm, he⟩ | ⟨hm, hb, he⟩ | ⟨hm, hb, v, he, hi⟩ := wrap_cases text
  · simp [he, hm]
  · simp [he, hb]
  · rw [he]
    constructor
    · intro h
      exact Except.ok.inj h ▸ ⟨hm, hb, hi⟩
    · rintro ⟨-, -, hw⟩
      rw [Wrapped.inner_inj (hi.trans hw.symm)]

theorem wrap_of_wrappable (w : Wrapped) : wrap w.inner = .ok w := by
  obtain ⟨hne, htrim, hm⟩ := (isWrappable_iff _).mp w.wrappable
  exact wrap_eq_ok_iff.mpr ⟨hm, by rwa [htrim], by rw [htrim, String.ofList_toList]⟩

theorem unwrap_eq_ok_iff {text content : String} :
    unwrap text = .ok content ↔ text = openText ++ content ++ closeText := by
  have hstrip : ∀ cs : List Char,
      (stripPrefix? openText.toList text.toList).bind (stripSuffix? closeText.toList) = some cs ↔
        text.toList = openText.toList ++ (cs ++ closeText.toList) := by
    intro cs
    simp only [Option.bind_eq_some_iff, stripPrefix_eq_some, stripSuffix_eq_some]
    exact ⟨fun ⟨rest, hp, hs⟩ => by rw [hp, hs], fun h => ⟨_, h, rfl⟩⟩
  have htext : text = openText ++ content ++ closeText ↔
      text.toList = openText.toList ++ (content.toList ++ closeText.toList) := by
    rw [← String.toList_inj]
    simp
  rw [htext, ← hstrip content.toList, unwrap]
  split
  · rename_i cs hcs
    simp only [hcs, Except.ok.injEq, Option.some.injEq]
    exact ⟨fun h => by simp [← h], fun h => by simp [h]⟩
  · rename_i hcs
    simp [hcs]

theorem unwrap_text (w : Wrapped) : unwrap w.text = .ok w.inner := unwrap_eq_ok_iff.mpr rfl

theorem ofText_eq_ok_iff {text : String} {w : Wrapped} : Wrapped.ofText text = .ok w ↔ w.text = text := by
  simp only [Wrapped.ofText, bind_eq_ok]
  constructor
  · rintro ⟨content, -, v, -, h⟩
    split at h
    · rename_i ht
      exact Except.ok.inj h ▸ ht
    · cases h
  · rintro rfl
    exact ⟨w.inner, unwrap_text w, w, wrap_of_wrappable w, if_pos rfl⟩

theorem trim_eq_nil_iff (cs : List Char) : trim cs = [] ↔ ∀ c ∈ cs, isBlank c = true := by
  have hend : ∀ ds, trimEnd ds = [] ↔ ∀ d ∈ ds, isBlank d = true := by
    simp [trimEnd, dropEndWhile, List.dropWhile_eq_nil_iff]
  rw [trim, hend]
  constructor
  · intro h
    cases hs : trimStart cs with
    | nil => simpa [trimStart, List.dropWhile_eq_nil_iff] using hs
    | cons c rest =>
      -- what is left at the start is no blank
      have hhead := head?_dropWhile isBlank cs
      rw [← trimStart, hs] at hhead
      exact absurd (h c (by simp [hs])) (by simpa using hhead)
  · exact fun h c hc => h c ((isSuffix_trimStart cs).mem hc)

theorem trim_blanks {cs : List Char} (hne : cs ≠ []) (h : trim cs = cs) : trim (' ' :: (cs ++ [' '])) = cs := by
  have hhead := h ▸ head?_trim cs
  have hlast := h ▸ getLast?_trim cs
  have hs : trimStart (' ' :: (cs ++ [' '])) = cs ++ [' '] := by
    have hstart : ¬ (cs ++ [' ']).head?.any isBlank = true := by
      obtain ⟨c, rest, rfl⟩ := List.exists_cons_of_ne_nil hne
      simpa using hhead
    rw [trimStart, List.dropWhile_cons_of_pos (by decide), dropWhile_eq_self hstart]
  have he : ¬ cs.reverse.head?.any isBlank = true := by simpa using hlast
  rw [trim, hs, trimEnd, dropEndWhile, List.reverse_append, List.reverse_singleton, List.singleton_append,
    List.dropWhile_cons_of_pos (by decide), dropWhile_eq_self he, List.reverse_reverse]

/-- The content is suggested instead of wrapping a complete expression again: braces at its end are not
taken for delimiters, since a blank stands behind them. -/
theorem bareText_text (w : Wrapped) : bareText w.text = w.inner := by
  have htrim : trim w.text.toList = w.text.toList := by
    apply trim_eq_self
    · rw [Wrapped.toList_text]
      simp [openText, isBlank]
    · rw [Wrapped.toList_text]
      simp [closeText, isBlank]
  have hopen : dropOpens w.text.toList = ' ' :: (w.inner.toList ++ closeText.toList) := by
    rw [Wrapped.toList_text]
    rfl
  have hclose : dropCloses (' ' :: (w.inner.toList ++ closeText.toList)).reverse =
      (' ' :: (w.inner.toList ++ [' '])).reverse := by
    rw [show closeText.toList = [' ', '\x7d', '\x7d'] from rfl]
    simp [dropCloses]
  rw [bareText, htrim, hopen, hclose, List.reverse_reverse, trim_blanks w.inner_ne_nil w.trim_inner,
    String.ofList_toList]

theorem isMarked_text (w : Wrapped) : openMark.toList <:+: w.text.toList := by
  rw [Wrapped.toList_text]
  exact ⟨[], ' ' :: (w.inner.toList ++ closeText.toList), rfl⟩

theorem wrap_text (w : Wrapped) : wrap w.text = .error (.alreadyWrapped w.text w.inner) := by
  rw [wrap_of_marked (isMarked_text w), bareText_text]

/-- The three ways of wrapping a text, what unwrapping takes and gives, and which texts are complete
expressions. -/
theorem wrap_unwrap_agree :
    (∀ text, (∃ inner, wrap text = .error (.alreadyWrapped text inner)) ↔ openMark.toList <:+: text.toList) ∧
    (∀ text, wrap text = .error .emptyExpression ↔
      ¬ openMark.toList <:+: text.toList ∧ ∀ c ∈ text.toList, isBlank c = true) ∧
    (∀ text, (∃ w, wrap text = .ok w ∧ unwrap w.text = .ok (String.ofList (trim text.toList))) ↔
      ¬ openMark.toList <:+: text.toList ∧ ∃ c ∈ text.toList, isBlank c = false) ∧
    (∀ text content, unwrap text = .ok content ↔ text = openText ++ content ++ closeText) ∧
    (∀ text w, Wrapped.ofText text = .ok w ↔ w.text = text ∧ ∃ source, wrap source = .ok w) ∧
    ∀ w : Wrapped, wrap w.text = .error (.alreadyWrapped w.text w.inner) := by
  have hblank : ∀ text : String, trim text.toList ≠ [] ↔ ∃ c ∈ text.toList, isBlank c = false := by
    intro text
    rw [ne_eq, trim_eq_nil_iff]
    simp
  refine ⟨fun text => ?_, fun text => ?_, fun text => ?_, fun text content => unwrap_eq_ok_iff,
    fun text w => ?_, wrap_text⟩
  · obtain ⟨hm, he⟩ | ⟨hm, -, he⟩ | ⟨hm, -, w, he, -⟩ := wrap_cases text <;> simp [he, hm]
  · rw [← trim_eq_nil_iff]
    obtain ⟨hm, he⟩ | ⟨hm, hb, he⟩ | ⟨hm, hb, w, he, -⟩ := wrap_cases text
    · simp [he, hm]
    · simp [he, hm, hb]
    · simp [he, hb]
  · rw [← hblank]
    constructor
    · rintro ⟨w, hw, -⟩
      obtain ⟨hm, hb, -⟩ := wrap_eq_ok_iff.mp hw
      exact ⟨hm, hb⟩
    · rintro ⟨hm, hb⟩
      obtain ⟨hm', -⟩ | ⟨-, hb', -⟩ | ⟨-, -, w, he, hi⟩ := wrap_cases text
      · exact absurd hm' hm
      · exact absurd hb' hb
      · exact ⟨w, he, hi ▸ unwrap_text w⟩
  · rw [ofText_eq_ok_iff]
    exact ⟨fun h => ⟨h, w.inner, wrap_of_wrappable w⟩, And.left⟩

end CiWorkflow.Expression
