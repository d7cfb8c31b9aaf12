import CiWorkflow.Proofs.Expression.Call
import CiWorkflow.Proofs.Expression.Wrapped
import CiWorkflow.Proofs.Render.Fresh

set_option autoImplicit false

namespace CiWorkflow

open Text Decimal Expression

namespace Expression

theorem marked_quote_iff (s : String) :
    openMark.toList <:+: (quote s).toList ↔ openMark.toList <:+: s.toList := by
  have hmark : '\'' ∉ openMark.toList := by decide
  rw [toList_quote, ← List.nil_append ('\'' :: _), infix_append_cons_iff hmark, infix_append_cons_iff hmark]
  have hnil : ¬ openMark.toList <:+: [] := by decide
  simp only [hnil, false_or, or_false]
  constructor
  · refine Render.infix_of_flatMap (fun c => ?_) (by decide)
    by_cases hc : c = '\''
    · refine .inr ⟨'\'', ['\''], by simp [hc], hmark, fun x hx => ?_⟩
      obtain rfl : '$' = x := by simpa [openMark] using hx
      simp [hc]
    · exact .inl (by simp [hc])
  · rintro ⟨front, back, hs⟩
    rw [← hs, List.flatMap_append, List.flatMap_append]
    exact ⟨_, _, rfl⟩

namespace Argument

/-- No opening mark in an argument, the one at the start of a complete expression aside. -/
def isClean : Argument → Bool
  | .fragment f => !contains f.inner openMark
  | .text s => !occursIn openMark.toList s.toList.tail
  | _ => true

end Argument

theorem mem_positionalText {ds : List Char} {e : Int} {c : Char} (hds : ∀ d ∈ ds, d.isDigit = true)
    (h : c ∈ positionalText false ds e) : c.isDigit = true ∨ c = '.' := by
  unfold positionalText at h
  simp only [Bool.false_eq_true, ↓reduceIte, List.append_nil] at h
  split at h
  · rcases List.mem_append.mp h with h | h
    · exact .inl (hds c h)
    · exact .inl (isDigit_of_mem_padZeros _ c h)
  · split at h
    · rcases List.mem_append.mp h with h | h
      · exact .inl (hds c (List.mem_of_mem_take h))
      · rcases List.mem_cons.mp h with h | h
        · exact .inr h
        · exact .inl (hds c (List.mem_of_mem_drop h))
    · simp only [List.cons_append, List.mem_cons, List.mem_append] at h
      rcases h with rfl | rfl | h | h
      · exact .inl rfl
      · exact .inr rfl
      · exact .inl (isDigit_of_mem_padZeros _ c h)
      · exact .inl (hds c h)

theorem mem_write_float {x : Binary64} {c : Char} (h : c ∈ (floatLayout.write x).toList) :
    c.isDigit = true ∨ c ∈ "-.NaNinf".toList := by
  cases hk : x.kind with
  | nan =>
    rw [Layout.write, hk] at h
    exact .inr ((forall_mem_of_all (by decide) : ∀ c ∈ "NaN".toList, c ∈ "-.NaNinf".toList) c h)
  | infinite negative =>
    rw [Layout.write, hk] at h
    cases negative
    · exact .inr ((forall_mem_of_all (by decide) : ∀ c ∈ "inf".toList, c ∈ "-.NaNinf".toList) c h)
    · exact .inr ((forall_mem_of_all (by decide) : ∀ c ∈ "-inf".toList, c ∈ "-.NaNinf".toList) c h)
  | finite negative m q =>
    obtain ⟨-, hds, -⟩ := (if m = 0 then (⟨0, 0⟩ : Scientific) else Scientific.shortest m q).normal_spec
    have hsign : ∀ body, c ∈ signed negative body → c = '-' ∨ c ∈ body := by
      intro body hc
      cases negative
      · exact .inr hc
      · exact List.mem_cons.mp hc
    rw [Layout.write_finite _ x negative m q hk] at h
    rcases hsign _ h with rfl | h
    · exact .inr (by decide)
    · rcases mem_positionalText hds h with h | rfl
      · exact .inl h
      · exact .inr (by decide)

/-- The mark at the start of a complete expression is gone when its content becomes an argument. -/
theorem marked_unwrap_iff {s content : String} (h : unwrap s = .ok content) :
    openMark.toList <:+: content.toList ↔ openMark.toList <:+: s.toList.tail := by
  have hs : s.toList.tail = ['\x7b', '\x7b'] ++ ' ' :: (content.toList ++ ' ' :: ['\x7d', '\x7d']) := by
    rw [unwrap_eq_ok_iff.mp h]
    simp [openText, closeText]
  have hopen : ¬ openMark.toList <:+: ['\x7b', '\x7b'] := by decide
  have hclose : ¬ openMark.toList <:+: ['\x7d', '\x7d'] := by decide
  rw [hs, infix_append_cons_iff (by decide), infix_append_cons_iff (by decide)]
  simp only [hopen, hclose, false_or, or_false]

theorem marked_argument_iff {name text : String} {a : Argument} (h : Call.argument name a = .ok text) :
    openMark.toList <:+: text.toList ↔ a.isClean = false := by
  obtain ⟨shown, hshown, hreturn⟩ := bind_eq_ok.mp h
  obtain rfl : shown = some text := by
    cases shown with
    | none => cases hreturn
    | some t => exact congrArg some (Except.ok.inj hreturn)
  rw [Argument.inCall] at hshown
  cases a with
  | fragment f =>
    obtain rfl := Option.some.inj (Except.ok.inj hshown)
    simp [Argument.isClean, contains_iff]
  | wrapped w =>
    obtain rfl := Option.some.inj (Except.ok.inj hshown)
    simp [Argument.isClean, ((isWrappable_iff _).mp w.wrappable).2.2]
  | text s =>
    simp only [Argument.isClean, Bool.not_eq_false', occursIn_iff]
    rw [Argument.innerWith] at hshown
    split at hshown
    · obtain ⟨content, hcontent, hc⟩ := map_eq_ok.mp hshown
      obtain rfl := Option.some.inj hc
      exact marked_unwrap_iff hcontent
    · rename_i hprefix
      have htail : openMark.toList <:+: s.toList ↔ openMark.toList <:+: s.toList.tail := by
        rw [List.isPrefixOf_iff_prefix] at hprefix
        cases hs : s.toList with
        | nil => rfl
        | cons c rest =>
          rw [hs] at hprefix
          simp [List.infix_cons_iff, hprefix]
      rw [← htail]
      have hplain := Option.some.inj (Except.ok.inj hshown)
      split at hplain
      · rw [hplain]
      · rw [← hplain, marked_quote_iff]
  | bool b =>
    obtain rfl := Option.some.inj (Except.ok.inj hshown)
    simp only [Argument.isClean, Bool.true_eq_false, iff_false]
    cases b <;> decide
  | int n =>
    obtain rfl := Option.some.inj (Except.ok.inj hshown)
    simp only [Argument.isClean, Bool.true_eq_false, iff_false]
    refine not_marked_of_not_mem fun hm => ?_
    rcases mem_toString_int hm with hd | hd
    · exact absurd hd (by decide)
    · exact absurd hd (by decide)
  | float x =>
    obtain rfl := Option.some.inj (Except.ok.inj hshown)
    simp only [Argument.isClean, Bool.true_eq_false, iff_false]
    refine not_marked_of_not_mem fun hm => ?_
    rcases mem_write_float hm with hd | hd
    · exact absurd hd (by decide)
    · exact absurd hd (by decide)
  | missing => cases Except.ok.inj hshown

theorem exists_marked_of_mapM {name : String} {args : List Argument} {texts : List String}
    (h : args.mapM (Call.argument name) = .ok texts) :
    (∃ text ∈ texts, openMark.toList <:+: text.toList) ↔ ∃ a ∈ args, a.isClean = false := by
  induction args generalizing texts with
  | nil =>
    obtain rfl := Except.ok.inj h
    simp
  | cons a rest ih =>
    rw [List.mapM_cons] at h
    obtain ⟨text, ha, h⟩ := bind_eq_ok.mp h
    obtain ⟨others, hrest, h⟩ := bind_eq_ok.mp h
    obtain rfl := Except.ok.inj h
    simp [marked_argument_iff ha, ih hrest]

theorem exists_marked_around {f : Function} {texts : List String} :
    (∃ part ∈ (f.around quote texts).map String.toList, openMark.toList <:+: part) ↔
      (∃ text ∈ texts, openMark.toList <:+: text.toList) ∨
        ∃ s ∈ f.literals, openMark.toList <:+: s.toList := by
  simp only [List.mem_map, exists_exists_and_eq_and, Function.mem_around]
  constructor
  · rintro ⟨text, ht | ⟨s, hs, rfl⟩, hm⟩
    · exact .inl ⟨text, ht, hm⟩
    · exact .inr ⟨s, hs, (marked_quote_iff s).mp hm⟩
  · rintro (⟨text, ht, hm⟩ | ⟨s, hs, hm⟩)
    · exact ⟨text, .inl ht, hm⟩
    · exact ⟨quote s, .inr ⟨s, hs, rfl⟩, (marked_quote_iff s).mpr hm⟩

theorem isWrappable_call_iff {f : Function} {args : List Argument} {c : Fragment} (h : f.call args = .ok c) :
    isWrappable c.inner = true ↔
      (∀ s ∈ f.literals, contains s openMark = false) ∧ ∀ a ∈ args, a.isClean = true := by
  obtain ⟨texts, htexts, rfl⟩ := f.call_eq_ok h
  have hnames : ∀ name ∈ ["always", "success", "failure", "cancelled", "contains", "startsWith", "endsWith",
      "toJSON", "fromJSON", "hashFiles", "format", "join"], isWrappable name = true := by decide
  have hname := hnames f.name (by cases f <;> simp [Function.name])
  obtain ⟨c, rest, hn, hc⟩ := head_of_isWrappable hname
  have hmake := toList_make f.name (f.around quote texts)
  have hlast : (f.name.toList ++
      '(' :: ([',', ' '].intercalate ((f.around quote texts).map String.toList) ++ [')'])).getLast? = some ')' := by
    rw [← List.cons_append, ← List.append_assoc, List.getLast?_concat]
  have hmark := ((isWrappable_iff f.name).mp hname).2.2
  have hnil : ¬ openMark.toList <:+: [] := by decide
  rw [isWrappable_iff_of_head (by rw [hmake, hn, List.cons_append]) hc, hmake, hlast,
    infix_append_cons_iff (by decide), infix_append_cons_iff (by decide),
    infix_intercalate_iff (by decide) (by decide) (by decide), exists_marked_around,
    exists_marked_of_mapM htexts]
  simp only [not_marked_iff, hmark, hnil, false_or, or_false, not_or, not_exists, not_and, Bool.not_eq_false]
  exact ⟨fun h => h.2.symm, fun h => ⟨by decide, h.symm⟩⟩

end Expression

end CiWorkflow
