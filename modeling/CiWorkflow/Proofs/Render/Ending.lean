import CiWorkflow.Proofs.Render.Literal
import CiWorkflow.Proofs.Yaml.FedNode
import CiWorkflow.Proofs.Yaml.Same
import CiWorkflow.Render.Document

/-!
# The end of a document

A body is given one line feed at its end, or keeps those it has. What it says stays the same, unless it has no
line feed at its end and stops inside a block that takes the one it is given, or cutting its line feeds down to
one gives two keys of a mapping one value.
-/
set_option autoImplicit false

namespace CiWorkflow.Render

open Yaml

/-- The body with exactly one line feed at its end. -/
def endedOnce (body : String) : String := String.ofList ((splitTrailing body.toList).1 ++ ['\n'])

/-- The text can be read but for a mapping that has a key twice. -/
def RepeatsKey (s : String) : Prop := ∃ v, (Node.read? s).bind Node.content? = some v ∧ v.wellFormed = false

/-- The text `out` says what `body` says. It ends in a line feed, and in more than one only where one alone would
not say the same. Given as a body it stays as it is. -/
structure Ends (body out : String) : Prop where
  same : ∃ v w, read? body = some v ∧ read? out = some w ∧ v.same w = true
  ended : ['\n'] <:+ out.toList
  once : ['\n', '\n'] <:+ out.toList →
    ∃ v, read? out = some v ∧ ∀ w, read? (endedOnce out) = some w → v.same w = false
  again : finishBody out = .ok out

theorem finishBody_eq (body : String) : finishBody body =
    if (splitTrailing body.toList).2 ≤ 1 then .ok (endedOnce body)
    else
      match read? body, read? (endedOnce body) with
      | some a, some b => .ok (if a.same b then endedOnce body else body)
      | _, _ => .error (.yaml .unreadable) := rfl

theorem splitTrailing_concat {text : List Char} (h : text.getLast? ≠ some '\n') :
    splitTrailing (text ++ ['\n']) = (text, 1) := by
  simp [splitTrailing, dropEndWhile_concat h]

section Once

variable (body : String)

theorem splitTrailing_endedOnce : splitTrailing (endedOnce body).toList = ((splitTrailing body.toList).1, 1) := by
  obtain ⟨text, n, hsplit, -, hlast⟩ := splitTrailing_eq body.toList
  rw [endedOnce, hsplit, String.toList_ofList, splitTrailing_concat hlast]

theorem endedOnce_endedOnce : endedOnce (endedOnce body) = endedOnce body := by
  rw [endedOnce, splitTrailing_endedOnce]
  rfl

theorem finishBody_endedOnce : finishBody (endedOnce body) = .ok (endedOnce body) := by
  rw [finishBody_eq, splitTrailing_endedOnce, endedOnce_endedOnce]
  rfl

theorem endedOnce_not_twice : ¬ ['\n', '\n'] <:+ (endedOnce body).toList := by
  obtain ⟨text, n, hsplit, -, hlast⟩ := splitTrailing_eq body.toList
  rw [endedOnce, hsplit, String.toList_ofList]
  rintro ⟨front, hfront⟩
  have hbehind : front ++ ['\n'] = text := by
    refine (List.append_left_inj ['\n']).mp ?_
    simpa using hfront
  exact hlast (by simp [← hbehind])

/-- The text with one line feed ends well where it says what the body says. -/
theorem ends_endedOnce {v w : Value} (hv : read? body = some v) (hw : read? (endedOnce body) = some w)
    (hsame : v.same w = true) : Ends body (endedOnce body) where
  same := ⟨v, w, hv, hw, hsame⟩
  ended := ⟨_, (String.toList_ofList).symm⟩
  once h := absurd h (endedOnce_not_twice body)
  again := finishBody_endedOnce body

end Once

/-! ## Reading without the last line feeds -/

theorem content_of_block {s : String} (h : EndsInBlock s) {w : Value}
    (hw : (Node.read? (s ++ "\n")).bind Node.content? = some w) :
    ∃ v, (Node.read? s).bind Node.content? = some v ∧ v.textLength < w.textLength := by
  have hrel := (read_feed s).2 h
  generalize Node.read? s = o at hrel ⊢
  generalize Node.read? (s ++ "\n") = o' at hrel hw
  cases hrel with
  | none => cases hw
  | some hgrows => exact hgrows.content hw

/-- What can be read but for repeated keys with one more line feed can be read so without it, and says the same or has
less text. -/
theorem content_of_feed {s : String} {w : Value} (h : (Node.read? (s ++ "\n")).bind Node.content? = some w) :
    ∃ v, (Node.read? s).bind Node.content? = some v ∧ (v = w ∨ v.textLength < w.textLength) := by
  by_cases hblock : EndsInBlock s
  · obtain ⟨v, hv, hlength⟩ := content_of_block hblock h
    exact ⟨v, hv, .inr hlength⟩
  · rw [(read_feed s).1 hblock] at h
    exact ⟨w, h, .inl rfl⟩

theorem content_of_feeds {text : List Char} (n : Nat) {w : Value}
    (h : (Node.read? (String.ofList (text ++ List.replicate (n + 1) '\n'))).bind Node.content? = some w) :
    ∃ v, (Node.read? (String.ofList (text ++ ['\n']))).bind Node.content? = some v ∧
      (v = w ∨ v.textLength < w.textLength) := by
  induction n generalizing w with
  | zero => exact ⟨w, h, .inl rfl⟩
  | succ n ih =>
    have hfeed : String.ofList (text ++ List.replicate (n + 1 + 1) '\n') =
        String.ofList (text ++ List.replicate (n + 1) '\n') ++ "\n" := by
      rw [List.replicate_succ', ← List.append_assoc, String.ofList_append]
    obtain ⟨u, hu, hless⟩ := content_of_feed (hfeed ▸ h)
    obtain ⟨v, hv, hmuch⟩ := ih hu
    refine ⟨v, hv, ?_⟩
    obtain rfl | hless := hless
    · exact hmuch
    · obtain rfl | hmuch := hmuch
      · exact .inr hless
      · exact .inr (Nat.lt_trans hmuch hless)

theorem read_eq_some {s : String} {v : Value} :
    read? s = some v ↔ (Node.read? s).bind Node.content? = some v ∧ v.wellFormed = true := by
  unfold read? Node.value?
  cases Node.read? s with
  | none => simp
  | some n => simp [Option.filter_eq_some_iff]

theorem read_of_repeatsKey {s : String} (h : RepeatsKey s) : read? s = none := by
  obtain ⟨v, hv, hwell⟩ := h
  rw [Option.eq_none_iff_forall_ne_some]
  intro w hw
  obtain ⟨hcontent, hwell'⟩ := read_eq_some.mp hw
  obtain rfl := Option.some.inj (hv.symm.trans hcontent)
  rw [hwell] at hwell'
  cases hwell'

theorem not_same_of_block {s : String} (h : EndsInBlock s) {v w : Value} (hv : read? s = some v)
    (hw : read? (s ++ "\n") = some w) : v.same w = false := by
  obtain ⟨hcontent, hwell⟩ := read_eq_some.mp hv
  obtain ⟨u, hu, hlength⟩ := content_of_block h (read_eq_some.mp hw).1
  obtain rfl := Option.some.inj (hcontent.symm.trans hu)
  refine Bool.eq_false_iff.mpr fun hsame => ?_
  exact absurd (Value.textLength_of_same v hwell hsame) (Nat.ne_of_lt hlength)

/-! ## The kinds of endings -/

/-- What becomes of a body without a line feed at its end, with one, and with several. -/
inductive Ending (body : String) : Prop
  | opened : ¬ ['\n'] <:+ body.toList → endedOnce body = body ++ "\n" →
      finishBody body = .ok (endedOnce body) → Ending body
  | once : ['\n'] <:+ body.toList → endedOnce body = body → finishBody body = .ok (endedOnce body) → Ending body
  | several : ['\n'] <:+ body.toList →
      (∀ w, (Node.read? body).bind Node.content? = some w →
        ∃ v, (Node.read? (endedOnce body)).bind Node.content? = some v ∧ (v = w ∨ v.textLength < w.textLength)) →
      (∀ v w, read? body = some v → read? (endedOnce body) = some w →
        finishBody body = .ok (if v.same w then endedOnce body else body)) →
      (read? (endedOnce body) = none → finishBody body = .error (.yaml .unreadable)) → Ending body

theorem ending (body : String) : Ending body := by
  obtain ⟨text, n, hsplit, hbody, hlast⟩ := splitTrailing_eq body.toList
  have honce : endedOnce body = String.ofList (text ++ ['\n']) := by rw [endedOnce, hsplit]
  have hends (n : Nat) : ['\n'] <:+ text ++ List.replicate (n + 1) '\n' :=
    ⟨text ++ List.replicate n '\n', by rw [List.replicate_succ', List.append_assoc]⟩
  match n with
  | 0 =>
    rw [List.replicate_zero, List.append_nil] at hbody
    refine .opened ?_ ?_ (by rw [finishBody_eq, hsplit]; rfl)
    · rintro ⟨front, hfront⟩
      exact hlast (by simp [← hbody, ← hfront])
    · rw [honce, String.ofList_append, ← hbody, String.ofList_toList]
  | 1 =>
    refine .once (hbody ▸ hends 0) ?_ (by rw [finishBody_eq, hsplit]; rfl)
    rw [honce, ← String.ofList_toList (s := body), hbody]
    rfl
  | n + 2 =>
    have hseveral := finishBody_eq body
    rw [hsplit, if_neg (by simp)] at hseveral
    refine .several (hbody ▸ hends (n + 1)) (fun w hcontent => ?_) (fun v w hv hw => ?_) fun hw => ?_
    · rw [honce]
      refine content_of_feeds (n + 1) ?_
      rwa [← hbody, String.ofList_toList]
    · rw [hseveral, hv, hw]
    · rw [hseveral, hw]
      cases read? body <;> rfl

/-- The end of a body keeps what the body says, unless the body stops without a line feed inside a block that takes
one, or has with one line feed at its end a mapping with a key twice. -/
theorem finishBody_ends {body : String} {v : Value} (hv : read? body = some v)
    (hblock : ¬ ['\n'] <:+ body.toList → ¬ EndsInBlock body) (hkeys : ¬ RepeatsKey (endedOnce body)) :
    ∃ out, finishBody body = .ok out ∧ Ends body out := by
  cases ending body with
  | opened hopen honce hfinish =>
    have hread : read? (endedOnce body) = some v := by
      rw [honce, read?, (read_feed body).1 (hblock hopen)]
      exact hv
    exact ⟨endedOnce body, hfinish, ends_endedOnce body hv hread v.same_self⟩
  | once hended honce hfinish =>
    exact ⟨endedOnce body, hfinish, ends_endedOnce body hv (honce.symm ▸ hv) v.same_self⟩
  | several hended hcontent hfinish _ =>
    obtain ⟨w, hw, -⟩ := hcontent v (read_eq_some.mp hv).1
    have hread : read? (endedOnce body) = some w :=
      read_eq_some.mpr ⟨hw, by simpa using fun hwell => hkeys ⟨w, hw, hwell⟩⟩
    have hfinish := hfinish v w hv hread
    cases hsame : v.same w with
    | true => exact ⟨endedOnce body, by rw [hfinish, if_pos hsame], ends_endedOnce body hv hread hsame⟩
    | false =>
      have hkept : finishBody body = .ok body := by rw [hfinish, if_neg (by simp [hsame])]
      refine ⟨body, hkept, ⟨v, v, hv, hv, v.same_self⟩, hended, fun _ => ⟨v, hv, fun w' hw' => ?_⟩, hkept⟩
      obtain rfl := Option.some.inj (hread.symm.trans hw')
      exact hsame

/-- If no line feed is added to a body, or one that changes nothing, the finished body is read as the body is. -/
theorem read_finishBody {body out : String} {v : Value} (hv : read? body = some v)
    (hopen : ¬ ['\n'] <:+ body.toList → read? (body ++ "\n") = some v) (hout : finishBody body = .ok out) :
    read? out = some v := by
  cases ending body with
  | opened hnone honce hfinish =>
    obtain rfl := Except.ok.inj (hfinish.symm.trans hout)
    rw [honce]
    exact hopen hnone
  | once _ honce hfinish =>
    obtain rfl := Except.ok.inj (hfinish.symm.trans hout)
    rwa [honce]
  | several _ hcontent hfinish hfails =>
    cases hread : read? (endedOnce body) with
    | none => cases hout.symm.trans (hfails hread)
    | some w =>
      obtain rfl := Except.ok.inj ((hfinish v w hv hread).symm.trans hout)
      split
      · rename_i hsame
        obtain ⟨hbody, hwell⟩ := read_eq_some.mp hv
        obtain ⟨u, hu, hless⟩ := hcontent v hbody
        obtain rfl := Option.some.inj (hu.symm.trans (read_eq_some.mp hread).1)
        have hlength := Value.textLength_of_same v hwell hsame
        obtain rfl | hless := hless
        · exact hread
        · exact absurd hlength.symm (Nat.ne_of_lt hless)
      · exact hv

/-- The end of a body keeps what the body says exactly if the body does not stop without a line feed inside a block
that takes one, and has no mapping with a key twice when one line feed ends it. -/
theorem finishBody_ends_iff {body : String} {v : Value} (hv : read? body = some v) :
    (∃ out, finishBody body = .ok out ∧ Ends body out) ↔
      (¬ ['\n'] <:+ body.toList → ¬ EndsInBlock body) ∧ ¬ RepeatsKey (endedOnce body) := by
  refine ⟨fun ⟨out, hout, hends⟩ => ?_, fun h => finishBody_ends hv h.1 h.2⟩
  obtain ⟨v', w, hv', hw, hsame⟩ := hends.same
  obtain rfl := Option.some.inj (hv.symm.trans hv')
  have hreads (hfinish : finishBody body = .ok (endedOnce body)) : read? (endedOnce body) = some w := by
    obtain rfl := Except.ok.inj (hfinish.symm.trans hout)
    exact hw
  have hkeys (hread : read? (endedOnce body) ≠ none) : ¬ RepeatsKey (endedOnce body) :=
    fun h => hread (read_of_repeatsKey h)
  cases ending body with
  | opened hopen honce hfinish =>
    have hread := hreads hfinish
    refine ⟨fun _ hblock => ?_, hkeys (by simp [hread])⟩
    rw [honce] at hread
    rw [not_same_of_block hblock hv hread] at hsame
    cases hsame
  | once hended honce hfinish => exact ⟨absurd hended, hkeys (by simp [hreads hfinish])⟩
  | several hended _ _ hfails =>
    refine ⟨absurd hended, hkeys fun hread => ?_⟩
    cases hout.symm.trans (hfails hread)

/-- Both line feeds belong to the block, so both stay. -/
theorem finishBody_ends_in_kept_block :
    read? "a: |+\n  x\n\n" = some (.mapping [(.string "a", .string "x\n\n")]) ∧
      ∃ out, finishBody "a: |+\n  x\n\n" = .ok out ∧ Ends "a: |+\n  x\n\n" out := by
  have htokens : tokens? "a: |+\n  x\n\n" =
      some [.blockMapping, .key, .scalar .plain "a", .value, .scalar .literal "x\n\n", .blockEnd] := by decide +kernel
  have hread : read? "a: |+\n  x\n\n" = some (.mapping [(.string "a", .string "x\n\n")]) := by
    rw [read?, Node.read?, htokens]
    rfl
  have honce : tokens? (endedOnce "a: |+\n  x\n\n") =
      some [.blockMapping, .key, .scalar .plain "a", .value, .scalar .literal "x\n", .blockEnd] := by decide +kernel
  have hcontent : (Node.read? (endedOnce "a: |+\n  x\n\n")).bind Node.content? =
      some (.mapping [(.string "a", .string "x\n")]) := by
    rw [Node.read?, honce]
    rfl
  refine ⟨hread, (finishBody_ends_iff hread).mpr ⟨fun h => absurd (by decide) h, ?_⟩⟩
  rintro ⟨v, hv, hwell⟩
  obtain rfl := Option.some.inj (hcontent.symm.trans hv)
  cases hwell

/-- The block at the end takes the line feed that the body is given. -/
theorem finishBody_lengthens_block : ¬ ∀ (body : String) (v : Value), read? body = some v →
    ∃ out, finishBody body = .ok out ∧ Ends body out := by
  intro h
  have htokens : tokens? "a: |\n  x" =
      some [.blockMapping, .key, .scalar .plain "a", .value, .scalar .literal "x", .blockEnd] := by decide +kernel
  have hread : read? "a: |\n  x" = some (.mapping [(.string "a", .string "x")]) := by
    rw [read?, Node.read?, htokens]
    rfl
  have htokens' : tokens? "a: |\n  x\n" =
      some [.blockMapping, .key, .scalar .plain "a", .value, .scalar .literal "x\n", .blockEnd] := by decide +kernel
  have hread' : read? "a: |\n  x\n" = some (.mapping [(.string "a", .string "x\n")]) := by
    rw [read?, Node.read?, htokens']
    rfl
  obtain ⟨out, hout, hends⟩ := h _ _ hread
  have hfinish : finishBody "a: |\n  x" = .ok "a: |\n  x\n" := rfl
  obtain rfl := Except.ok.inj (hfinish.symm.trans hout)
  obtain ⟨v, w, hv, hw, hsame⟩ := hends.same
  obtain rfl := Option.some.inj (hread.symm.trans hv)
  obtain rfl := Option.some.inj (hread'.symm.trans hw)
  cases hsame

example : (read? "? |+\n  a\n: x\n? |+\n  a\n\n\n").isSome = true ∧
    (finishBody "? |+\n  a\n: x\n? |+\n  a\n\n\n").isOk = false := by decide +kernel

end CiWorkflow.Render
