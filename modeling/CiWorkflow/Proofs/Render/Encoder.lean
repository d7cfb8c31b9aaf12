import CiWorkflow.Proofs.Render.Mark
import CiWorkflow.Proofs.Render.Restore
import CiWorkflow.Proofs.Text.Every
import CiWorkflow.Proofs.Yaml.Directive

set_option autoImplicit false

namespace CiWorkflow.Render

open Yaml Scanner Text

theorem isTagUriChar_reference (n i : Nat) : ∀ c ∈ (reference n i).toList,
    isTagUriChar true c = true ∧ isBreak c = false ∧ c ≠ '%' ∧ isAllowed c = true := by
  have hstem : ∀ c ∈ markerStem.toList ++ [':'], isTagUriChar true c = true ∧ isBreak c = false ∧ c ≠ '%' ∧
      isAllowed c = true := Text.forall_mem_of_all (by decide)
  have hdigit : ∀ c : Char, c.isDigit = true → isTagUriChar true c = true ∧ isBreak c = false ∧ c ≠ '%' ∧
      isAllowed c = true := by
    intro c hc
    have hrange : 48 ≤ c.toNat ∧ c.toNat ≤ 57 := by
      simpa [Char.isDigit, UInt32.le_iff_toNat_le] using hc
    have hall : ∀ n < 58, 48 ≤ n → isTagUriChar true (Char.ofNat n) = true ∧ isBreak (Char.ofNat n) = false ∧
        Char.ofNat n ≠ '%' ∧ isAllowed (Char.ofNat n) = true := by decide
    have := hall c.toNat (by omega) hrange.1
    rwa [Char.ofNat_toNat] at this
  intro c hc
  rw [reference_eq] at hc
  simp only [spelled, List.mem_append, List.mem_cons] at hc
  rcases hc with hc | hc | rfl | rfl | rfl | hc
  · exact hstem c (by simp [hc])
  · exact hdigit c (Nat.isDigit_of_mem_toDigits (by decide) (by decide) hc)
  · exact hstem '_' (by decide)
  · exact hstem '_' (by decide)
  · exact hstem ':' (by decide)
  · exact hdigit c (Nat.isDigit_of_mem_toDigits (by decide) (by decide) hc)

namespace Blocks

variable {b : Blocks}

theorem restoreInLine_own (i : Nat) {s : String} (h : b.scripts[i]? = some s) :
    b.restoreInLine 0 true (reference b.number i).toList = Json.quoted s.toList := by
  have hne : (reference b.number i).toList ≠ [] := by simp [reference_eq, spelled, markerStem]
  obtain ⟨c, X, hcX⟩ := List.exists_cons_of_ne_nil hne
  have hquote : takeQuote (reference b.number i).toList = ([], (reference b.number i).toList) := by
    rw [reference_eq]
    rfl
  have hread : readReference? (reference b.number i).toList =
      some (Nat.toDigits 10 b.number, Nat.toDigits 10 i, []) := by
    rw [readReference_iff]
    exact ⟨by rw [reference_eq, List.append_nil], areDigits_toDigits _, areDigits_toDigits _, rfl⟩
  have hscript : b.quotedScript? (reference b.number i).toList = some (some (Json.quoted s.toList), []) := by
    simp only [quotedScript?, hquote, hread, Option.bind_eq_bind, Option.bind_some, find_reference, h]
    rfl
  rw [hcX] at hscript ⊢
  rw [← List.append_nil X] at hscript ⊢
  rw [restoreInLine_reference b hscript]
  simp [restoreInLine]

/-- A reference in a directive becomes a quoted script, which is no text for a handle to stand for. -/
theorem exists_restored_directive (indent n : Nat) (rest : List Char) {s : String} (h : b.scripts[0]? = some s) :
    ∃ tail, b.restore indent
        (String.ofList (handleDirective n ++ ((reference b.number 0).toList ++ '\n' :: rest))) =
      String.ofList (handleDirective n ++ '"' :: tail) := by
  have hline : '\n' ∉ handleDirective n ++ (reference b.number 0).toList := by
    intro hmem
    rcases List.mem_append.mp hmem with hm | hm
    · exact absurd (mem_handleDirective hm) (by decide)
    · exact absurd (isTagUriChar_reference b.number 0 _ hm).2.1 (by decide)
  have hplain : ∀ c ∈ handleDirective n, isPlainChar c = true := fun c hc =>
    (Text.forall_mem_of_all (by decide) : ∀ c ∈ "%TAG !x".toList, isPlainChar c = true) c (mem_handleDirective hc)
  have hentry : opensEntry (handleDirective n ++ (reference b.number 0).toList) = false := rfl
  have hscripts : b.scripts.isEmpty = false := by
    cases hb : b.scripts with
    | nil => simp [hb] at h
    | cons => rfl
  refine ⟨s.toList.flatMap Json.escape ++ ('"' :: '\n' :: b.restoreText indent rest), ?_⟩
  rw [restore, hscripts, String.toList_ofList, ← List.append_assoc]
  simp only [Bool.false_eq_true, ↓reduceIte]
  change String.ofList (b.restoreText indent _) = _
  rw [restoreText_line b indent _ rest hline, restoreLine, blockLine_none b indent _ hentry,
    b.restoreInLine_plain _ _ hplain, restoreInLine_own 0 h]
  simp [Json.quoted]

end Blocks

/-- No value with scripts comes back from every text of its marked form, if there is any. -/
theorem exists_lost_text {m : Value} {b : Blocks} (indent : Nat) (hb : b.scripts ≠ [])
    {s : String} (hs : read? s = some m) :
    ∃ s', read? s' = some m ∧ read? (b.restore indent s') = none := by
  obtain ⟨script, others, hscripts⟩ := List.exists_cons_of_ne_nil hb
  have hchars := isTagUriChar_reference b.number 0
  have hne : (reference b.number 0).toList ≠ [] := by simp [reference_eq, spelled, markerStem]
  obtain ⟨n, rest, hread⟩ := exists_read_behind hs (reference b.number 0).toList hne
    (fun c hc => ⟨(hchars c hc).1, (hchars c hc).2.1, (hchars c hc).2.2.1⟩)
    (List.all_eq_true.mpr fun c hc => (hchars c hc).2.2.2)
  obtain ⟨tail, htail⟩ := Blocks.exists_restored_directive indent n rest
    (show b.scripts[0]? = some script by simp [hscripts])
  refine ⟨_, hread, ?_⟩
  rw [htail, read?, Node.read?, tokens_of_fails]
  · rfl
  · rw [String.toList_ofList]
    exact fails_handleDirective n '"' tail (by decide) (by decide) (by decide)

/-- The scripts of a value come back from every text of its marked form exactly if there are none, or no text
at all has that form. -/
theorem read_restored_iff (v : Value) (indent : Nat) :
    (∀ s, read? s = some (mark v).1 → read? ((mark v).2.restore indent s) = some v) ↔
      (mark v).2.scripts = [] ∨ ∀ s, read? s ≠ some (mark v).1 := by
  constructor
  · intro h
    by_cases hb : (mark v).2.scripts = []
    · exact .inl hb
    · refine .inr fun s hs => ?_
      obtain ⟨s', hread, hlost⟩ := exists_lost_text indent hb hs
      rw [h s' hread] at hlost
      cases hlost
  · rintro (hb | hnone) s hs
    · have hself : (mark v).1 = v := markFrom_eq_self _ 0 v hb
      have hrestore : (mark v).2.restore indent s = s := by simp [Blocks.restore, hb]
      rw [hrestore, hs, hself]
    · exact absurd hs (hnone s)

/-- A script of one line stays in the value and comes back from every text. One of two lines comes back from the text
in block style, but not from every text. -/
theorem read_restored_two_lines :
    (∀ s, read? s = some (mark (.mapping [(.string "run", .string "ls")])).1 →
      read? ((mark (.mapping [(.string "run", .string "ls")])).2.restore 2 s) =
        some (.mapping [(.string "run", .string "ls")])) ∧
    read? "run: __ghaflow_block_0__:0\n" = some (mark (.mapping [(.string "run", .string "a\nb")])).1 ∧
    read? ((mark (.mapping [(.string "run", .string "a\nb")])).2.restore 2 "run: __ghaflow_block_0__:0\n") =
      some (.mapping [(.string "run", .string "a\nb")]) ∧
    ¬ ∀ s, read? s = some (mark (.mapping [(.string "run", .string "a\nb")])).1 →
      read? ((mark (.mapping [(.string "run", .string "a\nb")])).2.restore 2 s) =
        some (.mapping [(.string "run", .string "a\nb")]) := by
  have hmarkedTokens : tokens? "run: __ghaflow_block_0__:0\n" = some [.blockMapping, .key, .scalar .plain "run",
      .value, .scalar .plain "__ghaflow_block_0__:0", .blockEnd] := by decide +kernel
  have hmarked : read? "run: __ghaflow_block_0__:0\n" =
      some (mark (.mapping [(.string "run", .string "a\nb")])).1 := by
    rw [read?, Node.read?, hmarkedTokens]
    rfl
  have htext : (mark (.mapping [(.string "run", .string "a\nb")])).2.restore 2 "run: __ghaflow_block_0__:0\n" =
      "run: |-\n  a\n  b\n" := by decide +kernel
  have htokens : tokens? "run: |-\n  a\n  b\n" = some [.blockMapping, .key, .scalar .plain "run", .value,
      .scalar .literal "a\nb", .blockEnd] := by decide +kernel
  refine ⟨(read_restored_iff (.mapping [(.string "run", .string "ls")]) 2).mpr (.inl (by decide +kernel)), hmarked,
    ?_, fun hall => ?_⟩
  · rw [htext, read?, Node.read?, htokens]
    rfl
  · obtain hnone | hnone := (read_restored_iff (.mapping [(.string "run", .string "a\nb")]) 2).mp hall
    · revert hnone
      decide +kernel
    · exact hnone _ hmarked

/-- A `run` entry on a line of its own between brackets becomes a literal block there. -/
theorem read_restored_between_brackets : ¬ ∀ (v : Value) (indent : Nat) (s : String), 1 ≤ indent →
    read? s = some (mark v).1 → read? ((mark v).2.restore indent s) = some v := by
  intro h
  have htokens : tokens? "\x7b\nrun: __ghaflow_block_0__:0\n\x7d" = some [.flowMapping, .key, .scalar .plain "run",
      .value, .scalar .plain "__ghaflow_block_0__:0", .flowMappingEnd] := by decide +kernel
  have hread : read? "\x7b\nrun: __ghaflow_block_0__:0\n\x7d" =
      some (mark (.mapping [(.string "run", .string "a\nb")])).1 := by
    rw [read?, Node.read?, htokens]
    rfl
  have hlost : read? ((mark (.mapping [(.string "run", .string "a\nb")])).2.restore 2
      "\x7b\nrun: __ghaflow_block_0__:0\n\x7d") = none := by decide +kernel
  have hclaim := h _ 2 _ (by decide) hread
  rw [hlost] at hclaim
  cases hclaim

end CiWorkflow.Render
