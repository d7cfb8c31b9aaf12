import CiWorkflow.Proofs.Yaml.Position
import CiWorkflow.Yaml.Token.Quoted

set_option autoImplicit false

namespace CiWorkflow.Yaml

open Position

def isVerbatim (c : Char) : Bool := !isBreak c && c ≠ '"' && c ≠ '\\'

theorem not_cr_of_verbatim (c : Char) (h : isVerbatim c = true) : c ≠ '\r' := by
  rintro rfl
  simp [isVerbatim, isBreak] at h

theorem readDouble_gap (out : List Char) (gap : Gap) (p : Position) (c : Char) (cs : List Char)
    (hc : c ≠ '\r') (h : (isSpaceOrTab c || isBreak c) = true) :
    readDouble .no out gap (p.cells (c :: cs)) =
      readDouble .no out (gap.push (p.cell c)) ((p.next c).cells cs) := by
  rw [cells_cons p c cs hc]
  simp only [readDouble, isBlank_cell, isLineEnd_cell, h, ↓reduceIte]

theorem readDouble_char (out : List Char) (gap : Gap) (p : Position) (c : Char) (cs : List Char)
    (hv : isVerbatim c = true) (hs : isSpaceOrTab c = false)
    (hm : atDocumentMarker (p.cells (c :: cs)) = false) :
    readDouble .no out gap (p.cells (c :: cs)) =
      readDouble .no (c :: settle out gap) .none ((p.next c).cells cs) := by
  have hb : isBreak c = false := by
    simp only [isVerbatim, Bool.and_eq_true, Bool.not_eq_true'] at hv
    exact hv.1.1
  have hq : c ≠ '"' ∧ c ≠ '\\' := by
    simp only [isVerbatim, Bool.and_eq_true, decide_eq_true_eq] at hv
    exact ⟨hv.1.2, hv.2⟩
  rw [cells_cons p c cs (not_cr_of_verbatim c hv)] at hm ⊢
  simp [readDouble, hb, hs, hm, cell_char p c hb, hq]

theorem readDouble_marker (out : List Char) (gap : Gap) (p : Position) (c : Char) (cs : List Char)
    (h : (isSpaceOrTab c || isBreak c) = false) (hm : atDocumentMarker (p.cells (c :: cs)) = true) :
    readDouble .no out gap (p.cells (c :: cs)) = none := by
  obtain ⟨rest, hc⟩ := cells_eq_cons p c cs
  rw [hc] at hm ⊢
  simp only [readDouble, isBlank_cell, isLineEnd_cell, h, hm, Bool.false_eq_true, ↓reduceIte]

theorem readDouble_backslash (out : List Char) (gap : Gap) (p : Position) (cs : List Char) :
    readDouble .no out gap (p.cells ('\\' :: cs)) =
      readDouble .started (settle out gap) .none ((p.next '\\').cells cs) := by
  have hm : ∀ rest, atDocumentMarker (p.cell '\\' :: rest) = false := by
    intro rest
    match rest with
    | [] | [_] => rfl
    | _ :: _ :: _ => simp [atDocumentMarker, isMarker, cell_char p '\\' (by decide)]
  rw [cells_cons p '\\' cs (by decide)]
  simp [readDouble, hm, cell_char p '\\' (by decide), show isSpaceOrTab '\\' = false by decide,
    show isBreak '\\' = false by decide]

theorem readDouble_quote (out : List Char) (gap : Gap) (p : Position) (cs : List Char) :
    readDouble .no out gap (p.cells ('"' :: cs)) = finish out gap ((p.next '"').cells cs) := by
  have hm : ∀ rest, atDocumentMarker (p.cell '"' :: rest) = false := by
    intro rest
    match rest with
    | [] | [_] => rfl
    | _ :: _ :: _ => simp [atDocumentMarker, isMarker, cell_char p '"' (by decide)]
  rw [cells_cons p '"' cs (by decide)]
  simp [readDouble, hm, cell_char p '"' (by decide), show isSpaceOrTab '"' = false by decide,
    show isBreak '"' = false by decide]

def Escapes (e : List Char) (c : Char) : Prop :=
  (∀ d ∈ e, isBreak d = false) ∧
    ∀ (out : List Char) (p : Position) (rest : List Char),
      readDouble .started out .none (p.cells (e ++ rest)) =
        readDouble .no (c :: out) .none ((p.after e).cells rest)

theorem escapes_name (name c : Char) (hb : isBreak name = false) (hl : escapeLength? name = none)
    (hn : unescape? name = some c) : Escapes [name] c := by
  refine ⟨by simpa using hb, ?_⟩
  intro out p rest
  have hcr : name ≠ '\r' := by
    rintro rfl
    simp [isBreak] at hb
  rw [List.singleton_append, cells_cons p name rest hcr]
  simp [readDouble, hb, cell_char p name hb, hl, hn]

def hexFold (value : Nat) (ds : List Char) : Nat :=
  ds.foldl (fun n d => 16 * n + (digitValue? 16 d).getD 0) value

theorem not_break_of_hexDigit (d : Char) (h : (digitValue? 16 d).isSome) : isBreak d = false := by
  rw [Bool.eq_false_iff]
  intro hb
  simp only [isBreak, Bool.or_eq_true, decide_eq_true_eq] at hb
  rcases hb with (((rfl | rfl) | rfl) | rfl) | rfl <;> exact absurd h (by decide)

theorem readDouble_digits (out : List Char) (gap : Gap) (value : Nat) (p : Position) (ds rest : List Char)
    (hne : ds ≠ []) (hds : ∀ d ∈ ds, (digitValue? 16 d).isSome) :
    readDouble (.digits ds.length value) out gap (p.cells (ds ++ rest)) =
      (charOf? (hexFold value ds)).bind fun x => readDouble .no (x :: out) gap ((p.after ds).cells rest) := by
  induction ds generalizing value p with
  | nil => exact absurd rfl hne
  | cons d others ih =>
    have hd := hds d (by simp)
    have hb := not_break_of_hexDigit d hd
    have hcr : d ≠ '\r' := by
      rintro rfl
      simp [isBreak] at hb
    obtain ⟨n, hn⟩ := Option.isSome_iff_exists.mp hd
    rw [List.cons_append, cells_cons p d _ hcr, readDouble.eq_def]
    simp only [cell_char p d hb, hn, List.length_cons]
    cases others with
    | nil =>
      simp only [List.length_nil, Nat.lt_irrefl, ↓reduceIte, hexFold, List.foldl_cons, List.foldl_nil, hn,
        Option.getD_some, after_cons, after_nil, List.nil_append]
      cases charOf? (16 * value + n) <;> rfl
    | cons e more =>
      have hlen : 1 < (e :: more).length + 1 := by simp
      rw [if_pos hlen, show (e :: more).length + 1 - 1 = (e :: more).length from rfl,
        ih (16 * value + n) (p.next d) (by simp) fun x hx => hds x (by simp [hx])]
      simp [hexFold, hn]

theorem escapes_digits (letter c : Char) (ds : List Char) (hb : isBreak letter = false)
    (hl : escapeLength? letter = some ds.length) (hne : ds ≠ [])
    (hds : ∀ d ∈ ds, (digitValue? 16 d).isSome) (hc : charOf? (hexFold 0 ds) = some c) :
    Escapes (letter :: ds) c := by
  constructor
  · intro d hd
    rcases List.mem_cons.mp hd with rfl | hd
    · exact hb
    · exact not_break_of_hexDigit d (hds d hd)
  · intro out p rest
    have hcr : letter ≠ '\r' := by
      rintro rfl
      simp [isBreak] at hb
    rw [List.cons_append, cells_cons p letter _ hcr, readDouble.eq_def]
    simp only [cell_char p letter hb, isLineEnd_cell, hb, hl, Bool.false_eq_true, ↓reduceIte]
    rw [readDouble_digits out .none 0 (p.next letter) ds rest hne hds, hc]
    rfl

theorem charOf_toNat (c : Char) : charOf? c.toNat = some c := by
  have h : c.toNat.isValidChar := c.valid
  simp [charOf?, h]

/-- A spelling of a character between double quotes that spans no line end. -/
def Spells (e : List Char) (c : Char) : Prop :=
  (e = [c] ∧ isVerbatim c = true) ∨ ∃ tail, e = '\\' :: tail ∧ Escapes tail c

theorem not_break_of_spells (e : List Char) (c : Char) (h : Spells e c) : ∀ d ∈ e, isBreak d = false := by
  rcases h with ⟨rfl, hv⟩ | ⟨tail, rfl, hb, -⟩
  · simp only [isVerbatim, Bool.and_eq_true, Bool.not_eq_true'] at hv
    simpa using hv.1.1
  · intro d hd
    rcases List.mem_cons.mp hd with rfl | hd
    · decide
    · exact hb d hd

/-- A text whose characters are spelled one by one reads back, with the blanks in front of it. -/
theorem readDouble_spelled (spell : Char → List Char) (cs : List Char) (hs : ∀ c ∈ cs, Spells (spell c) c)
    (out blanks : List Char) (p : Position) (hp : p.column ≠ 0) (rest : List Char) :
    readDouble .no out (.sameLine blanks) (p.cells (cs.flatMap spell ++ '"' :: rest)) =
      some (out.reverse ++ blanks ++ cs, (p.after (cs.flatMap spell ++ ['"'])).cells rest) := by
  induction cs generalizing out blanks p with
  | nil =>
    rw [List.flatMap_nil, List.nil_append, readDouble_quote]
    simp [finish, Gap.text]
  | cons c others ih =>
    have hc := hs c (by simp)
    have ih := fun out blanks p hp => ih (fun d hd => hs d (by simp [hd])) out blanks p hp
    rw [List.flatMap_cons, List.append_assoc]
    rcases hc with ⟨he, hv⟩ | ⟨tail, he, hbreaks, hread⟩
    · have hb : isBreak c = false := by
        simp only [isVerbatim, Bool.and_eq_true, Bool.not_eq_true'] at hv
        exact hv.1.1
      have hcol : (p.next c).column ≠ 0 := by
        rw [next_of_not_break p c hb]
        simp
      rw [he, List.singleton_append]
      by_cases hblank : isSpaceOrTab c = true
      · have hnorm : (p.cell c).char = c := cell_char p c hb
        rw [readDouble_gap out _ p c _ (not_cr_of_verbatim c hv) (by simp [hblank])]
        simp only [Gap.push, isLineEnd_cell, hb, hnorm, Bool.false_eq_true, ↓reduceIte]
        rw [ih out (blanks ++ [c]) (p.next c) hcol]
        simp
      · rw [readDouble_char out _ p c _ hv (by simpa using hblank) (atDocumentMarker_of_column p _ hp)]
        rw [show Gap.none = .sameLine [] from rfl, ih _ [] (p.next c) hcol]
        simp [settle, Gap.text]
    · have hcol : ((p.next '\\').after tail).column ≠ 0 := by
        rw [after_of_no_break _ tail hbreaks, next_of_not_break p '\\' (by decide)]
        simp
      rw [he, List.cons_append, readDouble_backslash, hread,
        show Gap.none = .sameLine [] from rfl, ih _ [] _ hcol]
      simp [settle, Gap.text]

end CiWorkflow.Yaml
