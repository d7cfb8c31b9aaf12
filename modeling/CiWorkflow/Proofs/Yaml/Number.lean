import CiWorkflow.Proofs.Decimal.Text
import CiWorkflow.Proofs.Yaml.Plain

set_option autoImplicit false

namespace CiWorkflow.Yaml

open Decimal

theorem not_word (s : String) (h : s.toList.head?.any (fun c => c.isDigit || c = '-') = true) :
    isNullWord s = false ∧ boolWord? s = none := by
  constructor
  · rw [Bool.eq_false_iff]
    intro hn
    simp only [isNullWord, Bool.or_eq_true, decide_eq_true_eq] at hn
    rcases hn with ((rfl | rfl) | rfl) | rfl <;> exact absurd h (by decide)
  · unfold boolWord?
    split
    · rename_i hw
      simp only [Bool.or_eq_true, decide_eq_true_eq] at hw
      rcases hw with (rfl | rfl) | rfl <;> exact absurd h (by decide)
    · split
      · rename_i hw
        simp only [Bool.or_eq_true, decide_eq_true_eq] at hw
        rcases hw with (rfl | rfl) | rfl <;> exact absurd h (by decide)
      · rfl

theorem digitValue_ten (c : Char) (h : c.isDigit = true) : digitValue? 10 c = some (c.toNat - '0'.toNat) := by
  have hlt : c.toNat - '0'.toNat < 10 := by
    simp only [Char.isDigit, Bool.and_eq_true, decide_eq_true_eq, UInt32.le_iff_toNat_le] at h
    have h₂ : c.toNat ≤ 57 := h.2
    change c.toNat - 48 < 10
    omega
  unfold digitValue?
  simp only [h, ↓reduceIte, Option.filter_some, decide_eq_true_eq]
  rw [if_pos hlt]

theorem digitValue_ten_none (c : Char) (h : c.isDigit = false) : digitValue? 10 c = none := by
  unfold digitValue?
  simp only [h, Bool.false_eq_true, ↓reduceIte]
  split
  · simp
  · split
    · simp
    · rfl

theorem readRadix_none (cs : List Char) (c : Char) (hc : c ∈ cs) (h : c.isDigit = false) :
    readRadix? 10 cs = none := by
  have hfold : ∀ n, cs.foldlM (fun n c => (digitValue? 10 c).map (10 * n + ·)) n = none := by
    induction cs with
    | nil => cases hc
    | cons d rest ih =>
      intro n
      rw [List.foldlM_cons]
      rcases List.mem_cons.mp hc with rfl | hc
      · simp [digitValue_ten_none c h]
      · cases digitValue? 10 d with
        | none => rfl
        | some v => exact ih hc _
  unfold readRadix?
  split
  · rfl
  · exact hfold 0

theorem readRadix_digits (ds : List Char) (hne : ds ≠ []) (hds : ∀ d ∈ ds, d.isDigit = true) :
    readRadix? 10 ds = some (digitsValue ds) := by
  have hfold : ∀ n, ds.foldlM (fun n c => (digitValue? 10 c).map (10 * n + ·)) n =
      some (Nat.ofDigitChars 10 ds n) := by
    clear hne
    induction ds with
    | nil => simp
    | cons d rest ih =>
      intro n
      rw [List.foldlM_cons, digitValue_ten d (hds d (by simp)), Nat.ofDigitChars_cons]
      exact ih (fun x hx => hds x (by simp [hx])) _
  unfold readRadix?
  rw [if_neg (by simpa using hne), hfold, digitsValue_eq]

/-- No prefix of another radix: the second character is none of their letters. -/
theorem readPrefixed_none (cs : List Char) (h : ∀ c ∈ cs, c ≠ 'x' ∧ c ≠ 'o' ∧ c ≠ 'b') :
    readPrefixed? cs = none := by
  unfold readPrefixed?
  split
  · exact absurd rfl (h 'x' (by simp)).1
  · exact absurd rfl (h 'o' (by simp)).2.1
  · exact absurd rfl (h 'b' (by simp)).2.2
  · rfl

theorem not_radix_of_numberChar (c : Char) (h : isNumberChar c = true) : c ≠ 'x' ∧ c ≠ 'o' ∧ c ≠ 'b' := by
  refine ⟨?_, ?_, ?_⟩ <;>
  · rintro rfl
    exact absurd h (by decide)

theorem toDigits_head_ne_zero (n : Nat) (hn : 0 < n) : (Nat.toDigits 10 n).head? ≠ some '0' := by
  induction n using Nat.strong_induction_on with
  | _ n ih =>
    by_cases h : n < 10
    · rw [Nat.toDigits_of_lt_base h]
      have : ∀ k : Fin 10, 0 < k.val → [Nat.digitChar k.val].head? ≠ some '0' := by decide
      exact this ⟨n, h⟩ hn
    · rw [Nat.toDigits_of_base_le (by decide) (by omega), List.head?_append_of_ne_nil _ Nat.toDigits_ne_nil]
      exact ih (n / 10) (by omega) (by omega)

theorem not_zeroPadded (negative : Bool) (d : Char) (tail : List Char) (hd : d.isDigit = true)
    (h : d = '0' → tail ≠ [] → tail.all Char.isDigit = false) :
    isZeroPadded (signed negative (d :: tail)) = false := by
  have hp : d ≠ '+' := by
    rintro rfl
    exact absurd hd (by decide)
  have hm : d ≠ '-' := by
    rintro rfl
    exact absurd hd (by decide)
  have hbody : isZeroPadded (signed negative (d :: tail)) = isZeroPadded ('-' :: d :: tail) := by
    cases negative with
    | true => rfl
    | false => simp [isZeroPadded, signed, hm, hp]
  rw [hbody]
  cases tail with
  | nil => simp [isZeroPadded]
  | cons e rest =>
    by_cases hzero : d = '0'
    · subst hzero
      exact h rfl (by simp)
    · simp [isZeroPadded, hzero]

/-- What a text that starts with a sign or a digit can be read as: an integer if it holds digits alone. -/
theorem integerMeaning_signed (negative : Bool) (d : Char) (tail : List Char) (hd : d.isDigit = true)
    (htail : ∀ c ∈ tail, isNumberChar c = true)
    (hz : isZeroPadded (signed negative (d :: tail)) = false) :
    integerMeaning? (signed negative (d :: tail)) =
      match readRadix? 10 (d :: tail) with
      | none => none
      | some n =>
        if negative then
          if n ≤ 2 ^ 63 then some (.int (-n)) else if n ≤ 2 ^ 127 then some (.wideInt (-n)) else none
        else if n < 2 ^ 64 then some (.int n) else if n < 2 ^ 128 then some (.wideInt n) else none := by
  have hp : d ≠ '+' := by
    rintro rfl
    exact absurd hd (by decide)
  have hm : d ≠ '-' := by
    rintro rfl
    exact absurd hd (by decide)
  have hprefix : readPrefixed? (d :: tail) = none := by
    refine readPrefixed_none _ fun c hc => not_radix_of_numberChar c ?_
    rcases List.mem_cons.mp hc with rfl | hc
    · exact isNumberChar_of_digit c hd
    · exact htail c hc
  cases negative with
  | false =>
    have hu : readUnsigned? (signed false (d :: tail)) = readRadix? 10 (d :: tail) := by
      simp only [signed, Bool.false_eq_true, ↓reduceIte] at hz ⊢
      simp [readUnsigned?, hp, hprefix, hz]
    have hn : readNegative? (signed false (d :: tail)) = none := by
      simp [readNegative?, signed, hm]
    unfold integerMeaning?
    rw [hu, hn]
    cases readRadix? 10 (d :: tail) <;> rfl
  | true =>
    have hu : readUnsigned? (signed true (d :: tail)) = none := by
      have hr : readRadix? 10 ('-' :: d :: tail) = none :=
        readRadix_none _ '-' (by simp) (by decide)
      simp [readUnsigned?, signed, readPrefixed?, hr]
    have hn : readNegative? (signed true (d :: tail)) = readRadix? 10 (d :: tail) := by
      simp only [signed, ↓reduceIte] at hz ⊢
      simp [readNegative?, hprefix, hz]
    unfold integerMeaning?
    rw [hu, hn]
    cases readRadix? 10 (d :: tail) <;> rfl

theorem head_signed (negative : Bool) (d : Char) (tail : List Char) (hd : d.isDigit = true) :
    (signed negative (d :: tail)).head?.any (fun c => c.isDigit || c = '-') = true := by
  cases negative <;> simp [signed, hd]

theorem meaning_signed (s : String) (negative : Bool) (d : Char) (tail : List Char)
    (hs : s.toList = signed negative (d :: tail)) (hd : d.isDigit = true)
    (hz : isZeroPadded (signed negative (d :: tail)) = false) :
    meaning s = (integerMeaning? (signed negative (d :: tail))).getD
      (((floatMeaning? (signed negative (d :: tail))).map .float).getD .text) := by
  obtain ⟨hnull, hbool⟩ := not_word s (by rw [hs]; exact head_signed negative d tail hd)
  have hne : (signed negative (d :: tail)).isEmpty = false := by
    cases negative <;> rfl
  unfold meaning
  simp only [hs, hnull, hbool, hz, hne, Bool.or_self, Bool.false_eq_true, ↓reduceIte]
  cases integerMeaning? (signed negative (d :: tail)) with
  | some m => rfl
  | none => cases floatMeaning? (signed negative (d :: tail)) <;> rfl

theorem meaning_int (n : Int) (hlow : -2 ^ 63 ≤ n) (hhigh : n < 2 ^ 64) : meaning (toString n) = .int n := by
  have hds : ∀ d ∈ Nat.toDigits 10 n.natAbs, d.isDigit = true :=
    fun d hd => Nat.isDigit_of_mem_toDigits (by decide) (by decide) hd
  have hs := toList_toString_int n
  have hvalue : readRadix? 10 (Nat.toDigits 10 n.natAbs) = some n.natAbs := by
    rw [readRadix_digits _ Nat.toDigits_ne_nil hds, digitsValue_toDigits]
  have hhead : (Nat.toDigits 10 n.natAbs).head? = some '0' → n.natAbs = 0 := by
    intro h
    by_contra hne
    exact toDigits_head_ne_zero _ (by omega) h
  cases hd : Nat.toDigits 10 n.natAbs with
  | nil => exact absurd hd Nat.toDigits_ne_nil
  | cons d tail =>
    rw [hd] at hds hs hvalue hhead
    have hz : isZeroPadded (signed (decide (n < 0)) (d :: tail)) = false := by
      refine not_zeroPadded _ d tail (hds d (by simp)) ?_
      rintro rfl hne
      rw [hhead rfl] at hd
      cases hd
      exact absurd rfl hne
    have htail : ∀ c ∈ tail, isNumberChar c = true := fun c hc => isNumberChar_of_digit c (hds c (by simp [hc]))
    rw [meaning_signed _ _ d tail hs (hds d (by simp)) hz,
      integerMeaning_signed _ d tail (hds d (by simp)) htail hz, hvalue]
    by_cases hneg : n < 0
    · have hle : n.natAbs ≤ 2 ^ 63 := by omega
      simp only [hneg, decide_true, ↓reduceIte, hle, Option.getD_some, Meaning.int.injEq]
      omega
    · have hlt : n.natAbs < 2 ^ 64 := by omega
      simp only [hneg, decide_false, Bool.false_eq_true, ↓reduceIte, hlt, Option.getD_some, Meaning.int.injEq]
      omega

theorem ofList_ne (cs : List Char) (word : String) (h : cs ≠ word.toList) : String.ofList cs ≠ word := by
  rintro rfl
  simp at h

/-- A text that starts with a sign or a digit is none of the words for infinity and NaN. -/
theorem floatMeaning_signed (negative : Bool) (d : Char) (tail : List Char) (hd : d.isDigit = true)
    (x : Binary64) (hx : readDecimal? (signed negative (d :: tail)) = some x) (m : Nat) (q : Int)
    (hk : x.kind = .finite negative m q) : floatMeaning? (signed negative (d :: tail)) = some x := by
  have hp : d ≠ '+' := by
    rintro rfl
    exact absurd hd (by decide)
  have hpoint : d ≠ '.' := by
    rintro rfl
    exact absurd hd (by decide)
  have hword : ∀ w : String, w.toList.head? = some '.' → String.ofList (signed negative (d :: tail)) ≠ w := by
    intro w hw
    refine ofList_ne _ w fun h => ?_
    rw [← h] at hw
    cases negative <;> simp [signed, hpoint] at hw
  have hminus : ∀ w : String, w.toList.take 2 = ['-', '.'] →
      String.ofList (signed negative (d :: tail)) ≠ w := by
    intro w hw
    refine ofList_ne _ w fun h => ?_
    rw [← h] at hw
    cases negative with
    | true => simp [signed, hpoint] at hw
    | false =>
      cases tail with
      | nil => simp [signed] at hw
      | cons c rest =>
        simp only [signed, Bool.false_eq_true, ↓reduceIte, List.take_succ_cons, List.take_zero,
          List.cons.injEq, and_true] at hw
        rw [hw.1] at hd
        exact absurd hd (by decide)
  cases negative with
  | true =>
    simp only [signed, ↓reduceIte] at hword hminus hx ⊢
    simp [floatMeaning?, -String.ofList_cons, hword ".inf" rfl, hword ".Inf" rfl, hword ".INF" rfl, hminus "-.inf" rfl,
      hminus "-.Inf" rfl, hminus "-.INF" rfl, hword ".nan" rfl, hword ".NaN" rfl, hword ".NAN" rfl, hx, hk]
  | false =>
    simp only [signed, Bool.false_eq_true, ↓reduceIte] at hword hminus hx ⊢
    simp [floatMeaning?, -String.ofList_cons, hp, hword ".inf" rfl, hword ".Inf" rfl, hword ".INF" rfl, hminus "-.inf" rfl,
      hminus "-.Inf" rfl, hminus "-.INF" rfl, hword ".nan" rfl, hword ".NaN" rfl, hword ".NAN" rfl, hx, hk]

/-- The text of a finite number is read as the number, in every layout that tells it from an integer. -/
theorem meaning_float (l : Layout) (hl : l.pointZero = true) (x : Binary64) (negative : Bool) (m : Nat) (q : Int)
    (h : x.kind = .finite negative m q) : meaning (l.write x) = .float x := by
  have hs := l.write_finite x negative m q h
  have hread := readDecimal_write l hl x negative m q h
  obtain ⟨d, tail, hbody, hd, htail, mark, hmem, hmark⟩ :=
    l.isFractionText_body hl (if m = 0 then (⟨0, 0⟩ : Scientific) else Scientific.shortest m q)
  rw [hbody] at hs
  rw [hs] at hread
  have hnot : mark.isDigit = false := by
    simp only [isFractionMark, Bool.or_eq_true, decide_eq_true_eq] at hmark
    rcases hmark with rfl | rfl <;> decide
  have hz : isZeroPadded (signed negative (d :: tail)) = false := by
    refine not_zeroPadded _ d tail hd fun _ _ => ?_
    rw [Bool.eq_false_iff]
    intro hall
    rw [List.all_eq_true.mp hall mark hmem] at hnot
    cases hnot
  rw [meaning_signed _ _ d tail hs hd hz, integerMeaning_signed _ d tail hd htail hz,
    readRadix_none (d :: tail) mark (by simp [hmem]) hnot,
    floatMeaning_signed negative d tail hd x hread m q h]
  rfl

structure IsWord (w : List Char) : Prop where
  wordy : ∀ c ∈ w, isWordy c = true
  starts : startsWord w = true

theorem isWordy_of_numberChar (c : Char) (h : isNumberChar c = true) : isWordy c = true := by
  have hne : ∀ x : Char, isNumberChar x = false → c ≠ x := by
    rintro x hx rfl
    rw [hx] at h
    cases h
  simp [isWordy, isSpaceOrTab, isBreak, isFlowEnd, hne ' ' rfl, hne '\t' rfl, hne '\r' rfl, hne '\n' rfl,
    hne '\u0085' rfl, hne '\u2028' rfl, hne '\u2029' rfl, hne ',' rfl, hne '[' rfl, hne ']' rfl,
    hne '\x7b' rfl, hne '\x7d' rfl, hne ':' rfl, hne '#' rfl]

def IsNumberText (w : List Char) : Prop :=
  ∃ negative d tail, w = signed negative (d :: tail) ∧ d.isDigit = true ∧ ∀ c ∈ tail, isNumberChar c = true

theorem isNumberText_int (n : Int) : IsNumberText (toString n).toList := by
  have hds : ∀ d ∈ Nat.toDigits 10 n.natAbs, d.isDigit = true :=
    fun d hd => Nat.isDigit_of_mem_toDigits (by decide) (by decide) hd
  rw [toList_toString_int]
  cases hd : Nat.toDigits 10 n.natAbs with
  | nil => exact absurd hd Nat.toDigits_ne_nil
  | cons d tail =>
    rw [hd] at hds
    exact ⟨_, d, tail, rfl, hds d (by simp), fun c hc => isNumberChar_of_digit c (hds c (by simp [hc]))⟩

theorem isNumberText_float (l : Layout) (hl : l.pointZero = true) (x : Binary64) (negative : Bool) (m : Nat)
    (q : Int) (h : x.kind = .finite negative m q) : IsNumberText (l.write x).toList := by
  obtain ⟨d, tail, hbody, hd, htail, -⟩ :=
    l.isFractionText_body hl (if m = 0 then (⟨0, 0⟩ : Scientific) else Scientific.shortest m q)
  rw [l.write_finite x negative m q h, hbody]
  exact ⟨negative, d, tail, rfl, hd, htail⟩

theorem IsNumberText.chars {w : List Char} (h : IsNumberText w) : ∀ c ∈ w, isNumberChar c = true := by
  obtain ⟨negative, d, tail, rfl, hd, htail⟩ := h
  intro c hc
  cases negative with
  | true =>
    rcases List.mem_cons.mp hc with rfl | hc
    · rfl
    · rcases List.mem_cons.mp hc with rfl | hc
      · exact isNumberChar_of_digit c hd
      · exact htail c hc
  | false =>
    rcases List.mem_cons.mp hc with rfl | hc
    · exact isNumberChar_of_digit c hd
    · exact htail c hc

theorem IsNumberText.isWord {w : List Char} (h : IsNumberText w) : IsWord w := by
  refine ⟨fun c hc => isWordy_of_numberChar c (h.chars c hc), ?_⟩
  obtain ⟨negative, d, tail, rfl, hd, -⟩ := h
  cases negative with
  | true => simp [signed, startsWord, hd]
  | false =>
    have hminus : d ≠ '-' := by
      rintro rfl
      exact absurd hd (by decide)
    have halnum : d.isAlphanum = true := by simp [Char.isAlphanum, hd]
    cases tail <;> simp [signed, startsWord, hminus, halnum]

end CiWorkflow.Yaml
