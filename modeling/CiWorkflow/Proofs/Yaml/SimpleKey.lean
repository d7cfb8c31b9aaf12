import CiWorkflow.Proofs.Yaml.Atoms
import CiWorkflow.Proofs.Yaml.Markers

set_option autoImplicit false

namespace CiWorkflow.Yaml

open Value Render

/-! ## How long texts become -/

theorem length_flatMap_le {f : Char → List Char} {b : Nat} (h : ∀ c, (f c).length ≤ b * c.utf8Size) (cs : List Char) :
    (cs.flatMap f).length ≤ b * (String.ofList cs).utf8ByteSize := by
  induction cs with
  | nil => simp
  | cons c cs ih =>
    have hsize : (String.ofList (c :: cs)).utf8ByteSize = c.utf8Size + (String.ofList cs).utf8ByteSize := by
      rw [← List.singleton_append, String.ofList_append, String.utf8ByteSize_append]
      exact congrArg (· + _) String.utf8ByteSize_singleton
    rw [List.flatMap_cons, List.length_append, hsize, Nat.mul_add]
    exact Nat.add_le_add (h c) ih

/-- Characters past the first 128 take two bytes, those past the first 65536 three or more. -/
theorem utf8Size_of_lt {c : Char} : (0x7F < c.toNat → 2 ≤ c.utf8Size) ∧ (0xFFFF < c.toNat → 3 ≤ c.utf8Size) := by
  have hnat : c.val.toNat = c.toNat := rfl
  obtain h | h | h | h := c.utf8Size_eq
  · have hle := UInt32.le_iff_toNat_le.mp (Char.utf8Size_eq_one_iff.mp h)
    have hbound : (127 : UInt32).toNat = 127 := rfl
    constructor <;> intro hlt <;> omega
  · have hle := UInt32.le_iff_toNat_le.mp (Char.utf8Size_eq_two_iff.mp h).2
    have hbound : (0x7ff : UInt32).toNat = 0x7ff := rfl
    constructor <;> intro hlt <;> omega
  · exact ⟨fun _ => by omega, fun _ => by omega⟩
  · exact ⟨fun _ => by omega, fun _ => by omega⟩

theorem length_escape_le (c : Char) : (escape c).length ≤ 4 * c.utf8Size := by
  have hpos := c.utf8Size_pos
  unfold escape
  split
  · simp only [List.length_singleton]
    omega
  · split
    · simp only [List.length_cons, List.length_nil]
      omega
    · simp only
      split
      · simp only [List.length_cons, length_hexDigits]
        omega
      · have hwide : 2 ≤ c.utf8Size := utf8Size_of_lt.1 (by omega)
        split
        · simp only [List.length_cons, length_hexDigits]
          omega
        · have hwider : 3 ≤ c.utf8Size := utf8Size_of_lt.2 (by omega)
          simp only [List.length_cons, length_hexDigits]
          omega

theorem length_doubleApostrophes_le (cs : List Char) :
    (doubleApostrophes cs).length ≤ 4 * (String.ofList cs).utf8ByteSize := by
  refine length_flatMap_le (fun c => ?_) cs
  have hpos := c.utf8Size_pos
  split
  · simp only [List.length_cons, List.length_nil]
    omega
  · simp only [List.length_singleton]
    omega

theorem length_escapeTag_le (cs : List Char) : (escapeTag cs).length ≤ 4 * (String.ofList cs).utf8ByteSize := by
  refine length_flatMap_le (fun c => ?_) cs
  have hpos := c.utf8Size_pos
  split
  · simp only [List.length_singleton]
    omega
  · have hbytes : ∀ bs : List UInt8, (bs.flatMap fun b => '%' :: hexDigits 2 b.toNat).length = 3 * bs.length := by
      intro bs
      induction bs with
      | nil => rfl
      | cons b bs ih =>
        rw [List.flatMap_cons, List.length_append, ih, List.length_cons, length_hexDigits, List.length_cons]
        omega
    have hsize : (String.singleton c).toUTF8.toList.length = c.utf8Size := by
      simp [toList_byteArray, List.utf8Encode_singleton]
    rw [hbytes, hsize]
    omega

theorem length_tagText_le (tag : String) :
    (tagText tag).length ≤ 4 * (String.ofList (fullTag tag)).utf8ByteSize + 3 := by
  obtain ⟨cs, hcs⟩ : ∃ cs, fullTag tag = '!' :: cs := ⟨_, rfl⟩
  have hsize : (String.ofList ('!' :: cs)).utf8ByteSize = 1 + (String.ofList cs).utf8ByteSize := by
    rw [← List.singleton_append, String.ofList_append, String.utf8ByteSize_append]
    rfl
  have hescaped := length_escapeTag_le cs
  unfold tagText
  rw [hcs, hsize]
  split
  · have hmark : (escapeTag ['!']).length = 3 := by decide +kernel
    simp only [List.length_append, List.length_cons, List.length_nil, hmark]
    omega
  · simp only [List.drop_succ_cons, List.drop_zero, List.length_cons]
    omega

section Texts

variable {s : String} (hbreak : ∀ c ∈ s.toList, isBreak c = false)

include hbreak

theorem isBreak_of_mem_scalarText {w : Nat} {c : Char} (h : c ∈ scalarText w s) : isBreak c = false := by
  have hstyle := style_ne_literal hbreak
  unfold scalarText at h
  cases hs : style s with
  | plain =>
    rw [hs] at h
    exact hbreak c h
  | single =>
    rw [hs] at h
    simp only [singleQuoted_line hbreak, List.mem_cons, List.mem_append, List.not_mem_nil, or_false] at h
    obtain rfl | h | rfl := h
    · rfl
    · exact hbreak c (mem_doubleApostrophes h)
    · rfl
  | double =>
    rw [hs] at h
    simp only [doubleQuoted, List.cons_append, List.mem_cons, List.mem_append, List.not_mem_nil, or_false] at h
    obtain rfl | h | rfl := h
    · rfl
    · obtain ⟨d, hd, hc⟩ := List.mem_flatMap.mp h
      exact not_break_of_spells _ _ (spells_yamlEscape d) c hc
    · rfl
  | literal => exact absurd hs hstyle

theorem length_scalarText_le (w : Nat) : (scalarText w s).length ≤ 4 * s.utf8ByteSize + 2 := by
  have hstyle := style_ne_literal hbreak
  have hsize : (String.ofList s.toList).utf8ByteSize = s.utf8ByteSize := by rw [String.ofList_toList]
  unfold scalarText
  cases hs : style s with
  | plain =>
    have hone := length_flatMap_le (f := fun c => [c]) (b := 4)
      (fun c => by have := c.utf8Size_pos; simp only [List.length_singleton]; omega) s.toList
    rw [List.flatMap_singleton', hsize] at hone
    exact hone.trans (Nat.le_add_right _ _)
  | single =>
    have hdoubled := length_doubleApostrophes_le s.toList
    simp only [singleQuoted_line hbreak, List.length_cons, List.length_append, List.length_nil]
    omega
  | double =>
    have hescaped := length_flatMap_le length_escape_le s.toList
    simp only [doubleQuoted, List.length_cons, List.length_append, List.length_nil]
    omega
  | literal => exact absurd hs hstyle

end Texts

/-! ## Keys -/

theorem keySize_eq (tag : Option String) (v : Value) :
    keySize tag v = keySize tag (.sequence []) + keySize none v := by
  cases tag <;> simp [keySize]

theorem length_tagLead_le (tag : Option String) : (tagLead tag).length ≤ 4 * keySize tag (.sequence []) + 4 := by
  cases tag with
  | none => simp [tagLead]
  | some t =>
    have hlength := length_tagText_le t
    simpa [tagLead, keySize] using hlength

/-- What is written of a value on one line has no line ends, and no more than four characters for one byte. -/
theorem atomText_line {v : Value} {A : List Char} (hA : atomText? 0 v = some A)
    (hs : ∀ s, v = .string s → ∀ c ∈ s.toList, isBreak c = false) :
    (∀ c ∈ A, isBreak c = false) ∧ A.length ≤ 4 * keySize none v + 2 := by
  have hword (h : keySize none v = ((atomText? 0 v).getD []).length) : A.length ≤ 4 * keySize none v + 2 := by
    rw [hA, Option.getD_some] at h
    omega
  cases v with
  | null =>
    have hlength := hword (by simp [keySize])
    cases hA
    exact ⟨Text.forall_mem_of_all (by decide), hlength⟩
  | bool b =>
    have hlength := hword (by simp [keySize])
    cases hA
    exact ⟨by cases b <;> exact Text.forall_mem_of_all (by decide), hlength⟩
  | int n =>
    have hlength := hword (by simp [keySize])
    cases hA
    exact ⟨(isPlain_of_isNumberText (isNumberText_int n)).oneLine, hlength⟩
  | float x =>
    have hlength := hword (by simp [keySize])
    cases hA
    exact ⟨(isPlain_float x).oneLine, hlength⟩
  | string s =>
    cases hA
    have hbreak := hs s rfl
    refine ⟨fun c hc => isBreak_of_mem_scalarText hbreak hc, ?_⟩
    simpa [keySize] using length_scalarText_le hbreak 0
  | sequence items =>
    cases items with
    | nil =>
      cases hA
      exact ⟨Text.forall_mem_of_all (by decide), by simp [keySize]⟩
    | cons v rest => cases hA
  | mapping entries =>
    cases entries with
    | nil =>
      cases hA
      exact ⟨Text.forall_mem_of_all (by decide), by simp [keySize]⟩
    | cons e rest => cases hA
  | tagged t v => cases hA

theorem simpleKey_spec {k : Value} {key : List Char} (h : simpleKey? k = some key) :
    ∃ A, atomText? 0 (untag k).2 = some A ∧ key = tagLead (untag k).1 ++ A ∧
      keySize (untag k).1 (untag k).2 ≤ 128 ∧
      ∀ s, (untag k).2 = .string s → ∀ c ∈ s.toList, isBreak c = false := by
  unfold simpleKey? at h
  generalize untag k = r at h ⊢
  obtain ⟨tag, v⟩ := r
  dsimp only at h ⊢
  cases hA : atomText? 0 v with
  | none => simp [hA] at h
  | some A =>
    rw [hA] at h
    dsimp only at h
    rw [Option.ite_none_left_eq_some] at h
    obtain ⟨hfits, hkey⟩ := h
    simp only [Bool.or_eq_true, decide_eq_true_eq, not_or, Nat.not_lt] at hfits
    refine ⟨A, rfl, ?_, hfits.2, ?_⟩
    · cases tag with
      | none => exact (Option.some.inj hkey).symm
      | some t =>
        rw [← Option.some.inj hkey]
        simp [tagLead]
    · rintro s rfl c hc
      simpa using fun hb => hfits.1 (List.any_eq_true.mpr ⟨c, hc, hb⟩)

theorem isBreak_of_mem_simpleKey {k : Value} {key : List Char} (h : simpleKey? k = some key) :
    ∀ c ∈ key, isBreak c = false := by
  obtain ⟨A, hA, rfl, -, hs⟩ := simpleKey_spec h
  exact isBreak_of_mem_taggedLine _ (atomText_line hA hs).1

/-- A key on the line of its value: the text behind its tag, which has no line ends, and what it stands for. -/
theorem exists_simpleKey {k : Value} {key : List Char} (h : simpleKey? k = some key) (hk : k.inRange = true) :
    ∃ A us, key = tagLead (untag k).1 ++ A ∧ IsAtomText A us ∧ Means us (untag k).2.withOneNan ∧
      (∀ c ∈ A, isBreak c = false) ∧ (tagLead (untag k).1 ++ A).length ≤ 1024 := by
  have hv : (untag k).2.inRange = true := by
    cases k <;> exact hk
  obtain ⟨A, hA, rfl, hsize, hs⟩ := simpleKey_spec h
  obtain ⟨us, hatom, hmeans⟩ := exists_atom hA hv fun s hv => by
    have hbreak := hs s hv
    refine ⟨style_ne_literal hbreak, fun hany => ?_⟩
    obtain ⟨c, hc, hb⟩ := List.any_eq_true.mp hany
    rw [hbreak c hc] at hb
    cases hb
  obtain ⟨hbreak, hlength⟩ := atomText_line hA hs
  have hlead := length_tagLead_le (untag k).1
  rw [keySize_eq] at hsize
  exact ⟨A, us, rfl, hatom, hmeans, hbreak, by rw [List.length_append]; omega⟩

end CiWorkflow.Yaml
