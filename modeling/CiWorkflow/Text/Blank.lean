set_option autoImplicit false

namespace CiWorkflow.Text

def isBlank (c : Char) : Bool :=
  let n := c.toNat
  (0x09 ≤ n && n ≤ 0x0D) || n = 0x20 || n = 0x85 || n = 0xA0 || n = 0x1680 ||
    (0x2000 ≤ n && n ≤ 0x200A) || n = 0x2028 || n = 0x2029 || n = 0x202F || n = 0x205F || n = 0x3000

def isControl (c : Char) : Bool :=
  c.toNat ≤ 0x1F || (0x7F ≤ c.toNat && c.toNat ≤ 0x9F)

theorem not_blank_of_isDigit {c : Char} (h : c.isDigit = true) : isBlank c = false := by
  simp only [Char.isDigit, Bool.and_eq_true, decide_eq_true_eq, UInt32.le_iff_toNat_le] at h
  obtain ⟨hlow, hhigh⟩ : 48 ≤ c.toNat ∧ c.toNat ≤ 57 := h
  simp only [isBlank, Bool.or_eq_false_iff, Bool.and_eq_false_iff, decide_eq_false_iff_not]
  omega

def dropEndWhile (p : Char → Bool) (cs : List Char) : List Char :=
  (cs.reverse.dropWhile p).reverse

def trimStart (cs : List Char) : List Char := cs.dropWhile isBlank
def trimEnd (cs : List Char) : List Char := dropEndWhile isBlank cs
def trim (cs : List Char) : List Char := trimEnd (trimStart cs)

theorem dropWhile_eq_self {p : Char → Bool} {cs : List Char} (h : ¬ cs.head?.any p = true) :
    cs.dropWhile p = cs := by
  cases cs with
  | nil => rfl
  | cons c rest => simp_all [List.dropWhile]

theorem head?_dropWhile (p : Char → Bool) (cs : List Char) : ¬ (cs.dropWhile p).head?.any p = true := by
  induction cs with
  | nil => simp
  | cons c rest ih =>
    rw [List.dropWhile]
    split
    · exact ih
    · simp_all

theorem isSuffix_trimStart (cs : List Char) : trimStart cs <:+ cs := List.dropWhile_suffix _

theorem isPrefix_dropEndWhile (p : Char → Bool) (cs : List Char) : dropEndWhile p cs <+: cs := by
  have h := List.reverse_prefix.mpr (List.dropWhile_suffix p (l := cs.reverse))
  simpa [dropEndWhile] using h

theorem isInfix_trim (cs : List Char) : trim cs <:+: cs :=
  ((isPrefix_dropEndWhile _ _).isInfix).trans (isSuffix_trimStart cs).isInfix

/-- Cutting the end of a text that starts with another character than a blank leaves the start. -/
theorem head?_trim (cs : List Char) : ¬ (trim cs).head?.any isBlank = true := by
  have hp := isPrefix_dropEndWhile isBlank (trimStart cs)
  have hh := head?_dropWhile isBlank cs
  rw [trim, trimEnd]
  obtain ⟨t, ht⟩ := hp
  cases hd : dropEndWhile isBlank (trimStart cs) with
  | nil => simp
  | cons c rest =>
    rw [hd] at ht
    rw [trimStart] at ht
    rw [← ht] at hh
    simpa using hh

theorem getLast?_trim (cs : List Char) : ¬ (trim cs).getLast?.any isBlank = true := by
  have h := head?_dropWhile isBlank (trimStart cs).reverse
  simpa [trim, trimEnd, dropEndWhile, List.getLast?_reverse] using h

theorem dropEndWhile_eq_self {p : Char → Bool} {cs : List Char} (h : ¬ cs.getLast?.any p = true) :
    dropEndWhile p cs = cs := by
  rw [dropEndWhile, dropWhile_eq_self (by simpa using h), List.reverse_reverse]

theorem trim_eq_self {cs : List Char} (hs : ¬ cs.head?.any isBlank = true)
    (he : ¬ cs.getLast?.any isBlank = true) : trim cs = cs := by
  rw [trim, trimStart, dropWhile_eq_self hs, trimEnd, dropEndWhile_eq_self he]

theorem trim_trim (cs : List Char) : trim (trim cs) = trim cs :=
  trim_eq_self (head?_trim cs) (getLast?_trim cs)

def isBlankText (s : String) : Bool := s.toList.all isBlank

end CiWorkflow.Text
