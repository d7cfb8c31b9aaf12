import CiWorkflow.Proofs.Decimal.Shortest
import CiWorkflow.Proofs.Text.Every
import CiWorkflow.Decimal.Layout
import CiWorkflow.Decimal.Read

set_option autoImplicit false

namespace CiWorkflow.Decimal

open Binary64 Scientific

namespace Binary64

theorem eq_of_kind (x : Binary64) (negative : Bool) (m : Nat) (q : Int) (h : x.kind = .finite negative m q) :
    x = ofMagnitude negative ((q + 1074).toNat * 2 ^ 52 + m) ∧ (m = 0 ∧ q = -1074 ∨ IsNormal m q) := by
  have hbits : x.bits.toNat < 2 ^ 64 := x.bits.toNat_lt
  have hsign : x.bits.toNat = x.magnitude + if x.isNegative then 2 ^ 63 else 0 := by
    unfold magnitude isNegative
    simp only [Nat.pow_eq]
    split <;> rename_i hn
    · have := of_decide_eq_true hn
      omega
    · have : ¬ 2 ^ 63 ≤ x.bits.toNat := fun hle => hn (decide_eq_true hle)
      omega
  have heq : ∀ n, n = x.magnitude → x = ofMagnitude x.isNegative n := by
    rintro n rfl
    unfold ofMagnitude
    simp only [Nat.pow_eq]
    rw [← hsign]
    cases x
    simp
  have hmag : x.magnitude < 2 ^ 63 := Nat.mod_lt _ (by decide)
  unfold kind at h
  simp only [Nat.pow_eq] at h
  split at h
  · split at h <;> cases h
  · split at h
    · rename_i hfield
      cases h
      refine ⟨heq _ (by omega), ?_⟩
      rcases Nat.eq_zero_or_pos (x.magnitude % 2 ^ 52) with hz | hz
      · exact .inl ⟨hz, rfl⟩
      · exact .inr ⟨hz, by omega, by omega, by omega, .inr rfl⟩
    · rename_i hnot hfield
      cases h
      exact ⟨heq _ (by omega), .inr ⟨by omega, by omega, by omega, by omega, .inl (by omega)⟩⟩

theorem Owns.pos {m : Nat} {q : Int} {v : ℚ} (h : Owns m q v) (hm : 0 < m) : 0 < v := by
  have hp : (0 : ℚ) < 2 ^ q := by positivity
  have hm' : (1 : ℚ) ≤ m := by exact_mod_cast hm
  have := h.half.1
  nlinarith

theorem ten_zpow_lt (a b : Int) (h : (10 : ℚ) ^ a < 10 ^ b) : a < b :=
  (zpow_lt_zpow_iff_right₀ (by norm_num)).mp h

/-- Digits and a power of ten whose value lies in the interval of a number are read as it. -/
theorem ofDecimal_of_owns (negative : Bool) (n m : Nat) (x q : Int) (hm : IsNormal m q)
    (h : Owns m q (n * 10 ^ x)) :
    ofDecimal negative n x = ofMagnitude negative ((q + 1074).toNat * 2 ^ 52 + m) := by
  have hpos := h.pos hm.pos
  have hten : (0 : ℚ) < 10 ^ x := by positivity
  have hn : 0 < n := by
    have : (0 : ℚ) < n := (mul_pos_iff_of_pos_right hten).mp hpos
    exact_mod_cast this
  have hp : (0 : ℚ) < 2 ^ q := by positivity
  have hmlt : (m : ℚ) + 1 ≤ 2 ^ 53 := by exact_mod_cast hm.lt
  have hmpos : (1 : ℚ) ≤ m := by exact_mod_cast hm.pos
  set size : Nat := (Nat.toDigits 10 n).length with hsize
  have hsizepos : 0 < size := Nat.length_toDigits_pos
  have hlow : (10 : ℚ) ^ ((size : Int) - 1 + x) ≤ n * 10 ^ x := by
    rw [zpow_add₀ (by norm_num), show (size : Int) - 1 = ((size - 1 : Nat) : Int) by omega, zpow_natCast]
    have : ((10 ^ (size - 1) : Nat) : ℚ) ≤ n := by exact_mod_cast pow_length_toDigits_le n hn
    push_cast at this
    gcongr
  have hhigh : (n : ℚ) * 10 ^ x < 10 ^ ((size : Int) + x) := by
    rw [zpow_add₀ (by norm_num), zpow_natCast]
    have : (n : ℚ) < ((10 ^ size : Nat) : ℚ) := by exact_mod_cast lt_pow_length_toDigits n
    push_cast at this
    gcongr
  have hmost : (size : Int) + x ≤ 310 := by
    have htop : (2 : ℚ) ^ q ≤ 2 ^ (971 : Int) := zpow_le_zpow_right₀ (by norm_num) hm.most
    have hbound : (2 : ℚ) ^ 53 * 2 ^ (971 : Int) < 10 ^ (310 : Int) := by
      have : (2 : ℕ) ^ 53 * 2 ^ 971 < 10 ^ 310 := by decide +kernel
      exact_mod_cast this
    have hlt : (10 : ℚ) ^ ((size : Int) - 1 + x) < 10 ^ (310 : Int) := by
      calc (10 : ℚ) ^ ((size : Int) - 1 + x) ≤ n * 10 ^ x := hlow
        _ ≤ (m + 1 / 2) * 2 ^ q := h.high
        _ ≤ 2 ^ 53 * 2 ^ (971 : Int) := by gcongr; linarith
        _ < 10 ^ (310 : Int) := hbound
    have := ten_zpow_lt _ _ hlt
    omega
  have hleast : -330 ≤ (size : Int) + x := by
    have htop : (2 : ℚ) ^ (-1074 : Int) ≤ 2 ^ q := zpow_le_zpow_right₀ (by norm_num) hm.least
    have hbound : (10 : ℚ) ^ (-330 : Int) < 1 / 2 * 2 ^ (-1074 : Int) := by
      have hnat : (2 : ℕ) ^ 1075 < 10 ^ 330 := by decide +kernel
      have hcast : (2 : ℚ) ^ 1075 < 10 ^ 330 := by exact_mod_cast hnat
      rw [zpow_neg, zpow_neg, show (330 : Int) = ((330 : Nat) : Int) by norm_num,
        show (1074 : Int) = ((1074 : Nat) : Int) by norm_num, zpow_natCast, zpow_natCast, one_div, ← mul_inv,
        ← pow_succ']
      exact inv_strictAnti₀ (by positivity) hcast
    have hlt : (10 : ℚ) ^ (-330 : Int) < 10 ^ ((size : Int) + x) := by
      have := h.half.1
      nlinarith
    exact (ten_zpow_lt _ _ hlt).le
  have hratio : ∀ a b : Nat, 0 < a → 0 < b → (a : ℚ) / b = n * 10 ^ x →
      ofRatio negative a b = ofMagnitude negative ((q + 1074).toNat * 2 ^ 52 + m) := by
    intro a b ha hb hab
    exact ofRatio_of_owns negative a b m q ha hb hm (hab ▸ h)
  unfold ofDecimal
  simp only [← hsize]
  rw [if_neg hn.ne', if_neg (by omega), if_neg (by omega)]
  split
  · rename_i hx
    obtain ⟨k, rfl⟩ := Int.eq_ofNat_of_zero_le hx
    exact hratio _ 1 (Nat.mul_pos hn (Nat.pow_pos (by decide))) Nat.one_pos (by simp)
  · rename_i hx
    obtain ⟨k, hk⟩ := Int.eq_ofNat_of_zero_le (by omega : 0 ≤ -x)
    obtain rfl : x = -(k : Int) := by omega
    refine hratio n _ hn (Nat.pow_pos (by decide)) ?_
    simp [div_eq_mul_inv]

end Binary64

theorem digitsValue_eq (ds : List Char) : digitsValue ds = Nat.ofDigitChars 10 ds 0 := rfl

@[simp] theorem digitsValue_toDigits (n : Nat) : digitsValue (Nat.toDigits 10 n) = n :=
  Nat.ofDigitChars_ten_toDigits

theorem digitsValue_append (a b : List Char) :
    digitsValue (a ++ b) = 10 ^ b.length * digitsValue a + digitsValue b := by
  rw [digitsValue_eq, Nat.ofDigitChars_append, Nat.ofDigitChars_eq_ofDigitChars_zero]
  rfl

@[simp] theorem digitsValue_padZeros (n : Nat) : digitsValue (padZeros n) = 0 := by
  rw [digitsValue_eq, padZeros, Nat.ofDigitChars_replicate_zero, Nat.mul_zero]

theorem isDigit_of_mem_padZeros (n : Nat) : ∀ d ∈ padZeros n, d.isDigit = true := by
  intro d hd
  rw [List.eq_of_mem_replicate hd]
  rfl

theorem spanDigits_append (ds rest : List Char) (hds : ∀ d ∈ ds, d.isDigit = true)
    (hrest : rest.head?.any Char.isDigit = false) : spanDigits (ds ++ rest) = (ds, rest) := by
  induction ds with
  | nil =>
    cases rest with
    | nil => rfl
    | cons c others =>
      have hc : c.isDigit = false := hrest
      simp [spanDigits, hc]
  | cons d others ih =>
    have hd := hds d (by simp)
    have ih := ih fun x hx => hds x (by simp [hx])
    simp only [spanDigits, Prod.mk.injEq] at ih
    simp [spanDigits, hd, ih]

theorem readMantissa_point (whole fraction rest : List Char) (hne : whole ≠ [])
    (hw : ∀ d ∈ whole, d.isDigit = true) (hf : ∀ d ∈ fraction, d.isDigit = true)
    (hrest : rest.head?.any Char.isDigit = false) :
    readMantissa? (whole ++ '.' :: (fraction ++ rest)) = some (whole ++ fraction, fraction.length, rest) := by
  unfold readMantissa?
  rw [spanDigits_append whole _ hw rfl]
  simp only
  rw [spanDigits_append fraction rest hf hrest]
  simp [hne]

theorem readMantissa_whole (whole rest : List Char) (hne : whole ≠ [])
    (hw : ∀ d ∈ whole, d.isDigit = true) (hrest : rest.head?.any Char.isDigit = false)
    (hpoint : rest.head? ≠ some '.') : readMantissa? (whole ++ rest) = some (whole, 0, rest) := by
  unfold readMantissa?
  rw [spanDigits_append whole rest hw hrest]
  cases rest with
  | nil => simp [hne]
  | cons c others =>
    have hc : c ≠ '.' := fun h => hpoint (by rw [h]; rfl)
    simp [hne, hc]

theorem takeSign_digit (d : Char) (rest : List Char) (h : d.isDigit = true) :
    takeSign (d :: rest) = (false, d :: rest) := by
  unfold takeSign
  split
  · rename_i heq
    cases heq
    exact absurd h (by decide)
  · rename_i heq
    cases heq
    exact absurd h (by decide)
  · rfl

def signed (negative : Bool) (body : List Char) : List Char := if negative then '-' :: body else body

theorem toList_toString_int (n : Int) :
    (toString n).toList = signed (decide (n < 0)) (Nat.toDigits 10 n.natAbs) := by
  cases n with
  | ofNat k =>
    change (toString k).toList = _
    simp [signed]
  | negSucc k =>
    change ("-" ++ toString (k + 1)).toList = _
    simp [signed, Int.negSucc_lt_zero]

theorem mem_toString_int {n : Int} {c : Char} (h : c ∈ (toString n).toList) : c = '-' ∨ c.isDigit = true := by
  have hdigit : c ∈ Nat.toDigits 10 n.natAbs → c.isDigit = true :=
    fun hc => Nat.isDigit_of_mem_toDigits (by decide) (by decide) hc
  rw [toList_toString_int, signed] at h
  split at h
  · exact (List.mem_cons.mp h).imp_right hdigit
  · exact .inr (hdigit h)

theorem takeSign_signed (negative : Bool) (d : Char) (rest : List Char) (h : d.isDigit = true) :
    takeSign (signed negative (d :: rest)) = (negative, d :: rest) := by
  cases negative with
  | false => exact takeSign_digit d rest h
  | true => rfl

theorem readDecimal_of_parts (negative : Bool) (body ds rest : List Char) (places : Nat) (x : Int)
    (hd : body.head?.any Char.isDigit = true) (hm : readMantissa? body = some (ds, places, rest))
    (hx : readExponent? rest = some x) :
    readDecimal? (signed negative body) = some (ofDecimal negative (digitsValue ds) (x - places)) := by
  cases body with
  | nil => simp at hd
  | cons d others =>
    unfold readDecimal?
    rw [takeSign_signed negative d others hd]
    simp [hm, hx]

theorem head_isDigit (ds rest : List Char) (hne : ds ≠ []) (hds : ∀ d ∈ ds, d.isDigit = true) :
    (ds ++ rest).head?.any Char.isDigit = true := by
  cases ds with
  | nil => exact absurd rfl hne
  | cons d others => exact hds d (by simp)

theorem read_positionalText (negative : Bool) (ds : List Char) (e : Int) (hne : ds ≠ [])
    (hds : ∀ d ∈ ds, d.isDigit = true) :
    ∃ (n : Nat) (x : Int), readDecimal? (signed negative (positionalText true ds e)) =
        some (ofDecimal negative n x) ∧ (n : ℚ) * 10 ^ x = digitsValue ds * 10 ^ e := by
  unfold positionalText
  simp only [↓reduceIte]
  split
  · rename_i he
    obtain ⟨k, rfl⟩ := Int.eq_ofNat_of_zero_le he
    have hw : ∀ d ∈ ds ++ padZeros k, d.isDigit = true := by
      intro d hd
      rcases List.mem_append.mp hd with hd | hd
      · exact hds d hd
      · exact isDigit_of_mem_padZeros k d hd
    have hm := readMantissa_point (ds ++ padZeros k) ['0'] [] (by simp [hne]) hw (by simp) rfl
    refine ⟨_, _, readDecimal_of_parts negative _ _ _ _ _ ?_ hm rfl, ?_⟩
    · rw [List.append_assoc]
      exact head_isDigit ds _ hne hds
    · rw [digitsValue_append, digitsValue_append, digitsValue_padZeros]
      simp [padZeros, digitsValue]
      ring
  · rename_i he
    obtain ⟨k, hk⟩ := Int.eq_ofNat_of_zero_le (by omega : 0 ≤ -e)
    obtain rfl : e = -(k : Int) := by omega
    simp only [neg_neg, Int.toNat_natCast]
    split
    · rename_i hlt
      have htake : ds.take (ds.length - k) ≠ [] := by
        intro h
        rw [List.take_eq_nil_iff] at h
        rcases h with h | h
        · omega
        · exact hne h
      have hm := readMantissa_point (ds.take (ds.length - k)) (ds.drop (ds.length - k)) [] htake
        (fun d hd => hds d (List.mem_of_mem_take hd)) (fun d hd => hds d (List.mem_of_mem_drop hd)) rfl
      rw [List.append_nil, List.take_append_drop] at hm
      refine ⟨_, _, readDecimal_of_parts negative _ _ _ _ _ ?_ hm rfl, ?_⟩
      · exact head_isDigit _ _ htake fun d hd => hds d (List.mem_of_mem_take hd)
      · rw [List.length_drop]
        congr 2
        omega
    · rename_i hge
      have hf : ∀ d ∈ padZeros (k - ds.length) ++ ds, d.isDigit = true := by
        intro d hd
        rcases List.mem_append.mp hd with hd | hd
        · exact isDigit_of_mem_padZeros _ d hd
        · exact hds d hd
      have hm := readMantissa_point ['0'] (padZeros (k - ds.length) ++ ds) [] (by simp) (by simp) hf rfl
      rw [List.append_nil] at hm
      refine ⟨_, _, readDecimal_of_parts negative _ _ _ _ _ rfl hm rfl, ?_⟩
      have hplaces : (padZeros (k - ds.length) ++ ds).length = k := by
        simp only [padZeros, List.length_append, List.length_replicate]
        omega
      rw [hplaces, digitsValue_append, digitsValue_append, digitsValue_padZeros]
      simp [digitsValue]

theorem readExponent_sign (plus : Bool) (e : Int) :
    readExponent? ('e' :: (if e < 0 then ['-'] else if plus then ['+'] else []) ++ Nat.toDigits 10 e.natAbs) =
      some e := by
  have hall : (Nat.toDigits 10 e.natAbs).all Char.isDigit = true :=
    List.all_eq_true.mpr fun d hd => Nat.isDigit_of_mem_toDigits (by decide) (by decide) hd
  have hne : (Nat.toDigits 10 e.natAbs).isEmpty = false := by
    simp [Nat.toDigits_ne_nil]
  have hsign : takeSign ((if e < 0 then ['-'] else if plus then ['+'] else []) ++ Nat.toDigits 10 e.natAbs) =
      (decide (e < 0), Nat.toDigits 10 e.natAbs) := by
    split
    · rename_i h
      simp [takeSign, h]
    · rename_i h
      split
      · simp [takeSign, h]
      · cases hd : Nat.toDigits 10 e.natAbs with
        | nil => exact absurd hd Nat.toDigits_ne_nil
        | cons d rest =>
          rw [List.nil_append, takeSign_digit d rest]
          · simp [h]
          · exact Nat.isDigit_of_mem_toDigits (by decide) (by decide) (hd ▸ List.mem_cons_self)
  rw [List.cons_append, readExponent?]
  simp only [hsign, hne, hall]
  simp only [decide_true, Bool.true_or, ↓reduceIte, Bool.not_true, Bool.or_self, Bool.false_eq_true,
    digitsValue_toDigits, decide_eq_true_eq, Option.some.injEq]
  split <;> omega

theorem read_exponentText (negative plus : Bool) (ds : List Char) (e : Int) (hne : ds ≠ [])
    (hds : ∀ d ∈ ds, d.isDigit = true) :
    ∃ (n : Nat) (x : Int),
      readDecimal? (signed negative (exponentText plus ds (e + (ds.length - 1)))) =
        some (ofDecimal negative n x) ∧ (n : ℚ) * 10 ^ x = digitsValue ds * 10 ^ e := by
  have hx := readExponent_sign plus (e + (ds.length - 1))
  unfold exponentText
  simp only
  rw [List.append_assoc, List.cons_append] at *
  generalize ((if e + (ds.length - 1) < 0 then ['-'] else if plus then ['+'] else []) ++
    Nat.toDigits 10 (e + (ds.length - 1)).natAbs) = tail at *
  match ds, hne with
  | [d], _ =>
    have hm := readMantissa_whole [d] ('e' :: tail) (by simp) hds rfl (by simp)
    refine ⟨_, _, readDecimal_of_parts negative _ _ _ _ _ (head_isDigit [d] _ (by simp) hds) hm hx, ?_⟩
    simp
  | d :: c :: rest, _ =>
    have hm := readMantissa_point [d] (c :: rest) ('e' :: tail) (by simp) (fun y hy => hds y (by simp_all))
      (fun y hy => hds y (by simp_all)) rfl
    refine ⟨_, _, readDecimal_of_parts negative _ _ _ _ _ ?_ hm hx, ?_⟩
    · exact hds d (by simp)
    · simp

namespace Scientific

theorem normal_spec (s : Scientific) :
    s.normal.1 ≠ [] ∧ (∀ d ∈ s.normal.1, d.isDigit = true) ∧
      (digitsValue s.normal.1 : ℚ) * 10 ^ s.normal.2 = s.digits * 10 ^ s.exponent := by
  have hds : ∀ d ∈ Nat.toDigits 10 s.digits, d.isDigit = true :=
    fun d hd => Nat.isDigit_of_mem_toDigits (by decide) (by decide) hd
  unfold normal
  simp only
  set ds := Nat.toDigits 10 s.digits with hdef
  set kept := (ds.reverse.dropWhile (· = '0')).reverse with hkept
  obtain ⟨zeros, hz⟩ : ∃ n, ds = kept ++ padZeros n := by
    refine ⟨(ds.reverse.takeWhile (· = '0')).length, ?_⟩
    have hrev : ds.reverse.takeWhile (· = '0') = padZeros (ds.reverse.takeWhile (· = '0')).length := by
      refine List.eq_replicate_iff.mpr ⟨rfl, fun d hd => ?_⟩
      simpa using List.all_eq_true.mp List.all_takeWhile d hd
    have hsplit := List.takeWhile_append_dropWhile (p := (· = '0')) (l := ds.reverse)
    rw [hrev] at hsplit
    have := congrArg List.reverse hsplit
    rw [List.reverse_append, List.reverse_reverse, padZeros, List.reverse_replicate] at this
    exact this.symm
  have hvalue : (s.digits : ℚ) = 10 ^ zeros * digitsValue kept := by
    have h : s.digits = 10 ^ zeros * digitsValue kept := by
      rw [← digitsValue_toDigits s.digits, ← hdef, hz, digitsValue_append, digitsValue_padZeros, padZeros,
        List.length_replicate, Nat.add_zero]
    exact_mod_cast h
  split
  · rename_i he
    rw [List.isEmpty_iff.mp he] at hvalue
    rw [hvalue]
    simp [digitsValue]
  · rename_i he
    refine ⟨by simpa using he, fun d hd => hds d (hz ▸ List.mem_append_left _ hd), ?_⟩
    have hlen : ((ds.length : Int) - kept.length) = zeros := by
      rw [hz, List.length_append, padZeros, List.length_replicate]
      push_cast
      ring
    rw [hlen, hvalue, zpow_add₀ (by norm_num), zpow_natCast]
    ring

end Scientific

/-- Whether a number whose first digit stands at this power of ten is written without exponent. -/
def Layout.isPositional (l : Layout) (first : Int) : Bool :=
  match l.positional with
  | none => true
  | some (least, most) => decide (least ≤ first ∧ first ≤ most)

def Layout.body (l : Layout) (ds : List Char) (e : Int) : List Char :=
  if l.isPositional (e + (ds.length - 1)) then positionalText l.pointZero ds e
  else exponentText l.plus ds (e + (ds.length - 1))

theorem Layout.write_finite (l : Layout) (x : Binary64) (negative : Bool) (m : Nat) (q : Int)
    (h : x.kind = .finite negative m q) :
    (l.write x).toList = signed negative (l.body
      (if m = 0 then (⟨0, 0⟩ : Scientific) else shortest m q).normal.1
      (if m = 0 then (⟨0, 0⟩ : Scientific) else shortest m q).normal.2) := by
  unfold write
  rw [h]
  simp only [String.toList_ofList]
  rfl

theorem readDecimal_write (l : Layout) (hl : l.pointZero = true) (x : Binary64) (negative : Bool) (m : Nat)
    (q : Int) (h : x.kind = .finite negative m q) : readDecimal? (l.write x).toList = some x := by
  obtain ⟨hx, hm⟩ := eq_of_kind x negative m q h
  rw [l.write_finite x negative m q h]
  set s : Scientific := if m = 0 then ⟨0, 0⟩ else shortest m q with hs
  obtain ⟨hne, hds, hvalue⟩ := s.normal_spec
  have hread : ∃ (n : Nat) (x : Int), readDecimal? (signed negative (l.body s.normal.1 s.normal.2)) =
      some (ofDecimal negative n x) ∧ (n : ℚ) * 10 ^ x = digitsValue s.normal.1 * 10 ^ s.normal.2 := by
    unfold Layout.body
    rw [hl]
    split
    · exact read_positionalText negative _ _ hne hds
    · exact read_exponentText negative l.plus _ _ hne hds
  obtain ⟨n, e, hr, hn⟩ := hread
  rw [hr, hx]
  rw [hvalue] at hn
  by_cases hz : m = 0
  · have hn0 : n = 0 := by
      rw [hs, if_pos hz] at hn
      have hten : (10 : ℚ) ^ e ≠ 0 := by positivity
      have : (n : ℚ) = 0 := by simpa [hten] using hn
      exact_mod_cast this
    have hq : q = -1074 := by
      rcases hm with hm | hm
      · exact hm.2
      · exact absurd hz hm.pos.ne'
    rw [hn0, hz, hq]
    rfl
  · have hm := hm.resolve_left fun h => hz h.1
    have howns := shortest_owns m q hm
    rw [value_toRatio] at howns
    rw [hs, if_neg hz] at hn
    rw [← hn] at howns
    rw [ofDecimal_of_owns negative n m e q hm howns]

def isFractionMark (c : Char) : Bool := c = '.' || c = 'e'

def isNumberChar (c : Char) : Bool := c.isDigit || isFractionMark c || c = '-' || c = '+'

/-- Starts with a digit, holds nothing but characters of numbers, and is no integer. -/
def IsFractionText (cs : List Char) : Prop :=
  ∃ d tail, cs = d :: tail ∧ d.isDigit = true ∧ (∀ c ∈ tail, isNumberChar c = true) ∧
    ∃ c ∈ tail, isFractionMark c = true

theorem isNumberChar_of_digit (c : Char) (h : c.isDigit = true) : isNumberChar c = true := by
  simp [isNumberChar, h]

theorem isFractionText_append (ds rest : List Char) (mark : Char) (hne : ds ≠ [])
    (hds : ∀ d ∈ ds, d.isDigit = true) (hm : isFractionMark mark = true)
    (hrest : ∀ c ∈ rest, isNumberChar c = true) : IsFractionText (ds ++ mark :: rest) := by
  cases ds with
  | nil => exact absurd rfl hne
  | cons d others =>
    refine ⟨d, others ++ mark :: rest, rfl, hds d (by simp), ?_, mark, by simp, hm⟩
    intro c hc
    rcases List.mem_append.mp hc with hc | hc
    · exact isNumberChar_of_digit c (hds c (by simp [hc]))
    · rcases List.mem_cons.mp hc with rfl | hc
      · simp [isNumberChar, hm]
      · exact hrest c hc

theorem isFractionText_positionalText (ds : List Char) (e : Int) (hne : ds ≠ [])
    (hds : ∀ d ∈ ds, d.isDigit = true) : IsFractionText (positionalText true ds e) := by
  unfold positionalText
  simp only [↓reduceIte]
  split
  · refine isFractionText_append (ds ++ padZeros e.toNat) ['0'] '.' (by simp [hne]) ?_ rfl (Text.forall_mem_of_all (by decide))
    intro d hd
    rcases List.mem_append.mp hd with hd | hd
    · exact hds d hd
    · exact isDigit_of_mem_padZeros _ d hd
  · split
    · rename_i hlt
      refine isFractionText_append _ _ '.' ?_ (fun d hd => hds d (List.mem_of_mem_take hd)) rfl
        fun d hd => isNumberChar_of_digit d (hds d (List.mem_of_mem_drop hd))
      intro h
      rcases List.take_eq_nil_iff.mp h with h | h
      · omega
      · exact hne h
    · refine isFractionText_append ['0'] _ '.' (by simp) (by simp) rfl ?_
      intro d hd
      rcases List.mem_append.mp hd with hd | hd
      · exact isNumberChar_of_digit d (isDigit_of_mem_padZeros _ d hd)
      · exact isNumberChar_of_digit d (hds d hd)

theorem isFractionText_exponentText (plus : Bool) (ds : List Char) (e : Int) (hne : ds ≠ [])
    (hds : ∀ d ∈ ds, d.isDigit = true) : IsFractionText (exponentText plus ds e) := by
  have htail : ∀ c ∈ (if e < 0 then ['-'] else if plus then ['+'] else []) ++ Nat.toDigits 10 e.natAbs,
      isNumberChar c = true := by
    intro c hc
    rcases List.mem_append.mp hc with hc | hc
    · split at hc
      · rw [List.mem_singleton.mp hc]
        rfl
      · split at hc
        · rw [List.mem_singleton.mp hc]
          rfl
        · cases hc
    · exact isNumberChar_of_digit c (Nat.isDigit_of_mem_toDigits (by decide) (by decide) hc)
  unfold exponentText
  simp only
  rw [List.append_assoc, List.cons_append]
  generalize ((if e < 0 then ['-'] else if plus then ['+'] else []) ++ Nat.toDigits 10 e.natAbs) = tail at *
  match ds, hne with
  | [d], _ => exact isFractionText_append [d] tail 'e' (by simp) hds rfl htail
  | d :: c :: rest, _ =>
    refine isFractionText_append [d] _ '.' (by simp) (fun y hy => hds y (by simp_all)) rfl ?_
    intro y hy
    rcases List.mem_append.mp hy with hy | hy
    · exact isNumberChar_of_digit y (hds y (by simp_all))
    · rcases List.mem_cons.mp hy with rfl | hy
      · rfl
      · exact htail y hy

theorem Layout.isFractionText_body (l : Layout) (hl : l.pointZero = true) (s : Scientific) :
    IsFractionText (l.body s.normal.1 s.normal.2) := by
  obtain ⟨hne, hds, -⟩ := s.normal_spec
  unfold body
  rw [hl]
  split
  · exact isFractionText_positionalText _ _ hne hds
  · exact isFractionText_exponentText _ _ _ hne hds

end CiWorkflow.Decimal
