import CiWorkflow.Decimal.Shortest
import Mathlib.Tactic.Ring
import Mathlib.Tactic.Linarith
import Mathlib.Tactic.NormNum
import Mathlib.Tactic.Positivity
import Mathlib.Tactic.FieldSimp
import Mathlib.Data.Rat.Cast.Order
import Mathlib.Algebra.Order.Field.Power

set_option autoImplicit false

namespace CiWorkflow.Decimal

namespace Scientific.Ratio

def value (r : Ratio) : ℚ := r.num / r.den

theorem ofScaled_den_pos (n base : Nat) (x : Int) (hb : 0 < base) : 0 < (ofScaled n base x).den := by
  unfold ofScaled
  split
  · exact Nat.one_pos
  · exact Nat.pow_pos hb

theorem value_ofScaled (n base : Nat) (x : Int) : (ofScaled n base x).value = n * (base : ℚ) ^ x := by
  unfold ofScaled value
  split
  · rename_i h
    obtain ⟨k, rfl⟩ := Int.eq_ofNat_of_zero_le h
    simp
  · rename_i h
    obtain ⟨k, hk⟩ := Int.eq_ofNat_of_zero_le (by omega : 0 ≤ -x)
    obtain rfl : x = -(k : Int) := by omega
    simp [div_eq_mul_inv]

theorem le_iff (a b : Ratio) (ha : 0 < a.den) (hb : 0 < b.den) : a.le b = true ↔ a.value ≤ b.value := by
  have ha' : (0 : ℚ) < a.den := by exact_mod_cast ha
  have hb' : (0 : ℚ) < b.den := by exact_mod_cast hb
  rw [le, decide_eq_true_iff, value, value, div_le_div_iff₀ ha' hb']
  exact_mod_cast Iff.rfl

theorem lt_iff (a b : Ratio) (ha : 0 < a.den) (hb : 0 < b.den) : a.lt b = true ↔ a.value < b.value := by
  have ha' : (0 : ℚ) < a.den := by exact_mod_cast ha
  have hb' : (0 : ℚ) < b.den := by exact_mod_cast hb
  rw [lt, decide_eq_true_iff, value, value, div_lt_div_iff₀ ha' hb']
  exact_mod_cast Iff.rfl

end Scientific.Ratio

namespace Binary64

theorem roundQuotient_eq (n d k : Nat) (hd : 0 < d) (hlow : 2 * (k * d) ≤ 2 * n + d)
    (hhigh : 2 * n ≤ 2 * (k * d) + d)
    (hodd : k % 2 = 1 → 2 * (k * d) < 2 * n + d ∧ 2 * n < 2 * (k * d) + d) :
    roundQuotient n d = k := by
  have hn := Nat.div_add_mod n d
  have hr := Nat.mod_lt n hd
  set low := n / d
  set r := n % d
  have hcase : low = k ∨ low + 1 = k := by
    rcases Nat.lt_trichotomy low k with h | h | h
    · right
      by_contra hne
      obtain ⟨j, rfl⟩ := Nat.exists_eq_add_of_le (show low + 2 ≤ k by omega)
      have hexp : (low + 2 + j) * d = d * low + 2 * d + j * d := by ring
      rw [hexp] at hlow
      omega
    · exact .inl h
    · exfalso
      obtain ⟨j, hj⟩ := Nat.exists_eq_add_of_le (show k + 1 ≤ low by omega)
      have hexp : d * low = k * d + d + j * d := by rw [hj]; ring
      rw [hexp] at hn
      omega
  unfold roundQuotient
  change (if 2 * r < d then low else if d < 2 * r then low + 1 else low + low % 2) = k
  rcases hcase with h | h
  · have hkd : k * d = d * low := by rw [h]; ring
    rw [hkd] at hlow hhigh hodd
    rcases Nat.lt_trichotomy (2 * r) d with h' | h' | h'
    · rw [if_pos h', h]
    · rw [if_neg (by omega), if_neg (by omega)]
      have : k % 2 ≠ 1 := fun ho => by
        have := hodd ho
        omega
      omega
    · omega
  · have hkd : k * d = d * low + d := by rw [← h]; ring
    rw [hkd] at hlow hhigh hodd
    rcases Nat.lt_trichotomy (2 * r) d with h' | h' | h'
    · omega
    · rw [if_neg (by omega), if_neg (by omega)]
      have : k % 2 ≠ 1 := fun ho => by
        have := hodd ho
        omega
      omega
    · rw [if_neg (by omega), if_pos h', h]

theorem scaled_den_pos (n d : Nat) (q : Int) (hd : 0 < d) : 0 < (scaled n d q).2 := by
  unfold scaled
  split
  · exact Nat.mul_pos hd (Nat.pow_pos (by decide))
  · exact hd

theorem value_scaled (n d : Nat) (q : Int) :
    ((scaled n d q).1 : ℚ) / (scaled n d q).2 = n / d / 2 ^ q := by
  unfold scaled
  split
  · rename_i h
    obtain ⟨k, rfl⟩ := Int.eq_ofNat_of_zero_le h
    simp [div_div]
  · rename_i h
    obtain ⟨k, hk⟩ := Int.eq_ofNat_of_zero_le (by omega : 0 ≤ -q)
    obtain rfl : q = -(k : Int) := by omega
    simp only [neg_neg, Int.toNat_natCast, Nat.pow_eq, Nat.cast_mul, Nat.cast_pow, Nat.cast_ofNat, zpow_neg,
      zpow_natCast, div_inv_eq_mul]
    ring

/-- The exponent brings a fraction below `2 ^ 53`, and not below `2 ^ 52` unless it is the least one. -/
theorem exponentOf_spec (n d : Nat) (hn : 0 < n) (hd : 0 < d) :
    -1074 ≤ exponentOf n d ∧ (n : ℚ) / d < 2 ^ (exponentOf n d + 53) ∧
      (exponentOf n d = -1074 ∨ (2 : ℚ) ^ (exponentOf n d + 52) ≤ n / d) := by
  have hd' : (0 : ℚ) < d := by exact_mod_cast hd
  have h2 : (2 : ℚ) ≠ 0 := by norm_num
  have hone : (1 : ℚ) ≤ 2 := by norm_num
  have hnlow : (2 : ℚ) ^ (n.log2 : Int) ≤ n := by
    rw [zpow_natCast]
    exact_mod_cast Nat.log2_self_le hn.ne'
  have hnhigh : (n : ℚ) < 2 ^ ((n.log2 : Int) + 1) := by
    have h := (Nat.lt_log2_self : n < 2 ^ (n.log2 + 1))
    exact_mod_cast h
  have hdlow : (2 : ℚ) ^ (d.log2 : Int) ≤ d := by
    rw [zpow_natCast]
    exact_mod_cast Nat.log2_self_le hd.ne'
  have hdhigh : (d : ℚ) < 2 ^ ((d.log2 : Int) + 1) := by
    have h := (Nat.lt_log2_self : d < 2 ^ (d.log2 + 1))
    exact_mod_cast h
  have hlow : (2 : ℚ) ^ ((n.log2 : Int) - d.log2 - 1) ≤ n / d := by
    rw [le_div_iff₀ hd']
    calc (2 : ℚ) ^ ((n.log2 : Int) - d.log2 - 1) * d
        ≤ 2 ^ ((n.log2 : Int) - d.log2 - 1) * 2 ^ ((d.log2 : Int) + 1) := by gcongr
      _ = 2 ^ (n.log2 : Int) := by rw [← zpow_add₀ h2]; congr 1; ring
      _ ≤ n := hnlow
  have hhigh : (n : ℚ) / d < 2 ^ ((n.log2 : Int) - d.log2 + 1) := by
    rw [div_lt_iff₀ hd']
    calc (n : ℚ) < 2 ^ ((n.log2 : Int) + 1) := hnhigh
      _ = 2 ^ ((n.log2 : Int) - d.log2 + 1) * 2 ^ (d.log2 : Int) := by
        rw [← zpow_add₀ h2]; congr 1; ring
      _ ≤ 2 ^ ((n.log2 : Int) - d.log2 + 1) * d := by gcongr
  have hmono : ∀ a b : Int, a ≤ b → (2 : ℚ) ^ a ≤ 2 ^ b := fun a b h => zpow_le_zpow_right₀ hone h
  unfold exponentOf
  set q : Int := max (-1074) ((n.log2 : Int) - d.log2 - 52) with hq
  have hqhigh : (n : ℚ) / d < 2 ^ (q + 53) := hhigh.trans_le (hmono _ _ (by omega))
  have hden : (0 : ℚ) < (scaled n d q).2 := by exact_mod_cast scaled_den_pos n d q hd
  have hp : (0 : ℚ) < 2 ^ q := by positivity
  have hdiv : (scaled n d q).1 / (scaled n d q).2 < Nat.pow 2 52 ↔ (n : ℚ) / d < 2 ^ (q + 52) := by
    rw [Nat.div_lt_iff_lt_mul (scaled_den_pos n d q hd), zpow_add₀ h2, mul_comm ((2 : ℚ) ^ q),
      ← div_lt_iff₀ hp, ← value_scaled, div_lt_iff₀ hden]
    norm_cast
  change -1074 ≤ (if (scaled n d q).1 / (scaled n d q).2 < Nat.pow 2 52 then max (-1074) (q - 1) else q) ∧ _
  by_cases h : (scaled n d q).1 / (scaled n d q).2 < Nat.pow 2 52
  · simp only [h, ↓reduceIte]
    refine ⟨by omega, (hdiv.mp h).trans_le (hmono _ _ (by omega)), ?_⟩
    by_cases hle : q ≤ -1074
    · left
      omega
    · right
      exact (hmono _ _ (by omega)).trans hlow
  · simp only [h, ↓reduceIte]
    refine ⟨by omega, hqhigh, .inr ?_⟩
    exact not_lt.mp (mt hdiv.mpr h)

structure IsNormal (m : Nat) (q : Int) : Prop where
  pos : 0 < m
  lt : m < 2 ^ 53
  least : -1074 ≤ q
  most : q ≤ 971
  full : 2 ^ 52 ≤ m ∨ q = -1074

/-- How far the interval of a number reaches below it, in units of `2 ^ q`. -/
def reach (m : Nat) (q : Int) : ℚ := if m = 2 ^ 52 ∧ -1074 < q then 1 / 4 else 1 / 2

structure Owns (m : Nat) (q : Int) (v : ℚ) : Prop where
  low : (m - reach m q) * 2 ^ q ≤ v
  high : v ≤ (m + 1 / 2) * 2 ^ q
  odd : m % 2 = 1 → (m - reach m q) * 2 ^ q < v ∧ v < (m + 1 / 2) * 2 ^ q

theorem reach_le (m : Nat) (q : Int) : reach m q ≤ 1 / 2 := by
  unfold reach
  split <;> norm_num

theorem Owns.half {m : Nat} {q : Int} {v : ℚ} (h : Owns m q v) :
    (m - 1 / 2) * 2 ^ q ≤ v ∧ (m % 2 = 1 → (m - 1 / 2) * 2 ^ q < v) := by
  have hp : (0 : ℚ) < 2 ^ q := by positivity
  have hle : ((m : ℚ) - 1 / 2) * 2 ^ q ≤ (m - reach m q) * 2 ^ q := by
    have := reach_le m q
    gcongr
  exact ⟨hle.trans h.low, fun ho => hle.trans_lt (h.odd ho).1⟩

theorem roundQuotient_scaled (n d m : Nat) (q : Int) (hd : 0 < d)
    (hlow : ((m : ℚ) - 1 / 2) * 2 ^ q ≤ n / d) (hhigh : (n : ℚ) / d ≤ (m + 1 / 2) * 2 ^ q)
    (hodd : m % 2 = 1 → ((m : ℚ) - 1 / 2) * 2 ^ q < n / d ∧ (n : ℚ) / d < (m + 1 / 2) * 2 ^ q) :
    roundQuotient (scaled n d q).1 (scaled n d q).2 = m := by
  have hb := scaled_den_pos n d q hd
  have hv := value_scaled n d q
  generalize (scaled n d q).1 = a at hv ⊢
  generalize (scaled n d q).2 = b at hb hv ⊢
  have hb' : (0 : ℚ) < b := by exact_mod_cast hb
  have hp : (0 : ℚ) < 2 ^ q := by positivity
  have hab : (n : ℚ) / d = a / b * 2 ^ q := by
    rw [hv]
    field_simp
  rw [hab] at hlow hhigh hodd
  rw [mul_le_mul_iff_left₀ hp, le_div_iff₀ hb'] at hlow
  rw [mul_le_mul_iff_left₀ hp, div_le_iff₀ hb'] at hhigh
  rw [mul_lt_mul_iff_left₀ hp, mul_lt_mul_iff_left₀ hp, lt_div_iff₀ hb', div_lt_iff₀ hb'] at hodd
  refine roundQuotient_eq a b m hb ?_ ?_ fun ho => ⟨?_, ?_⟩
  · have : 2 * ((m : ℚ) * b) ≤ 2 * a + b := by linarith
    exact_mod_cast this
  · have : 2 * (a : ℚ) ≤ 2 * (m * b) + b := by linarith
    exact_mod_cast this
  · have : 2 * ((m : ℚ) * b) < 2 * a + b := by linarith [(hodd ho).1]
    exact_mod_cast this
  · have : 2 * (a : ℚ) < 2 * (m * b) + b := by linarith [(hodd ho).2]
    exact_mod_cast this

theorem two_zpow_add (q : Int) (k : Nat) : (2 : ℚ) ^ (q + k) = 2 ^ k * 2 ^ q := by
  rw [zpow_add₀ two_ne_zero, zpow_natCast, mul_comm]

theorem ofRatio_of_owns (negative : Bool) (n d m : Nat) (q : Int) (hn : 0 < n) (hd : 0 < d)
    (hm : IsNormal m q) (h : Owns m q (n / d)) :
    ofRatio negative n d = ofMagnitude negative ((q + 1074).toNat * 2 ^ 52 + m) := by
  obtain ⟨hleast, hbelow, hfull⟩ := exponentOf_spec n d hn hd
  have h2 : (2 : ℚ) ≠ 0 := by norm_num
  have hp : (0 : ℚ) < 2 ^ q := by positivity
  have hmq : (m : ℚ) + 1 ≤ 2 ^ 53 := by exact_mod_cast hm.lt
  have hone : (1 : ℚ) < 2 := by norm_num
  have hless : (q + 1074).toNat * 2 ^ 52 + m ≤ 2047 * 2 ^ 52 := by
    have := hm.lt
    have := hm.most
    omega
  have hupper : exponentOf n d ≤ q := by
    by_contra hq
    have hfull := hfull.resolve_left (by have := hm.least; omega)
    have hmono : (2 : ℚ) ^ (q + 53) ≤ 2 ^ (exponentOf n d + 52) := zpow_le_zpow_right₀ hone.le (by omega)
    have hpow : (2 : ℚ) ^ (q + 53) = 2 ^ 53 * 2 ^ q := by simpa using two_zpow_add q 53
    have hhigh := h.high
    nlinarith
  have hmagnitude : (exponentOf n d + 1074).toNat * 2 ^ 52 +
      roundQuotient (scaled n d (exponentOf n d)).1 (scaled n d (exponentOf n d)).2 =
        (q + 1074).toNat * 2 ^ 52 + m := by
    rcases hupper.eq_or_lt with heq | hlt
    · rw [heq, roundQuotient_scaled n d m q hd h.half.1 h.high fun ho => ⟨h.half.2 ho, (h.odd ho).2⟩]
    · -- Only just below a power of two the exponent is one less, and rounding brings it back.
      have hq : -1074 < q := by omega
      have hvbelow : (n : ℚ) / d < 2 ^ 52 * 2 ^ q := by
        have hmono : (2 : ℚ) ^ (exponentOf n d + 53) ≤ 2 ^ (q + 52) := zpow_le_zpow_right₀ hone.le (by omega)
        have hpow : (2 : ℚ) ^ (q + 52) = 2 ^ 52 * 2 ^ q := by simpa using two_zpow_add q 52
        linarith
      have hmfull : 2 ^ 52 ≤ m := hm.full.resolve_right (by omega)
      have hmle : m = 2 ^ 52 := by
        have hmlt : (m : ℚ) - 1 / 2 < 2 ^ 52 := by
          have := h.half.1
          by_contra hge
          nlinarith
        have : (m : ℚ) < 2 ^ 52 + 1 := by linarith
        have : m < 2 ^ 52 + 1 := by exact_mod_cast this
        omega
      have hlow := h.low
      rw [reach, if_pos ⟨hmle, hq⟩] at hlow
      have hmq' : (m : ℚ) = 2 ^ 52 := by exact_mod_cast hmle
      have heq : exponentOf n d = q - 1 := by
        by_contra hne
        have hmono : (2 : ℚ) ^ (exponentOf n d + 53) ≤ 2 ^ (q - 2 + 53) :=
          zpow_le_zpow_right₀ hone.le (by omega)
        have hpow : (2 : ℚ) ^ (q - 2 + 53) = 2 ^ 51 * 2 ^ q := by
          rw [show q - 2 + 53 = q + 51 by ring]
          simpa using two_zpow_add q 51
        rw [hmq'] at hlow
        nlinarith
      have hpow : (2 : ℚ) ^ q = 2 * 2 ^ (q - 1) := by
        rw [zpow_sub₀ h2]
        ring
      rw [heq, roundQuotient_scaled n d (2 ^ 53) (q - 1) hd ?_ ?_ (by norm_num)]
      · omega
      · rw [hmq', hpow] at hlow
        push_cast
        linarith
      · rw [hpow] at hvbelow
        have : (0 : ℚ) < 2 ^ (q - 1) := by positivity
        push_cast
        linarith
  unfold ofRatio
  change ofMagnitude negative (min (2047 * 2 ^ 52) ((exponentOf n d + 1074).toNat * 2 ^ 52 +
    roundQuotient (scaled n d (exponentOf n d)).1 (scaled n d (exponentOf n d)).2)) = _
  rw [hmagnitude, min_eq_right hless]

end Binary64

end CiWorkflow.Decimal
