import CiWorkflow.Proofs.Decimal.Rounding

set_option autoImplicit false

namespace CiWorkflow.Decimal

open Binary64

theorem pow_length_toDigits_le (n : Nat) (hn : 0 < n) : 10 ^ ((Nat.toDigits 10 n).length - 1) ≤ n := by
  by_contra h
  have hpos : 0 < (Nat.toDigits 10 n).length := Nat.length_toDigits_pos
  rcases Nat.eq_zero_or_pos ((Nat.toDigits 10 n).length - 1) with hz | hz
  · rw [hz] at h
    omega
  · have := (Nat.length_toDigits_le_iff (by decide) hz).mpr (not_le.mp h)
    omega

theorem lt_pow_length_toDigits (n : Nat) : n < 10 ^ (Nat.toDigits 10 n).length :=
  (Nat.length_toDigits_le_iff (by decide) Nat.length_toDigits_pos).mp le_rfl

namespace Scientific

theorem within_iff (m : Nat) (q : Int) (r : Ratio) (hm : 0 < m) (hr : 0 < r.den) :
    within m q r = true ↔ Owns m q r.value := by
  have hp : (2 : ℚ) ^ q = 4 * 2 ^ (q - 2) := by
    have := two_zpow_add (q - 2) 2
    norm_num at this
    exact this
  have hlow : ∀ below : Nat, below ≤ 2 → (Ratio.ofScaled (4 * m - below) 2 (q - 2)).value =
      (m - below / 4) * 2 ^ q := by
    intro below hb
    rw [Ratio.value_ofScaled, Nat.cast_sub (by omega), hp]
    push_cast
    ring
  have hhigh : (Ratio.ofScaled (4 * m + 2) 2 (q - 2)).value = (m + 1 / 2) * 2 ^ q := by
    rw [Ratio.value_ofScaled, hp]
    push_cast
    ring
  have hreach : (Ratio.ofScaled (4 * m - if m = Nat.pow 2 52 ∧ -1074 < q then 1 else 2) 2 (q - 2)).value =
      (m - reach m q) * 2 ^ q := by
    rw [hlow _ (by split <;> omega), reach]
    simp only [Nat.pow_eq]
    by_cases h : m = 2 ^ 52 ∧ -1074 < q
    · rw [if_pos h, if_pos h]
      norm_num
    · rw [if_neg h, if_neg h]
      norm_num
  have hden : ∀ n : Nat, 0 < (Ratio.ofScaled n 2 (q - 2)).den := fun n =>
    Ratio.ofScaled_den_pos n 2 _ (by decide)
  unfold within owned
  simp only [Bool.and_eq_true, decide_eq_true_eq]
  split
  · rename_i heven
    rw [Bool.and_eq_true, Ratio.le_iff _ _ (hden _) hr, Ratio.le_iff _ _ hr (hden _), hreach, hhigh]
    exact ⟨fun h => ⟨h.1, h.2, fun ho => by omega⟩, fun h => ⟨h.low, h.high⟩⟩
  · rename_i hodd
    rw [Bool.and_eq_true, Ratio.lt_iff _ _ (hden _) hr, Ratio.lt_iff _ _ hr (hden _), hreach, hhigh]
    exact ⟨fun h => ⟨h.1.le, h.2.le, fun _ => h⟩, fun h => h.odd (by omega)⟩

/-- The first digit of a fraction stands at a power of ten that the fraction reaches. -/
theorem pow_leading_le (v : Ratio) (hn : 0 < v.num) (hd : 0 < v.den) :
    (10 : ℚ) ^ leading v ≤ v.value := by
  have hn' : (0 : ℚ) < v.num := by exact_mod_cast hn
  have hd' : (0 : ℚ) < v.den := by exact_mod_cast hd
  unfold leading Ratio.value
  split
  · rename_i h
    have hk : 0 < v.num / v.den := Nat.div_pos h hd
    have hlow := pow_length_toDigits_le _ hk
    have hlen : 0 < (Nat.toDigits 10 (v.num / v.den)).length := Nat.length_toDigits_pos
    have hcast : (((Nat.toDigits 10 (v.num / v.den)).length : Int) - 1) =
        (((Nat.toDigits 10 (v.num / v.den)).length - 1 : Nat) : Int) := by omega
    rw [hcast, zpow_natCast, le_div_iff₀ hd']
    have := (Nat.mul_le_mul_right v.den hlow).trans (Nat.div_mul_le_self v.num v.den)
    exact_mod_cast this
  · rename_i h
    have hlt := lt_pow_length_toDigits ((v.den + v.num - 1) / v.num - 1)
    set len := (Nat.toDigits 10 ((v.den + v.num - 1) / v.num - 1)).length
    have hceil : (v.den + v.num - 1) / v.num ≤ 10 ^ len := by omega
    have hden : v.den ≤ 10 ^ len * v.num := by
      have := (Nat.div_lt_iff_lt_mul hn).mp (Nat.lt_succ_of_le hceil)
      rw [Nat.succ_mul] at this
      omega
    rw [zpow_neg, zpow_natCast, inv_le_comm₀ (by positivity) (by positivity), inv_div, div_le_iff₀ hn']
    exact_mod_cast hden

theorem grid_bounds (v : Ratio) (hd : 0 < v.den) (x : Int) :
    let unit := Ratio.ofScaled 1 10 x
    let low := v.num * unit.den / (v.den * unit.num)
    (low : ℚ) * 10 ^ x ≤ v.value ∧ v.value < ((low + 1 : Nat) : ℚ) * 10 ^ x := by
  intro unit low
  have hd' : (0 : ℚ) < v.den := by exact_mod_cast hd
  have hunit : unit.value = 10 ^ x := by
    have := Ratio.value_ofScaled 1 10 x
    push_cast at this
    rwa [one_mul] at this
  have hden : 0 < unit.den := Ratio.ofScaled_den_pos 1 10 x (by decide)
  have hden' : (0 : ℚ) < unit.den := by exact_mod_cast hden
  have hnum : 0 < unit.num := by
    have hpos : (0 : ℚ) < unit.value := by
      rw [hunit]
      positivity
    have : (0 : ℚ) < unit.num := by
      rw [Ratio.value] at hpos
      exact (div_pos_iff_of_pos_right hden').mp hpos
    exact_mod_cast this
  have hmul : 0 < v.den * unit.num := Nat.mul_pos hd hnum
  have hlow : low * (v.den * unit.num) ≤ v.num * unit.den := Nat.div_mul_le_self _ _
  have hhigh : v.num * unit.den < (low + 1) * (v.den * unit.num) :=
    (Nat.div_lt_iff_lt_mul hmul).mp (Nat.lt_succ_self _)
  rw [← hunit, Ratio.value, Ratio.value, ← mul_div_assoc, ← mul_div_assoc,
    div_le_div_iff₀ hden' hd', div_lt_div_iff₀ hd' hden']
  constructor
  · calc (low : ℚ) * unit.num * v.den = (low * (v.den * unit.num) : Nat) := by
          push_cast
          ring
      _ ≤ (v.num * unit.den : Nat) := by exact_mod_cast hlow
      _ = v.num * unit.den := by push_cast; rfl
  · calc (v.num : ℚ) * unit.den = (v.num * unit.den : Nat) := by push_cast; rfl
      _ < ((low + 1) * (v.den * unit.num) : Nat) := by exact_mod_cast hhigh
      _ = (low + 1 : Nat) * unit.num * v.den := by
          push_cast
          ring

theorem value_toRatio (s : Scientific) : s.toRatio.value = s.digits * 10 ^ s.exponent := by
  have := Ratio.value_ofScaled s.digits 10 s.exponent
  push_cast at this
  exact this

theorem toRatio_den_pos (s : Scientific) : 0 < s.toRatio.den := Ratio.ofScaled_den_pos _ _ _ (by decide)

/-- The grid of seventeen digits is finer than the interval of the number. -/
theorem owns_on_finest_grid (m low : Nat) (q x : Int) (hm : IsNormal m q)
    (hx : (10 : ℚ) ^ (x + 16) ≤ m * 2 ^ q) (hlow : (low : ℚ) * 10 ^ x ≤ m * 2 ^ q)
    (hhigh : (m : ℚ) * 2 ^ q < ((low + 1 : Nat) : ℚ) * 10 ^ x) :
    Owns m q (low * 10 ^ x) ∨ Owns m q ((low + 1 : Nat) * 10 ^ x) := by
  have hp : (0 : ℚ) < 2 ^ q := by positivity
  have hg : (0 : ℚ) < 10 ^ x := by positivity
  have hgrid : (10 : ℚ) ^ (x + 16) = 10 ^ 16 * 10 ^ x := by
    rw [zpow_add₀ (by norm_num), mul_comm]
    norm_cast
  rw [hgrid] at hx
  push_cast at hhigh
  have hmlt : (m : ℚ) + 1 ≤ 2 ^ 53 := by exact_mod_cast hm.lt
  have hfine : (10 : ℚ) ^ x < (1 / 2 + reach m q) * 2 ^ q := by
    unfold reach
    split
    · rename_i h
      have : (m : ℚ) = 2 ^ 52 := by exact_mod_cast h.1
      rw [this] at hx
      nlinarith
    · nlinarith
  have hreach : 0 < reach m q := by
    unfold reach
    split <;> norm_num
  by_cases h : (m - reach m q) * 2 ^ q < low * 10 ^ x
  · left
    have : (low : ℚ) * 10 ^ x < (m + 1 / 2) * 2 ^ q := by nlinarith
    exact ⟨h.le, this.le, fun _ => ⟨h, this⟩⟩
  · right
    have h₁ : (m - reach m q) * 2 ^ q < ((low + 1 : Nat) : ℚ) * 10 ^ x := by
      push_cast
      nlinarith
    have h₂ : ((low + 1 : Nat) : ℚ) * 10 ^ x < (m + 1 / 2) * 2 ^ q := by
      push_cast
      nlinarith
    exact ⟨h₁.le, h₂.le, fun _ => ⟨h₁, h₂⟩⟩

theorem onGrid_owns (m : Nat) (q : Int) (n : Nat) (s : Scientific) (hm : 0 < m)
    (h : onGrid? m q n = some s) : Owns m q s.toRatio.value := by
  unfold onGrid? at h
  simp only at h
  rw [← within_iff m q s.toRatio hm s.toRatio_den_pos]
  split at h
  · rename_i ha hb
    split at h <;> cases h <;> assumption
  · cases h
    assumption
  · cases h
    assumption
  · cases h

theorem onGrid_finest (m : Nat) (q : Int) (hm : IsNormal m q) : (onGrid? m q 17).isSome := by
  have hmpos : (0 : ℚ) < m := by exact_mod_cast hm.pos
  have hv : (Ratio.ofScaled m 2 q).value = m * 2 ^ q := by
    have := Ratio.value_ofScaled m 2 q
    push_cast at this
    exact this
  have hd : 0 < (Ratio.ofScaled m 2 q).den := Ratio.ofScaled_den_pos m 2 q (by decide)
  have hn : 0 < (Ratio.ofScaled m 2 q).num := by
    have hpos : (0 : ℚ) < (Ratio.ofScaled m 2 q).value := by
      rw [hv]
      positivity
    have : (0 : ℚ) < (Ratio.ofScaled m 2 q).num := by
      rw [Ratio.value] at hpos
      exact (div_pos_iff_of_pos_right (by exact_mod_cast hd)).mp hpos
    exact_mod_cast this
  have hlead := pow_leading_le _ hn hd
  have hgrid := grid_bounds _ hd (leading (Ratio.ofScaled m 2 q) - (17 : Nat) + 1)
  rw [hv] at hlead hgrid
  have hfirst : leading (Ratio.ofScaled m 2 q) - (17 : Nat) + 1 + 16 = leading (Ratio.ofScaled m 2 q) := by
    push_cast
    ring
  have howns := owns_on_finest_grid m _ q _ hm (by rwa [hfirst]) hgrid.1 hgrid.2
  unfold onGrid?
  simp only
  split
  · rfl
  · rfl
  · rfl
  · rename_i ha hb
    rw [Bool.eq_false_iff, ne_eq, within_iff _ _ _ hm.pos (toRatio_den_pos _), value_toRatio] at ha hb
    rcases howns with h | h
    · exact absurd h ha
    · exact absurd h hb

theorem shortest_owns (m : Nat) (q : Int) (hm : IsNormal m q) : Owns m q (shortest m q).toRatio.value := by
  unfold shortest
  cases h : (List.range 17).findSome? fun n => onGrid? m q (n + 1) with
  | some s =>
    obtain ⟨n, -, hn⟩ := List.exists_of_findSome?_eq_some h
    exact onGrid_owns m q (n + 1) s hm.pos hn
  | none =>
    rw [List.findSome?_eq_none_iff] at h
    have := onGrid_finest m q hm
    rw [h 16 (by simp)] at this
    exact absurd this (by simp)

end Scientific

end CiWorkflow.Decimal
