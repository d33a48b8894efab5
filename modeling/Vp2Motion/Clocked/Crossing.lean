import Mathlib.Data.Int.ModEq
import Mathlib.Tactic.Linarith
import Mathlib.Tactic.Ring

namespace Vp2Motion.Clocked.Crossing

variable {x v m k : ℤ}

/-- An increment of at most one unit moves the integer part by at most one, in
the direction of its sign. -/
theorem whole_move (hm : 0 < m) (hv : |v| ≤ m) :
    (x + v) / m = x / m ∨ (x + v) / m = x / m + 1 ∧ 0 < v ∨ (x + v) / m = x / m - 1 ∧ v < 0 := by
  have hx := Int.mul_ediv_add_emod x m
  have hx0 := Int.emod_nonneg x hm.ne'
  have hx1 := Int.emod_lt_of_pos x hm
  have hy := Int.mul_ediv_add_emod (x + v) m
  have hy0 := Int.emod_nonneg (x + v) hm.ne'
  have hy1 := Int.emod_lt_of_pos (x + v) hm
  have hv' := abs_le.mp hv
  have hdiff : m * ((x + v) / m - x / m) = v + x % m - (x + v) % m := by linarith
  have hlt : (x + v) / m - x / m < 2 := by nlinarith
  have hgt : -2 < (x + v) / m - x / m := by nlinarith
  obtain h | h | h : (x + v) / m - x / m = 0 ∨ (x + v) / m - x / m = 1 ∨
      (x + v) / m - x / m = -1 := by omega
  · exact .inl (by omega)
  · rw [h] at hdiff
    exact .inr (.inl ⟨by omega, by omega⟩)
  · rw [h] at hdiff
    exact .inr (.inr ⟨by omega, by omega⟩)

/-- Wrapping at a multiple of the unit only wraps the integer part. -/
theorem whole_wrap (hm : 0 < m) (y : ℤ) : y % (m * k) / m ≡ y / m [ZMOD k] := by
  have hy : y % (m * k) = y + m * (-(k * (y / (m * k)))) := by
    have := Int.mul_ediv_add_emod y (m * k)
    linarith
  rw [hy, Int.add_mul_ediv_left _ _ hm.ne']
  exact Int.modEq_iff_dvd.mpr ⟨y / (m * k), by linarith⟩

/-- With an even number of units the lowest bit of the integer part toggles
exactly when the integer part moves. -/
theorem whole_step (hm : 0 < m) (hk : 2 ∣ k) (hv : |v| ≤ m) :
    (x + v) % (m * k) / m ≡
      x / m + (if x / m % 2 = (x + v) % (m * k) / m % 2 then 0 else if 0 < v then 1 else -1)
      [ZMOD k] := by
  have hwrap := whole_wrap (k := k) hm (x + v)
  have hpar : (x + v) % (m * k) / m % 2 = (x + v) / m % 2 := hwrap.of_dvd hk
  refine hwrap.trans ?_
  rw [hpar]
  rcases whole_move (x := x) hm hv with h | ⟨h, hpos⟩ | ⟨h, hneg⟩
  · rw [h, if_pos rfl, add_zero]
  · rw [if_neg (by omega), if_pos hpos, h]
  · rw [if_neg (by omega), if_neg (by omega), h, sub_eq_add_neg]

/-- A rate limit bounds the way made in any number of clocks. -/
theorem moved_le {y : ℕ → ℤ} (hy : ∀ n, |y (n + 1) - y n| ≤ v) {a b : ℕ} (hab : a ≤ b) :
    |y b - y a| ≤ ((b - a : ℕ) : ℤ) * v := by
  induction b, hab using Nat.le_induction with
  | base => simp
  | succ b hab ih =>
    have hsplit : y (b + 1) - y a = (y (b + 1) - y b) + (y b - y a) := by ring
    calc
      |y (b + 1) - y a| ≤ |y (b + 1) - y b| + |y b - y a| := hsplit ▸ abs_add_le _ _
      _ ≤ v + ((b - a : ℕ) : ℤ) * v := add_le_add (hy b) ih
      _ = ((b + 1 - a : ℕ) : ℤ) * v := by
        rw [Nat.succ_sub hab]
        push_cast
        ring

/-- Two units of the integer part are more than one unit of the whole. -/
theorem lt_sub_of_whole (hm : 0 < m) {y : ℤ} (h : x / m + 2 ≤ y / m) : m < y - x := by
  have hx := Int.mul_ediv_add_emod x m
  have hx1 := Int.emod_lt_of_pos x hm
  have hy := Int.mul_ediv_add_emod y m
  have hy0 := Int.emod_nonneg y hm.ne'
  nlinarith

/-- Clocks `a` and `b` both move the integer part the same way: they are at
least as far apart as one unit takes at full rate. -/
theorem crossings_apart {y : ℕ → ℤ} (hm : 0 < m) (hv : 0 < v)
    (hy : ∀ n, |y (n + 1) - y n| ≤ v) {a b : ℕ} (hab : a ≤ b)
    (h : y a / m + 2 ≤ y (b + 1) / m ∨ y (b + 1) / m + 2 ≤ y a / m) :
    m / v ≤ ((b - a : ℕ) : ℤ) := by
  have hfar : m < |y (b + 1) - y a| := by
    rcases h with h | h
    · exact lt_abs.mpr (.inl (lt_sub_of_whole hm h))
    · exact lt_abs.mpr (.inr (by have := lt_sub_of_whole hm h; omega))
  have hnear := moved_le hy (Nat.le_succ_of_le hab)
  rw [Nat.succ_sub hab] at hnear
  have hlt : m / v < ((b - a).succ : ℕ) := Int.ediv_lt_of_lt_mul hv (by linarith)
  push_cast at hlt
  omega

end Vp2Motion.Clocked.Crossing
