import Mathlib.Algebra.BigOperators.Intervals
import Mathlib.Algebra.BigOperators.Ring.Finset
import Mathlib.Tactic.Ring

namespace Vp2Motion.Clocked.Integrator
open Finset

variable {R S : Type*} [CommRing R] [CommRing S]

def ramp (a j : R) (n : ℕ) : R := a + n * j

/-- A register that adds a `ramp` register on every tick, both sampled before
the tick. -/
def curve (v a j : R) (n : ℕ) : R := v + n * a + n.choose 2 * j

@[simp] theorem ramp_zero (a j : R) : ramp a j 0 = a := by simp [ramp]

@[simp] theorem curve_zero (v a j : R) : curve v a j 0 = v := by simp [curve]

theorem ramp_succ (a j : R) (n : ℕ) : ramp a j (n + 1) = ramp a j n + j := by
  simp only [ramp, Nat.cast_add, Nat.cast_one]
  ring

theorem curve_succ (v a j : R) (n : ℕ) : curve v a j (n + 1) = curve v a j n + ramp a j n := by
  have hc : (n + 1).choose 2 = n + n.choose 2 := by
    rw [Nat.choose_succ_succ' n 1, Nat.choose_one_right]
  simp only [curve, ramp, hc, Nat.cast_add, Nat.cast_one]
  ring

theorem map_curve (f : R →+* S) (v a j : R) (n : ℕ) :
    f (curve v a j n) = curve (f v) (f a) (f j) n := by
  simp [curve]

/-- The third accumulator of the chain, again with the values before each tick. -/
theorem sum_curve (v a j : R) (n : ℕ) :
    ∑ k ∈ range n, curve v a j k = n * v + n.choose 2 * a + n.choose 3 * j := by
  induction n with
  | zero => simp
  | succ n ih =>
    have h2 : (n + 1).choose 2 = n + n.choose 2 := by
      rw [Nat.choose_succ_succ' n 1, Nat.choose_one_right]
    have h3 : (n + 1).choose 3 = n.choose 2 + n.choose 3 := Nat.choose_succ_succ' n 2
    rw [sum_range_succ, ih, h2, h3]
    simp only [curve, Nat.cast_add, Nat.cast_one]
    ring

/-- A value held for `d` clocks per tick is added `d` times per tick. -/
theorem sum_held (f : ℕ → R) (d n : ℕ) (hd : 0 < d) :
    ∑ i ∈ range (n * d), f (i / d) = d * ∑ k ∈ range n, f k := by
  induction n with
  | zero => simp
  | succ n ih =>
    have hblock : ∀ i ∈ range d, f ((n * d + i) / d) = f n := by
      intro i hi
      rw [Nat.add_comm, Nat.add_mul_div_right _ _ hd, Nat.div_eq_of_lt (mem_range.mp hi),
        Nat.zero_add]
    rw [Nat.succ_mul, sum_range_add, ih, sum_congr rfl hblock, sum_range_succ]
    simp only [sum_const, card_range, nsmul_eq_mul]
    ring

/-- The same sum in the middle of a tick, after `m` of its clocks. -/
theorem sum_held_add (f : ℕ → R) {d m : ℕ} (n : ℕ) (hm : m ≤ d) (hd : 0 < d) :
    ∑ i ∈ range (n * d + m), f (i / d) = d * ∑ k ∈ range n, f k + m * f n := by
  have hblock : ∀ i ∈ range m, f ((n * d + i) / d) = f n := by
    intro i hi
    have hid : i < d := Nat.lt_of_lt_of_le (mem_range.mp hi) hm
    rw [Nat.add_comm, Nat.add_mul_div_right _ _ hd, Nat.div_eq_of_lt hid, Nat.zero_add]
  rw [sum_range_add, sum_held f d n hd, sum_congr rfl hblock]
  simp only [sum_const, card_range, nsmul_eq_mul]

end Vp2Motion.Clocked.Integrator
