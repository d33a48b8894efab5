import Mathlib.Tactic.IntervalCases
import Vp2Motion.Proofs.Profile

namespace Vp2Motion.Proofs.ClosedForm
open Hdl Clocked Clocked.Integrator Segment Profile

variable {r : Run (UserLogic.clock false)} {t : ℕ} {d s : BitVec 32}

/-- The velocity of the `k`-th tick after the values `p`, read as a signed word. -/
def tickV (p : AccProfileGen) (k : ℕ) : ℤ := (curve p.v p.a p.j k).toInt

/-- The way made in `n` ticks of `d` clocks and `m` clocks of the next one. -/
def travel (p : AccProfileGen) (d n m : ℕ) : ℤ :=
  d * ∑ k ∈ Finset.range n, tickV p k + m * tickV p n

/-- The same without wraparound, as a polynomial in the number of ticks. -/
def polynomial (p : AccProfileGen) (d n m : ℕ) : ℤ :=
  d * (n * p.v.toInt + n.choose 2 * p.a.toInt + n.choose 3 * p.j.toInt) +
    m * curve p.v.toInt p.a.toInt p.j.toInt n

/-- Neither velocity nor acceleration leaves the signed 32-bit range up to tick `n`. -/
def NoWrap (p : AccProfileGen) (n : ℕ) : Prop :=
  ∀ k, k ≤ n →
    (-2 ^ 31 ≤ curve p.v.toInt p.a.toInt p.j.toInt k ∧
      curve p.v.toInt p.a.toInt p.j.toInt k < 2 ^ 31) ∧
    (-2 ^ 31 ≤ ramp p.a.toInt p.j.toInt k ∧ ramp p.a.toInt p.j.toInt k < 2 ^ 31)

theorem cast_toInt (b : BitVec 32) : ((b.toInt : ℤ) : BitVec 32) = b := BitVec.ofInt_toInt

theorem tickV_of_no_wrap {p : AccProfileGen} (h : NoWrap p n) (hk : k ≤ n) :
    tickV p k = curve p.v.toInt p.a.toInt p.j.toInt k := by
  have hcast := map_curve (Int.castRingHom (BitVec 32)) p.v.toInt p.a.toInt p.j.toInt k
  simp only [Int.coe_castRingHom, cast_toInt] at hcast
  rw [tickV, ← hcast]
  exact BitVec.toInt_ofInt_eq_self (by decide) (h k hk).1.1 (h k hk).1.2

theorem travel_of_no_wrap {p : AccProfileGen} (h : NoWrap p n) (d m : ℕ) :
    travel p d n m = polynomial p d n m := by
  have hsum : ∑ k ∈ Finset.range n, tickV p k =
      ∑ k ∈ Finset.range n, curve p.v.toInt p.a.toInt p.j.toInt k := by
    refine Finset.sum_congr rfl ?_
    intro k hk
    exact tickV_of_no_wrap h (Nat.le_of_lt (Finset.mem_range.mp hk))
  rw [travel, hsum, sum_curve, tickV_of_no_wrap h (Nat.le_refl n), polynomial]

/-- A signed sum of velocities, added to the 64-bit accumulator. -/
theorem travel_cast (p : AccProfileGen) (n : ℕ) {d m : ℕ} (hm : m ≤ d) (hd : 0 < d) :
    ∑ i ∈ Finset.range (n * d + m), (curve p.v p.a p.j (i / d)).signExtend 64 =
      ((travel p d n m : ℤ) : BitVec 64) := by
  have hcast : ∀ k, (curve p.v p.a p.j k).signExtend 64 = ((tickV p k : ℤ) : BitVec 64) :=
    fun _ => rfl
  rw [sum_held_add (fun k => (curve p.v p.a p.j k).signExtend 64) n hm hd, travel]
  simp only [hcast]
  push_cast
  rfl

theorem position_in_tick (h : SegmentAt r t d s) (hn : n < s.toNat) (hm : m < d.toNat) :
    (r.state (t + 1 + (n * d.toNat + m))).accProfileGen.x = (r.state (t + 1)).accProfileGen.x +
      ((travel (r.state (t + 1)).accProfileGen d.toNat n m : ℤ) : BitVec 64) := by
  have hlt : n * d.toNat + m < s.toNat * d.toNat := by
    have := Nat.mul_le_mul_right d.toNat (show n + 1 ≤ s.toNat from hn)
    rw [Nat.succ_mul] at this
    omega
  have hv : ∀ i ∈ Finset.range (n * d.toNat + m),
      (r.state (t + 1 + i)).accProfileGen.v.signExtend 64 =
        (curve (r.state (t + 1)).accProfileGen.v (r.state (t + 1)).accProfileGen.a
          (r.state (t + 1)).accProfileGen.j (i / d.toNat)).signExtend 64 := by
    intro i hi
    rw [(follows_at h (Nat.lt_trans (Finset.mem_range.mp hi) hlt)).v]
  rw [position_at h hlt, Finset.sum_congr rfl hv, travel_cast _ n (Nat.le_of_lt hm) h.dtPos]

theorem profile_in_tick (h : SegmentAt r t d s) (hn : n < s.toNat) (hm : m < d.toNat) :
    Follows (r.state (t + 1)).accProfileGen n
      (r.state (t + 1 + (n * d.toNat + m))).accProfileGen := by
  have hlt : n * d.toNat + m < s.toNat * d.toNat := by
    have := Nat.mul_le_mul_right d.toNat (show n + 1 ≤ s.toNat from hn)
    rw [Nat.succ_mul] at this
    omega
  have hq : (n * d.toNat + m) / d.toNat = n := by
    rw [Nat.add_comm, Nat.add_mul_div_right _ _ h.dtPos, Nat.div_eq_of_lt hm, Nat.zero_add]
  have hf := follows_at h hlt
  rwa [hq] at hf

theorem travel_succ (p : AccProfileGen) (d n m : ℕ) :
    travel p d n (m + 1) = travel p d n m + tickV p n := by
  simp only [travel, Nat.cast_add, Nat.cast_one]
  ring

/-- The clock after `done` when nothing is loaded on it. -/
theorem position_at_end (h : SegmentAt r t d s)
    (hs : (r.state (t + s.toNat * d.toNat)).start = false) :
    (r.state (t + s.toNat * d.toNat + 1)).accProfileGen.x = (r.state (t + 1)).accProfileGen.x +
      ((travel (r.state (t + 1)).accProfileGen d.toNat s.toNat 0 : ℤ) : BitVec 64) := by
  have hl : (r.state (t + s.toNat * d.toNat)).load false = false := by rw [h.load_at_end, hs]
  obtain ⟨hx, -⟩ := UserLogic.profile_of_no_load _ (r.input (t + s.toNat * d.toNat)) hl
  have hsum := travel_cast (r.state (t + 1)).accProfileGen s.toNat (Nat.zero_le d.toNat) h.dtPos
  rw [Nat.add_zero] at hsum
  rw [r.next, hx, xAcc_at_done h, hsum]

/-- A stopped core keeps moving at the velocity it stopped with. -/
theorem position_after_end (h : SegmentAt r t d s)
    (hs : (r.state (t + s.toNat * d.toNat)).start = false)
    (hl : ∀ k, k < m → (r.state (t + s.toNat * d.toNat + 1 + k)).load false = false) :
    Follows (r.state (t + 1)).accProfileGen s.toNat
      (r.state (t + s.toNat * d.toNat + 1 + m)).accProfileGen ∧
    (r.state (t + s.toNat * d.toNat + 1 + m)).accProfileGen.x =
      (r.state (t + 1)).accProfileGen.x +
        ((travel (r.state (t + 1)).accProfileGen d.toNat s.toNat m : ℤ) : BitVec 64) := by
  have hkept : ∀ k, k ≤ m → Follows (r.state (t + 1)).accProfileGen s.toNat
      (r.state (t + s.toNat * d.toNat + 1 + k)).accProfileGen := by
    intro k hk
    refine follows_until_load (Nat.le_add_right _ k) (follows_after h hs) (h.stopped_after hs) ?_
    intro i hi hik
    have hfree := hl (i - (t + s.toNat * d.toNat + 1)) (by omega)
    rwa [Nat.add_sub_cancel' hi] at hfree
  refine ⟨hkept m (Nat.le_refl m), ?_⟩
  induction m with
  | zero => exact position_at_end h hs
  | succ m ih =>
    have hprev := ih (fun k hk => hl k (by omega)) (fun k hk => hkept k (by omega))
    obtain ⟨hx, -⟩ := UserLogic.profile_of_no_load _
      (r.input (t + s.toNat * d.toNat + 1 + m)) (hl m (by omega))
    rw [← Nat.add_assoc, r.next, hx, AccProfileGen.xAcc, hprev, (hkept m (by omega)).v,
      travel_succ, Int.cast_add, add_assoc]
    rfl

/-- The law of a segment, from the values `p` on its first clock: on clock `m` of
tick `n` and, if it ends without a successor, on every clock up to the next load. -/
theorem profile_closed_form (r : Run (UserLogic.clock false)) (t : ℕ) (d s : BitVec 32)
    (p : AccProfileGen) (h : SegmentAt r t d s) (hp : (r.state (t + 1)).accProfileGen = p) :
    (∀ n m, n < s.toNat → m < d.toNat →
      (r.state (t + 1 + (n * d.toNat + m))).accProfileGen.a = p.a + n * p.j ∧
      (r.state (t + 1 + (n * d.toNat + m))).accProfileGen.v =
        p.v + n * p.a + (n.choose 2 : ℕ) * p.j ∧
      (r.state (t + 1 + (n * d.toNat + m))).accProfileGen.x =
        p.x + BitVec.ofInt 64 (d.toNat * ∑ k ∈ Finset.range n, tickV p k + m * tickV p n) ∧
      (NoWrap p n →
        (r.state (t + 1 + (n * d.toNat + m))).accProfileGen.x =
          p.x + BitVec.ofInt 64 (polynomial p d.toNat n m))) ∧
    ((r.state (t + s.toNat * d.toNat)).start = false →
      ∀ m, (∀ k, k < m → (r.state (t + s.toNat * d.toNat + 1 + k)).load false = false) →
        (r.state (t + s.toNat * d.toNat + 1 + m)).accProfileGen.a = p.a + s.toNat * p.j ∧
        (r.state (t + s.toNat * d.toNat + 1 + m)).accProfileGen.v =
          p.v + s.toNat * p.a + (s.toNat.choose 2 : ℕ) * p.j ∧
        (r.state (t + s.toNat * d.toNat + 1 + m)).accProfileGen.x =
          p.x + BitVec.ofInt 64
            (d.toNat * ∑ k ∈ Finset.range s.toNat, tickV p k + m * tickV p s.toNat)) := by
  subst hp
  refine ⟨?_, ?_⟩
  · intro n m hn hm
    have hf := profile_in_tick h hn hm
    have hx := position_in_tick h hn hm
    refine ⟨hf.a, hf.v, hx, ?_⟩
    intro hw
    rw [hx, travel_of_no_wrap hw]
    rfl
  · intro hs m hl
    obtain ⟨hf, hx⟩ := position_after_end h hs hl
    exact ⟨hf.a, hf.v, hx⟩

/-- Two ticks of three clocks with an acceleration of 5 and a jerk of 1. -/
def jerked : Run (UserLogic.clock false) :=
  .ofInputs _ .initial fun n =>
    [some (.full (.reg .nextDt) 3), some (.full (.reg .nextSteps) 2),
      some (.full (.reg .nextA) 5), some (.full (.reg .nextJ) 1),
      some (.full (.reg .cmd) 0b11001)].getD n none

/-- Five clocks into the segment the accumulator is at `3 * 0 + 2 * 5`, and four
clocks after it has stopped at `3 * (0 + 5) + 4 * 11`. -/
theorem jerked_closed_form :
    SegmentAt jerked 5 3 2 ∧ NoWrap (jerked.state 6).accProfileGen 1 ∧
      (jerked.state 11).accProfileGen.x = 10 ∧ (jerked.state 16).accProfileGen.x = 59 := by
  have hs : SegmentAt jerked 5 3 2 := ⟨by decide, by decide, by decide, by decide, by decide⟩
  have hw : NoWrap (jerked.state 6).accProfileGen 1 := by
    intro k hk
    interval_cases k <;> decide
  obtain ⟨hin, hafter⟩ := profile_closed_form jerked 5 3 2 _ hs rfl
  refine ⟨hs, hw, ?_, ?_⟩
  · exact ((hin 1 2 (by decide) (by decide)).2.2.2 hw).trans (by decide)
  · refine (hafter (by decide) 4 ?_).2.2.trans (by decide)
    intro k hk
    interval_cases k <;> decide

end Vp2Motion.Proofs.ClosedForm
