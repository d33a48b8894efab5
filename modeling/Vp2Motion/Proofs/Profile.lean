import Vp2Motion.Clocked.Integrator
import Vp2Motion.Proofs.Segment

namespace Vp2Motion.Proofs.Profile
open Hdl Clocked Clocked.Integrator Segment

variable {r : Run (UserLogic.clock false)} {t : ℕ} {d s : BitVec 32}

/-- The profile after `n` strobes from the values a load left behind. -/
structure Follows (p : AccProfileGen) (n : ℕ) (q : AccProfileGen) : Prop where
  v : q.v = curve p.v p.a p.j n
  a : q.a = ramp p.a p.j n
  j : q.j = p.j

theorem follows_refl (p : AccProfileGen) : Follows p 0 p := by
  constructor <;> simp

theorem Follows.strobe {p : AccProfileGen} {u : UserLogic} (h : Follows p n u.accProfileGen)
    (hl : u.load false = false) (hs : u.accStepGen.stepStb false = true) (wr : Option BusWrite) :
    Follows p (n + 1) (UserLogic.clock false wr u).accProfileGen := by
  obtain ⟨-, hv, ha, hj⟩ := UserLogic.profile_of_no_load u wr hl
  constructor
  · rw [hv, if_pos hs, curve_succ, h.v, h.a]
  · rw [ha, if_pos hs, ramp_succ, h.a, h.j]
  · rw [hj, h.j]

theorem Follows.hold {p : AccProfileGen} {u : UserLogic} (h : Follows p n u.accProfileGen)
    (hl : u.load false = false) (hs : u.accStepGen.stepStb false = false) (wr : Option BusWrite) :
    Follows p n (UserLogic.clock false wr u).accProfileGen := by
  obtain ⟨-, hv, ha, hj⟩ := UserLogic.profile_of_no_load u wr hl
  constructor
  · rw [hv, hs, h.v]
    simp
  · rw [ha, hs, h.a]
    simp
  · rw [hj, h.j]

/-- The profile on the `m`-th clock of a segment: one strobe per full tick. -/
theorem follows_at (h : SegmentAt r t d s) (hm : m < s.toNat * d.toNat) :
    Follows (r.state (t + 1)).accProfileGen (m / d.toNat)
      (r.state (t + 1 + m)).accProfileGen := by
  induction m with
  | zero =>
    rw [Nat.zero_div]
    exact follows_refl _
  | succ m ih =>
    have hprev := ih (by omega)
    have hl := h.no_load (c := t + 1 + m) (by omega) (by omega)
    have hstb := (h.running (m := m) (by omega)).strobe h.dtPos
    rw [← Nat.add_assoc, r.next (t + 1 + m)]
    by_cases hdvd : d.toNat ∣ m + 1
    · rw [Nat.succ_div_of_dvd hdvd]
      exact hprev.strobe hl (hstb.mpr hdvd) _
    · rw [Nat.succ_div_of_not_dvd hdvd]
      exact hprev.hold hl (by rwa [Bool.eq_false_iff, ne_eq, hstb]) _

/-- The values on the clock of `done`: the last strobe is still to come. -/
theorem follows_at_done (h : SegmentAt r t d s) :
    Follows (r.state (t + 1)).accProfileGen (s.toNat - 1)
      (r.state (t + s.toNat * d.toNat)).accProfileGen := by
  have hpos := h.length_pos
  have hq : (s.toNat * d.toNat - 1) / d.toNat = s.toNat - 1 := by
    have hk := Nat.succ_div_of_dvd (a := s.toNat * d.toNat - 1) (b := d.toNat)
      ⟨s.toNat, by rw [Nat.sub_add_cancel hpos, Nat.mul_comm]⟩
    rw [Nat.sub_add_cancel hpos, Nat.mul_div_cancel _ h.dtPos] at hk
    exact Nat.eq_sub_of_add_eq hk.symm
  have hf := follows_at h (m := s.toNat * d.toNat - 1) (by omega)
  rwa [hq, show t + 1 + (s.toNat * d.toNat - 1) = t + s.toNat * d.toNat by omega] at hf

theorem strobe_at_done (h : SegmentAt r t d s) :
    (r.state (t + s.toNat * d.toNat)).accStepGen.stepStb false = true := by
  have hpos := h.length_pos
  exact (h.strobe_iff (by omega) le_rfl).mpr ⟨s.toNat, h.stepsPos, le_rfl, rfl⟩

/-- Without a pending command the last strobe is applied. -/
theorem follows_after (h : SegmentAt r t d s)
    (hs : (r.state (t + s.toNat * d.toNat)).start = false) :
    Follows (r.state (t + 1)).accProfileGen s.toNat
      (r.state (t + s.toNat * d.toNat + 1)).accProfileGen := by
  have hl : (r.state (t + s.toNat * d.toNat)).load false = false := by rw [h.load_at_end, hs]
  have hf := (follows_at_done h).strobe hl (strobe_at_done h) (r.input (t + s.toNat * d.toNat))
  rwa [Nat.sub_add_cancel h.stepsPos, ← r.next] at hf

theorem position_at (h : SegmentAt r t d s) (hm : m < s.toNat * d.toNat) :
    (r.state (t + 1 + m)).accProfileGen.x = (r.state (t + 1)).accProfileGen.x +
      ∑ i ∈ Finset.range m, (r.state (t + 1 + i)).accProfileGen.v.signExtend 64 := by
  induction m with
  | zero => simp
  | succ m ih =>
    have hl := h.no_load (c := t + 1 + m) (by omega) (by omega)
    obtain ⟨hx, -⟩ := UserLogic.profile_of_no_load _ (r.input (t + 1 + m)) hl
    rw [← Nat.add_assoc, r.next (t + 1 + m), hx, AccProfileGen.xAcc, ih (by omega),
      Finset.sum_range_succ, add_assoc]

/-- What the accumulator would hold after the clock of `done`. -/
theorem xAcc_at_done (h : SegmentAt r t d s) :
    (r.state (t + s.toNat * d.toNat)).accProfileGen.xAcc = (r.state (t + 1)).accProfileGen.x +
      ∑ i ∈ Finset.range (s.toNat * d.toNat),
        (curve (r.state (t + 1)).accProfileGen.v (r.state (t + 1)).accProfileGen.a
          (r.state (t + 1)).accProfileGen.j (i / d.toNat)).signExtend 64 := by
  have hpos := h.length_pos
  have hlast : t + s.toNat * d.toNat = t + 1 + (s.toNat * d.toNat - 1) := by omega
  have hsum : ∀ i ∈ Finset.range (s.toNat * d.toNat),
      (r.state (t + 1 + i)).accProfileGen.v.signExtend 64 =
        (curve (r.state (t + 1)).accProfileGen.v (r.state (t + 1)).accProfileGen.a
          (r.state (t + 1)).accProfileGen.j (i / d.toNat)).signExtend 64 := by
    intro i hi
    rw [(follows_at h (Finset.mem_range.mp hi)).v]
  rw [AccProfileGen.xAcc, hlast, position_at h (by omega), add_assoc, ← Finset.sum_range_succ,
    Nat.sub_add_cancel hpos, Finset.sum_congr rfl hsum]

/-- The position after the clock of `done`. A load on that clock does not stop
the accumulator unless it sets the position. -/
theorem position_after (h : SegmentAt r t d s)
    (hx : (r.state (t + s.toNat * d.toNat)).setX = false) :
    (r.state (t + s.toNat * d.toNat + 1)).accProfileGen.x = (r.state (t + 1)).accProfileGen.x +
      d.toNat * ∑ k ∈ Finset.range s.toNat,
        (curve (r.state (t + 1)).accProfileGen.v (r.state (t + 1)).accProfileGen.a
          (r.state (t + 1)).accProfileGen.j k).signExtend 64 := by
  have hacc : (r.state (t + s.toNat * d.toNat + 1)).accProfileGen.x =
      (r.state (t + s.toNat * d.toNat)).accProfileGen.xAcc := by
    rw [r.next]
    simp [UserLogic.clock, AccProfileGen.clock, UserLogic.profileInputs, hx]
  rw [hacc, xAcc_at_done h,
    sum_held (fun k => (curve (r.state (t + 1)).accProfileGen.v
      (r.state (t + 1)).accProfileGen.a (r.state (t + 1)).accProfileGen.j k).signExtend 64) _ _
      h.dtPos]

/-- A stopped core has no strobes, so it keeps velocity and acceleration until
the next load. -/
theorem follows_until_load {p : AccProfileGen} (hmn : m ≤ c)
    (hf : Follows p n (r.state m).accProfileGen) (hs : (r.state m).stopped = true)
    (hl : ∀ k, m ≤ k → k < c → (r.state k).load false = false) :
    Follows p n (r.state c).accProfileGen := by
  refine r.indexed (P := fun _ u => Follows p n u.accProfileGen) hmn hf ?_
  intro k hk hkc hfk
  have hstop := stopped_until_load r hk hs (fun i hi hik => hl i hi (by omega))
  apply hfk.hold (hl k hk hkc)
  simp only [UserLogic.stopped] at hstop
  simp [AccStepGen.stepStb, hstop]

end Vp2Motion.Proofs.Profile
