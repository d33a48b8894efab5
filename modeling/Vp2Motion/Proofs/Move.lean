import Mathlib.Tactic.FieldSimp
import Mathlib.Data.Nat.Choose.Cast
import Mathlib.Data.Rat.Floor
import Vp2Motion.Firmware.System
import Vp2Motion.Proofs.Profile

namespace Vp2Motion.Proofs.Move
open Hdl Clocked Clocked.Integrator Firmware Segment Profile

/-- Acceleration and jerk of a move by `dx` steps in `n` ticks, in register
units and before truncation. -/
def restA (dx : ℚ) (n : ℕ) : ℚ := 6 * dx * 2 ^ 40 / (400000 * n ^ 2)
def restJ (dx : ℚ) (n : ℕ) : ℚ := -12 * dx * 2 ^ 40 / (400000 * n ^ 3)

theorem plan_rest {cur next : Target ℚ} {n : ℕ} (hn : 1 ≤ n) (hc : cur.v = 0) (hv : next.v = 0)
    (ht : next.dt * accFreq = n) :
    plan cur next = ⟨n, restA (next.x - cur.x) n, restJ (next.x - cur.x) n⟩ := by
  have hpos : (n : ℚ) ≠ 0 := by positivity
  have hdt : next.dt = n / 250 := by
    rw [← ht, accFreq]
    norm_num
  have hplan : plan cur next =
      let dx := next.x - cur.x
      let kb := 3 * dx / (next.dt * next.dt) - (2 * cur.v + next.v) / next.dt
      let ka := (next.v - cur.v) / (3 * (next.dt * next.dt)) - 2 * kb / (3 * next.dt)
      ⟨next.dt * 250, 2 * kb * 2 ^ 40 / 100000000 / 250,
        6 * ka * 2 ^ 40 / 100000000 / 250 / 250⟩ := by
    unfold plan
    simp only [stepBit, stepFreq, accFreq]
    norm_num
  rw [hplan]
  simp only [hc, hv, hdt, restA, restJ, Plan.mk.injEq]
  refine ⟨?_, ?_, ?_⟩
  · field_simp
  · field_simp
    ring
  · field_simp
    ring

theorem cast_choose_three (n : ℕ) : (n.choose 3 : ℚ) = n * (n - 1) * (n - 2) / 6 := by
  induction n with
  | zero => simp
  | succ n ih =>
    rw [Nat.choose_succ_succ' n 2, Nat.cast_add, ih, Nat.cast_choose_two, Nat.cast_add_one]
    ring

def ticks (a j : ℤ) (n : ℕ) : ℤ := n.choose 2 * a + n.choose 3 * j

/-- How far the sum over ticks of the truncated values misses `dx` steps: the
excess of the sum over the integral, less what the casts cut off. -/
def planError (dx : ℚ) (n : ℕ) : ℚ :=
  2 ^ 40 * dx * (3 * n - 4) / n ^ 2 -
    400000 * (n.choose 2 * (restA dx n - truncate (restA dx n)) +
      n.choose 3 * (restJ dx n - truncate (restJ dx n)))

theorem plan_error_eq (dx : ℚ) {n : ℕ} (hn : 1 ≤ n) :
    planError dx n =
      400000 * ticks (truncate (restA dx n)) (truncate (restJ dx n)) n - 2 ^ 40 * dx := by
  have hpos : (n : ℚ) ≠ 0 := by positivity
  have h2 : (n.choose 2 : ℚ) = n * (n - 1) / 2 := Nat.cast_choose_two ℚ n
  have h3 := cast_choose_three n
  have hexact : 400000 * (n.choose 2 * restA dx n + n.choose 3 * restJ dx n) =
      2 ^ 40 * dx + 2 ^ 40 * dx * (3 * n - 4) / n ^ 2 := by
    rw [h2, h3, restA, restJ]
    field_simp
    ring
  rw [planError, ticks]
  push_cast
  linarith

def Fits (z : ℤ) : Prop := -2 ^ 31 ≤ z ∧ z < 2 ^ 31

/-- The load of a move from rest to rest in `n` ticks, with the words that
`unqueue_move` writes for it. -/
structure MoveAt (r : Run (UserLogic.clock false)) (t : ℕ) (cur next : Target ℚ) (n : ℕ) :
    Prop where
  ticks : next.dt * accFreq = n
  positive : 1 ≤ n
  curV : cur.v = 0
  nextV : next.v = 0
  load : (r.state t).load false = true
  cmd : (r.state t).reg .cmd = (Call.move cur next).cmd
  dt : (r.state t).reg .nextDt = BitVec.ofNat 32 (stepFreq / accFreq)
  steps : (r.state t).reg .nextSteps = (Call.move cur next).steps
  a : (r.state t).reg .nextA = (Call.move cur next).a
  j : (r.state t).reg .nextJ = (Call.move cur next).j
  x : ((r.state t).accProfileGen.x.toInt : ℚ) = 2 ^ stepBit * cur.x
  v : (r.state t).accProfileGen.v = 0
  stepsFit : n < 2 ^ 32
  aFits : ∀ k, k ≤ n → Fits (ramp (truncate (plan cur next).a) (truncate (plan cur next).j) k)
  jFits : Fits (truncate (plan cur next).j)
  vFits : ∀ k, k ≤ n → Fits (curve 0 (truncate (plan cur next).a) (truncate (plan cur next).j) k)
  noSetX : (r.state (t + n * (stepFreq / accFreq))).setX = false

/-- When the segment is over, the accumulator is within one motor step of the
target. -/
def Lands (r : Run (UserLogic.clock false)) (t : ℕ) (next : Target ℚ) (n : ℕ) : Prop :=
  |((r.state (t + n * (stepFreq / accFreq) + 1)).accProfileGen.x.toInt : ℚ) -
    2 ^ stepBit * next.x| ≤ 2 ^ stepBit

theorem sign_extend_cast {z : ℤ} (h : Fits z) :
    ((z : BitVec 32).signExtend 64 : BitVec 64) = (z : BitVec 64) := by
  have hz : (BitVec.ofInt 32 z).toInt = z :=
    BitVec.toInt_ofInt_eq_self (by decide) h.1 h.2
  change BitVec.ofInt 64 (BitVec.ofInt 32 z).toInt = BitVec.ofInt 64 z
  rw [hz]

variable {r : Run (UserLogic.clock false)} {t : ℕ} {cur next : Target ℚ} {n : ℕ}

theorem MoveAt.plan (h : MoveAt r t cur next n) :
    plan cur next = ⟨n, restA (next.x - cur.x) n, restJ (next.x - cur.x) n⟩ :=
  plan_rest h.positive h.curV h.nextV h.ticks

theorem MoveAt.steps_eq (h : MoveAt r t cur next n) :
    ((Call.move cur next).steps : BitVec 32).toNat = n := by
  have htrunc : truncate (n : ℚ) = n := by simp [truncate]
  change (BitVec.ofInt 32 (truncate (Firmware.plan cur next).dt)).toNat = n
  rw [h.plan]
  simp only [htrunc]
  simpa using h.stepsFit

theorem MoveAt.segment (h : MoveAt r t cur next n) :
    SegmentAt r t (BitVec.ofNat 32 (stepFreq / accFreq)) (Call.move cur next).steps where
  load := h.load
  dt := h.dt
  steps := h.steps
  dtPos := by decide
  stepsPos := by rw [h.steps_eq]; exact h.positive

/-- The load starts from rest with the truncated plan. -/
theorem MoveAt.profile (h : MoveAt r t cur next n) :
    (r.state (t + 1)).accProfileGen.x = (r.state t).accProfileGen.x ∧
    (r.state (t + 1)).accProfileGen.v = 0 ∧
    (r.state (t + 1)).accProfileGen.a = ((truncate (Firmware.plan cur next).a : ℤ) : BitVec 32) ∧
    (r.state (t + 1)).accProfileGen.j = ((truncate (Firmware.plan cur next).j : ℤ) : BitVec 32) := by
  obtain ⟨hx, hv, ha, hj⟩ := UserLogic.profile_of_load (r.state t) (r.input t) h.load
  have hflags : (r.state t).setX = false ∧ (r.state t).setV = false ∧ (r.state t).setA = true ∧
      (r.state t).setJ = true := by
    simp [UserLogic.setX, UserLogic.setV, UserLogic.setA, UserLogic.setJ, h.cmd, Call.cmd,
      motionCmdStartMask, motionCmdSetAMask, motionCmdSetJMask]
  obtain ⟨hsx, hsv, hsa, hsj⟩ := hflags
  rw [r.next, hx, hv, ha, hj, hsx, hsv, hsa, hsj, h.a, h.j, h.v]
  refine ⟨?_, rfl, rfl, rfl⟩
  simp [AccProfileGen.xAcc, h.v]

/-- Where the accumulator ends: the sum over all ticks, on the 64-bit circle. -/
theorem MoveAt.end_position (h : MoveAt r t cur next n) :
    (r.state (t + n * (stepFreq / accFreq) + 1)).accProfileGen.x.toInt =
      ((r.state t).accProfileGen.x.toInt +
        400000 * Move.ticks (truncate (Firmware.plan cur next).a)
          (truncate (Firmware.plan cur next).j) n).bmod (2 ^ 64) := by
  obtain ⟨hx, hv, ha, hj⟩ := h.profile
  have hd : (BitVec.ofNat 32 (stepFreq / accFreq)).toNat = stepFreq / accFreq := by decide
  have hcast : ((stepFreq / accFreq : ℕ) : BitVec 64) = ((400000 : ℤ) : BitVec 64) := by decide
  have hsum : ∀ k ∈ Finset.range n,
      (curve (r.state (t + 1)).accProfileGen.v (r.state (t + 1)).accProfileGen.a
        (r.state (t + 1)).accProfileGen.j k).signExtend 64 =
      ((curve 0 (truncate (Firmware.plan cur next).a) (truncate (Firmware.plan cur next).j) k :
        ℤ) : BitVec 64) := by
    intro k hk
    have hcast := map_curve (Int.castRingHom (BitVec 32)) 0 (truncate (Firmware.plan cur next).a)
      (truncate (Firmware.plan cur next).j) k
    simp only [Int.coe_castRingHom, Int.cast_zero] at hcast
    rw [hv, ha, hj, ← hcast, sign_extend_cast (h.vFits k (Finset.mem_range.mp hk).le)]
  have hend := position_after h.segment
  rw [h.steps_eq, hd] at hend
  rw [hend h.noSetX, hx, Finset.sum_congr rfl hsum, ← Int.cast_sum, sum_curve, hcast,
    ← Int.cast_mul, BitVec.toInt_add, BitVec.toInt_intCast, Int.add_bmod_bmod]
  simp only [mul_zero, zero_add, Move.ticks]

theorem bmod_eq_sub (e : ℤ) : e.bmod (2 ^ 64) = e - 2 ^ 64 * ((e + 2 ^ 63) / 2 ^ 64) := by
  rw [Int.bmod_def]
  split <;> omega

/-- A move lands exactly when its planning error, less the wraps of the
accumulator, is at most one step. -/
theorem lands_exactly_when (r : Run (UserLogic.clock false)) (t : ℕ) (cur next : Target ℚ)
    (n : ℕ) (h : MoveAt r t cur next n) :
    Lands r t next n ↔
      |planError (next.x - cur.x) n - 2 ^ 64 *
        (⌊(2 ^ stepBit * next.x + planError (next.x - cur.x) n + 2 ^ 63) / 2 ^ 64⌋ : ℤ)| ≤
        2 ^ stepBit := by
  have hend := h.end_position
  rw [h.plan] at hend
  generalize hs : Move.ticks (truncate (restA (next.x - cur.x) n))
    (truncate (restJ (next.x - cur.x) n)) n = s at hend
  have herr : planError (next.x - cur.x) n = 400000 * s - 2 ^ 40 * (next.x - cur.x) := by
    rw [plan_error_eq _ h.positive, hs]
  have hx := h.x
  generalize (r.state t).accProfileGen.x.toInt = x at hx hend
  have hsum : 2 ^ stepBit * next.x + planError (next.x - cur.x) n = ((x + 400000 * s : ℤ) : ℚ) := by
    rw [herr]
    push_cast
    rw [hx, stepBit]
    ring
  have hfloor : ⌊(2 ^ stepBit * next.x + planError (next.x - cur.x) n + 2 ^ 63) / 2 ^ 64⌋ =
      (x + 400000 * s + 2 ^ 63) / 2 ^ 64 := by
    have hdiv := Rat.floor_intCast_div_natCast (x + 400000 * s + 2 ^ 63) (2 ^ 64)
    rw [hsum]
    exact_mod_cast hdiv
  have hmiss : (((x + 400000 * s - 2 ^ 64 * ((x + 400000 * s + 2 ^ 63) / 2 ^ 64) : ℤ) : ℚ) -
      2 ^ stepBit * next.x) = planError (next.x - cur.x) n -
        2 ^ 64 * (((x + 400000 * s + 2 ^ 63) / 2 ^ 64 : ℤ) : ℚ) := by
    rw [Int.cast_sub, ← hsum]
    push_cast
    ring
  rw [Lands, hend, bmod_eq_sub, hfloor, hmiss]

/-- A core at rest at position zero that is about to load a move to `next`. -/
def issued (next : Target ℚ) : UserLogic :=
  { UserLogic.initial with
    reg := fun r =>
      match r with
      | .cmd => (Call.move ⟨0, 0, 0⟩ next).cmd
      | .nextDt => BitVec.ofNat 32 (stepFreq / accFreq)
      | .nextSteps => (Call.move ⟨0, 0, 0⟩ next).steps
      | .nextA => (Call.move ⟨0, 0, 0⟩ next).a
      | .nextJ => (Call.move ⟨0, 0, 0⟩ next).j
      | _ => 0 }

def fromZero (next : Target ℚ) : Run (UserLogic.clock false) :=
  .ofInputs _ (issued next) fun _ => none

theorem from_zero_load (next : Target ℚ) : ((fromZero next).state 0).load false = true := by
  change (issued next).load false = true
  simp [UserLogic.load, UserLogic.start, UserLogic.stopped, issued, UserLogic.initial, Call.cmd,
    motionCmdStartMask, motionCmdSetAMask, motionCmdSetJMask]

theorem from_zero_cmd (next : Target ℚ) (n : ℕ) : ((fromZero next).state (n + 1)).reg .cmd = 0 := by
  induction n with
  | zero =>
    rw [(fromZero next).next]
    change (UserLogic.clock false none _).reg .cmd = 0
    rw [UserLogic.reg_clock_none, if_pos ⟨rfl, from_zero_load next⟩]
  | succ n ih =>
    rw [(fromZero next).next]
    change (UserLogic.clock false none _).reg .cmd = 0
    rw [UserLogic.reg_clock_none, ih, ite_self]

theorem from_zero_move {next : Target ℚ} {n : ℕ} {a j : ℤ} (ht : next.dt * accFreq = n)
    (hn : 1 ≤ n) (hlt : n < 2 ^ 32) (hv : next.v = 0) (ha : truncate (restA next.x n) = a)
    (hj : truncate (restJ next.x n) = j) (hfit : Fits j)
    (hramp : ∀ k, k ≤ n → Fits (ramp a j k)) (hcurve : ∀ k, k ≤ n → Fits (curve 0 a j k)) :
    MoveAt (fromZero next) 0 ⟨0, 0, 0⟩ next n := by
  have hplan : Firmware.plan ⟨0, 0, 0⟩ next = ⟨n, restA next.x n, restJ next.x n⟩ := by
    rw [plan_rest hn rfl hv ht, sub_zero]
  refine ⟨ht, hn, rfl, hv, from_zero_load next, rfl, rfl, rfl, rfl, rfl, ?_, rfl, hlt, ?_, ?_, ?_,
    ?_⟩
  · change ((0 : BitVec 64).toInt : ℚ) = _
    simp
  · rw [hplan, ha, hj]
    exact hramp
  · rw [hplan, hj]
    exact hfit
  · rw [hplan, ha, hj]
    exact hcurve
  · have hpos : 1 ≤ n * (stepFreq / accFreq) := Nat.mul_pos hn (by decide)
    obtain ⟨m, hm⟩ := Nat.exists_eq_add_of_le' hpos
    rw [Nat.zero_add, hm, UserLogic.setX, from_zero_cmd]
    rfl

/-- Within one second no register of such a small move comes near its limits. -/
theorem one_second_fits {a j : ℤ} {k : ℕ} (ha : |a| ≤ 30000) (hj : |j| ≤ 300) (hk : k ≤ 250) :
    Fits (ramp a j k) ∧ Fits (curve 0 a j k) := by
  have hkj : |(k : ℤ) * j| ≤ 250 * 300 := by
    rw [abs_mul, Nat.abs_cast]
    exact mul_le_mul (by exact_mod_cast hk) hj (abs_nonneg j) (by decide)
  have hka : |(k : ℤ) * a| ≤ 250 * 30000 := by
    rw [abs_mul, Nat.abs_cast]
    exact mul_le_mul (by exact_mod_cast hk) ha (abs_nonneg a) (by decide)
  have hcj : |(k.choose 2 : ℤ) * j| ≤ 31125 * 300 := by
    have hc : k.choose 2 ≤ 31125 := by
      have := Nat.choose_le_choose 2 hk
      rwa [Nat.choose_two_right 250] at this
    rw [abs_mul, Nat.abs_cast]
    exact mul_le_mul (by exact_mod_cast hc) hj (abs_nonneg j) (by decide)
  rw [abs_le] at ha hkj hka hcj
  simp only [Fits, ramp, curve]
  omega

theorem one_second_move {x : ℚ} {a j : ℤ} (ha : truncate (restA x 250) = a)
    (hj : truncate (restJ x 250) = j) (hsa : |a| ≤ 30000) (hsj : |j| ≤ 300) :
    MoveAt (fromZero ⟨1, x, 0⟩) 0 ⟨0, 0, 0⟩ ⟨1, x, 0⟩ 250 := by
  refine from_zero_move (by norm_num [accFreq]) (by decide) (by decide) rfl ha hj ?_ ?_ ?_
  · have := abs_le.mp hsj
    exact ⟨by omega, by omega⟩
  · exact fun k hk => (one_second_fits hsa hsj hk).1
  · exact fun k hk => (one_second_fits hsa hsj hk).2

theorem ten_steps_land :
    MoveAt (fromZero ⟨1, 10, 0⟩) 0 ⟨0, 0, 0⟩ ⟨1, 10, 0⟩ 250 ∧
      Lands (fromZero ⟨1, 10, 0⟩) 0 ⟨1, 10, 0⟩ 250 := by
  have hmove : MoveAt (fromZero ⟨1, 10, 0⟩) 0 ⟨0, 0, 0⟩ ⟨1, 10, 0⟩ 250 :=
    one_second_move (a := 2638) (j := -21) (by decide +kernel) (by decide +kernel) (by decide)
      (by decide)
  refine ⟨hmove, (lands_exactly_when _ _ _ _ _ hmove).mpr ?_⟩
  decide +kernel

/-- A hundred steps in one second end more than a step beyond the target. -/
theorem hundred_steps_overshoot :
    MoveAt (fromZero ⟨1, 100, 0⟩) 0 ⟨0, 0, 0⟩ ⟨1, 100, 0⟩ 250 ∧
      ¬Lands (fromZero ⟨1, 100, 0⟩) 0 ⟨1, 100, 0⟩ 250 := by
  have hmove : MoveAt (fromZero ⟨1, 100, 0⟩) 0 ⟨0, 0, 0⟩ ⟨1, 100, 0⟩ 250 :=
    one_second_move (a := 26388) (j := -211) (by decide +kernel) (by decide +kernel) (by decide)
      (by decide)
  refine ⟨hmove, ?_⟩
  have hend : ((fromZero ⟨1, 100, 0⟩).state
      (0 + 250 * (stepFreq / accFreq) + 1)).accProfileGen.x.toInt = 111369400000000 := by
    rw [hmove.end_position]
    decide +kernel
  rw [Lands, hend, stepBit]
  norm_num

end Vp2Motion.Proofs.Move
