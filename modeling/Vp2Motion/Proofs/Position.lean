import Mathlib.Data.Nat.Count
import Mathlib.Tactic.IntervalCases
import Vp2Motion.Clocked.Crossing
import Vp2Motion.Hdl.UserLogic
import Vp2Motion.Proofs.Pulse

namespace Vp2Motion.Proofs.Position
open Hdl Clocked Crossing Pulse

/-- A strobe has been accepted but `S_Step` has not risen yet. -/
def Waiting (pre : BitVec 32) (g : MotorStepGen) : Prop :=
  1 ≤ g.cnt.toNat ∧ g.cnt.toNat ≤ pre.toNat

instance (pre : BitVec 32) : DecidablePred (Waiting pre) :=
  fun g => inferInstanceAs (Decidable (1 ≤ g.cnt.toNat ∧ g.cnt.toNat ≤ pre.toNat))

instance (r : Run MotorStepGen.clock) : DecidablePred (Rises r) :=
  fun n => inferInstanceAs (Decidable ((r.state n).step = false ∧ (r.state (n + 1)).step = true))

instance (r : Run MotorStepGen.clock) : DecidablePred (Accepts r) :=
  fun n => inferInstanceAs (Decidable ((r.state n).cnt = 0 ∧ (r.input n).stepStb = true))

section Pulses
variable {pre pulse post : BitVec 32} {r : Run MotorStepGen.clock} {len n : ℕ}

/-- An accepted strobe waits and then rises, with its own direction. -/
theorem pulse_account {A : Type} [AddCommMonoid A] (h : Driven pre pulse post r len)
    (hn : n < len) (f : Bool → A) :
    (if Accepts r n then f (r.input n).stepDir else 0) +
        (if Waiting pre (r.state n) then f (r.state n).dir else 0) =
      (if Rises r n then f (r.state (n + 1)).dir else 0) +
        (if Waiting pre (r.state (n + 1)) then f (r.state (n + 1)).dir else 0) := by
  have hpos := h.settings.prePos
  have hlt := h.settings.preLt
  have hrise := h.rises_iff hn
  by_cases hc : (r.state n).cnt = 0
  · have hwait : ¬Waiting pre (r.state n) := by simp [Waiting, hc]
    have hlow : ¬Rises r n := by
      rw [hrise, hc]
      simp
      omega
    rw [if_neg hwait, if_neg hlow, add_zero, zero_add]
    by_cases ha : Accepts r n
    · obtain ⟨hcnt, hdir, -⟩ := h.accepted hn ha
      have hnext : Waiting pre (r.state (n + 1)) := by
        rw [Waiting, hcnt]
        omega
      rw [if_pos ha, if_pos hnext, hdir]
    · have hnext : ¬Waiting pre (r.state (n + 1)) := by simp [Waiting, h.cnt_idle hn hc ha]
      rw [if_neg ha, if_neg hnext]
  · have ha : ¬Accepts r n := fun ha => hc ha.1
    have hone := cnt_ne_zero hc
    have hcnt := h.cnt_next hn hc
    rw [if_neg ha, h.dir_kept hn ha, zero_add]
    -- the counter passes the first limit exactly once
    rcases Nat.lt_trichotomy (r.state n).cnt.toNat pre.toNat with hl | he | hg
    · rw [if_pos (by omega)] at hcnt
      rw [if_pos ⟨hone, by omega⟩, if_neg (by rw [hrise]; omega),
        if_pos (show Waiting pre _ by rw [Waiting, hcnt]; omega), zero_add]
    · rw [if_pos (by omega)] at hcnt
      rw [if_pos ⟨hone, by omega⟩, if_pos (hrise.mpr he),
        if_neg (show ¬Waiting pre _ by rw [Waiting, hcnt]; omega), add_zero]
    · have hnext : ¬Waiting pre (r.state (n + 1)) := by
        rw [Waiting, hcnt]
        split <;> omega
      rw [if_neg (show ¬Waiting pre _ by rw [Waiting]; omega), if_neg (by rw [hrise]; omega),
        if_neg hnext, add_zero]

theorem strobe_account (h : Driven pre pulse post r len) (hn : n < len) :
    (if (r.input n).stepStb = true then 1 else 0) =
      (if Accepts r n then 1 else 0) + if (r.state (n + 1)).missed = true then 1 else 0 := by
  rw [r.next]
  by_cases hc : (r.state n).cnt = 0
  · cases hs : (r.input n).stepStb <;>
      simp [Accepts, clock_idle (h.fixed n hn) hc, hc, hs]
  · have ha : ¬Accepts r n := fun ha => hc ha.1
    rw [(clock_busy (h.fixed n hn) hc).2, if_neg ha, zero_add]

end Pulses

/-- Nothing is on its way from the accumulator to the motor. -/
structure Idle (u : UserLogic) : Prop where
  strobe : u.accProfileGen.step = false
  cnt : u.motorStepGen.cnt = 0
  step : u.motorStepGen.step = false
  missed : u.motorStepGen.missed = false

/-- The first `len` clocks of a run from an idle pipeline on: constant settings,
no load of a position, no clearing of the missed count and at most one step per
clock. -/
structure Watched (pre pulse post : BitVec 32) (sb : BitVec 6)
    (r : Run (UserLogic.clock false)) (len : ℕ) : Prop where
  settings : Settings pre pulse
  preN : ∀ n, n < len → (r.state n).reg .preN = pre
  pulseN : ∀ n, n < len → (r.state n).reg .pulseN = pulse
  postN : ∀ n, n < len → (r.state n).reg .postN = post
  stepBit : ∀ n, n < len → ((r.state n).reg .stepBit).setWidth 6 = sb
  noSetX : ∀ n, n < len → (r.state n).setX = false
  noClear : ∀ n, n < len → UserLogic.selectsMissed (r.input n) = false
  slow : ∀ n, n < len → |(r.state n).accProfileGen.v.toInt| ≤ 2 ^ sb.toNat
  idle : Idle (r.state 0)

/-- No velocity is too fast for a step bit above the velocity register. -/
theorem slow_of_high_bit {sb : BitVec 6} (hsb : 31 ≤ sb.toNat) (v : BitVec 32) :
    |v.toInt| ≤ 2 ^ sb.toNat := by
  have hlow := v.le_toInt
  have hhigh := v.toInt_lt
  calc
    |v.toInt| ≤ 2 ^ 31 := abs_le.mpr ⟨by omega, by omega⟩
    _ ≤ 2 ^ sb.toNat := pow_le_pow_right₀ (by decide) hsb

def motor (r : Run (UserLogic.clock false)) : Run MotorStepGen.clock where
  state n := (r.state n).motorStepGen
  input n := (r.state n).motorInputs false
  next n := by
    rw [r.next]
    rfl

def whole (sb : BitVec 6) (u : UserLogic) : ℤ := (u.accProfileGen.x >>> sb.toNat).toNat

def sign (dir : Bool) : ℤ := if dir then 1 else -1

theorem xAcc_toNat (g : AccProfileGen) :
    (g.xAcc.toNat : ℤ) = (g.x.toNat + g.v.toInt) % 2 ^ 64 := by
  rw [AccProfileGen.xAcc, BitVec.toNat_add, BitVec.signExtend, BitVec.toNat_ofInt]
  push_cast
  rw [Int.toNat_of_nonneg (Int.emod_nonneg _ (by decide)), Int.add_emod_emod]

/-- Bit `sb` is the lowest bit of the integer part. -/
theorem bit_eq_iff (x y : BitVec 64) (k : ℕ) :
    x.getLsbD k = y.getLsbD k ↔ (x.toNat : ℤ) / 2 ^ k % 2 = (y.toNat : ℤ) / 2 ^ k % 2 := by
  have hx := Nat.mod_two_eq_zero_or_one (x.toNat / 2 ^ k)
  have hy := Nat.mod_two_eq_zero_or_one (y.toNat / 2 ^ k)
  rw [BitVec.getLsbD, BitVec.getLsbD, Nat.testBit_eq_decide_div_mod_eq,
    Nat.testBit_eq_decide_div_mod_eq, decide_eq_decide]
  norm_cast
  omega

theorem whole_eq (sb : BitVec 6) (u : UserLogic) :
    whole sb u = (u.accProfileGen.x.toNat : ℤ) / 2 ^ sb.toNat := by
  rw [whole, BitVec.toNat_ushiftRight, Nat.shiftRight_eq_div_pow]
  norm_cast

/-- One clock without a load of `x`: the integer part moves with the strobe. -/
theorem whole_clock (sb : BitVec 6) (g : AccProfileGen) (hv : |g.v.toInt| ≤ 2 ^ sb.toNat) :
    (g.xAcc.toNat : ℤ) / 2 ^ sb.toNat ≡ (g.x.toNat : ℤ) / 2 ^ sb.toNat +
      (if g.crossed sb then sign ((0 : BitVec 32).slt g.v) else 0) [ZMOD 2 ^ (64 - sb.toNat)] := by
  have hsb := sb.isLt
  have hsplit : (2 : ℤ) ^ 64 = 2 ^ sb.toNat * 2 ^ (64 - sb.toNat) := by
    rw [← pow_add]
    congr 1
    omega
  have hstep := whole_step (x := g.x.toNat) (v := g.v.toInt) (m := 2 ^ sb.toNat)
    (k := 2 ^ (64 - sb.toNat)) (by positivity) (dvd_pow_self 2 (by omega)) hv
  rw [← hsplit, ← xAcc_toNat] at hstep
  have hcross : g.crossed sb = true ↔ ¬(g.x.toNat : ℤ) / 2 ^ sb.toNat % 2 =
      (g.xAcc.toNat : ℤ) / 2 ^ sb.toNat % 2 := by
    rw [← bit_eq_iff, AccProfileGen.crossed, bne_iff_ne]
  have hpos : (0 : BitVec 32).slt g.v = true ↔ 0 < g.v.toInt := by
    rw [BitVec.slt_iff_toInt_lt]
    rfl
  simp only [sign, hcross, hpos]
  simpa only [ite_not] using hstep

namespace Watched
variable {pre pulse post : BitVec 32} {sb : BitVec 6} {r : Run (UserLogic.clock false)}
  {len n : ℕ}

theorem driven (h : Watched pre pulse post sb r len) : Driven pre pulse post (motor r) len where
  settings := h.settings
  fixed n hn := ⟨rfl, h.preN n hn, h.pulseN n hn, h.postN n hn⟩
  idle := h.idle.cnt
  low := h.idle.step

theorem profile_next (h : Watched pre pulse post sb r len) (hn : n < len) :
    (r.state (n + 1)).accProfileGen.x = (r.state n).accProfileGen.xAcc ∧
    (r.state (n + 1)).accProfileGen.step = (r.state n).accProfileGen.crossed sb ∧
    ((r.state n).accProfileGen.crossed sb = true →
      (r.state (n + 1)).accProfileGen.dir = (0 : BitVec 32).slt (r.state n).accProfileGen.v) := by
  rw [r.next]
  have hsb := h.stepBit n hn
  simp only [UserLogic.clock, AccProfileGen.clock, UserLogic.profileInputs, h.noSetX n hn, hsb,
    Bool.and_false, Bool.false_eq_true, if_false, true_and]
  exact fun hc => if_pos hc

theorem missed_next (h : Watched pre pulse post sb r len) (hn : n < len) :
    (r.state (n + 1)).statMissedSteps = (r.state n).statMissedSteps + 1 ↔
      (r.state n).motorStepGen.missed = true := by
  rw [r.next]
  simp only [UserLogic.clock, UserLogic.clockMissed, h.noClear n hn, Bool.false_eq_true, if_false]
  cases (r.state n).motorStepGen.missed <;> simp

/-- Every strobe on clock `n` or waiting there rises, waits on or is missed. -/
theorem account (h : Watched pre pulse post sb r len) (hn : n < len) :
    (if (r.state n).accProfileGen.step = true then 1 else 0) +
        (if Waiting pre (r.state n).motorStepGen then 1 else 0) =
      (if Rises (motor r) n then 1 else 0) +
        (if Waiting pre (r.state (n + 1)).motorStepGen then 1 else 0) +
        (if (r.state (n + 1)).motorStepGen.missed = true then 1 else 0) := by
  have hstrobe : (if (r.state n).accProfileGen.step = true then 1 else 0) =
      (if Accepts (motor r) n then 1 else 0) +
        (if (r.state (n + 1)).motorStepGen.missed = true then 1 else 0) := strobe_account h.driven hn
  have hpulse : (if Accepts (motor r) n then 1 else 0) +
      (if Waiting pre (r.state n).motorStepGen then 1 else 0) =
      (if Rises (motor r) n then 1 else 0) +
        (if Waiting pre (r.state (n + 1)).motorStepGen then 1 else 0) :=
    pulse_account h.driven hn (fun _ => 1)
  omega

theorem signed_account (h : Watched pre pulse post sb r len) (hn : n < len)
    (hm : (r.state (n + 1)).motorStepGen.missed = false) :
    (if (r.state n).accProfileGen.step = true then sign (r.state n).accProfileGen.dir else 0) +
        (if Waiting pre (r.state n).motorStepGen then sign (r.state n).motorStepGen.dir else 0) =
      (if Rises (motor r) n then sign (r.state (n + 1)).motorStepGen.dir else 0) +
        (if Waiting pre (r.state (n + 1)).motorStepGen then
          sign (r.state (n + 1)).motorStepGen.dir else 0) := by
  have hstrobe : (if (r.state n).accProfileGen.step = true then 1 else 0) =
      (if Accepts (motor r) n then 1 else 0) +
        (if (r.state (n + 1)).motorStepGen.missed = true then 1 else 0) := strobe_account h.driven hn
  have hiff : (r.state n).accProfileGen.step = true ↔ Accepts (motor r) n := by
    rw [hm] at hstrobe
    by_cases hs : (r.state n).accProfileGen.step = true <;>
      by_cases ha : Accepts (motor r) n <;> simp [hs, ha] at hstrobe ⊢
  simp only [hiff]
  exact pulse_account h.driven hn sign

/-- Strobes up to clock `n` are those that have raised `S_Step`, those that have
been counted as missed and at most three on their way. -/
theorem strobes (h : Watched pre pulse post sb r len) (hn : n ≤ len) :
    Nat.count (fun k => (r.state k).accProfileGen.step = true) (n + 1) =
      Nat.count (Rises (motor r)) n +
      Nat.count (fun k => (r.state (k + 1)).statMissedSteps =
        (r.state k).statMissedSteps + 1) n +
      (if (r.state n).accProfileGen.step = true then 1 else 0) +
      (if Waiting pre (r.state n).motorStepGen then 1 else 0) +
      (if (r.state n).motorStepGen.missed = true then 1 else 0) := by
  induction n with
  | zero => simp [Nat.count_succ, Waiting, h.idle.strobe, h.idle.cnt, h.idle.missed]
  | succ n ih =>
    have hclock := h.account hn
    rw [Nat.count_succ, ih (Nat.le_of_succ_le hn), Nat.count_succ _ n, Nat.count_succ _ n]
    simp only [h.missed_next hn]
    omega

/-- What a rising edge on clock `n` adds to the difference of the counts. -/
theorem net_succ (r : Run (UserLogic.clock false)) (n : ℕ) :
    (Nat.count (fun k => Rises (motor r) k ∧ (r.state (k + 1)).motorStepGen.dir = true) (n + 1) :
      ℤ) -
      Nat.count (fun k => Rises (motor r) k ∧ (r.state (k + 1)).motorStepGen.dir = false)
        (n + 1) =
    (Nat.count (fun k => Rises (motor r) k ∧ (r.state (k + 1)).motorStepGen.dir = true) n : ℤ) -
      Nat.count (fun k => Rises (motor r) k ∧ (r.state (k + 1)).motorStepGen.dir = false) n +
      if Rises (motor r) n then sign (r.state (n + 1)).motorStepGen.dir else 0 := by
  rw [Nat.count_succ, Nat.count_succ]
  by_cases hr : Rises (motor r) n
  · cases hd : (r.state (n + 1)).motorStepGen.dir <;> simp [hr, sign] <;> omega
  · simp [hr]

/-- While nothing is missed, the pulses and the strobes on their way add up to
the movement of the integer part. -/
theorem movement (h : Watched pre pulse post sb r len) (hn : n ≤ len)
    (hm : ∀ k, k ≤ n → (r.state k).motorStepGen.missed = false) :
    (Nat.count (fun k => Rises (motor r) k ∧ (r.state (k + 1)).motorStepGen.dir = true) n : ℤ) -
      Nat.count (fun k => Rises (motor r) k ∧ (r.state (k + 1)).motorStepGen.dir = false) n +
      (if Waiting pre (r.state n).motorStepGen then sign (r.state n).motorStepGen.dir else 0) +
      (if (r.state n).accProfileGen.step = true then sign (r.state n).accProfileGen.dir else 0)
    ≡ whole sb (r.state n) - whole sb (r.state 0) [ZMOD 2 ^ (64 - sb.toNat)] := by
  induction n with
  | zero => simp [Waiting, h.idle.strobe, h.idle.cnt]
  | succ n ih =>
    have hprev := ih (by omega) (fun k hk => hm k (by omega))
    have hclock := h.signed_account hn (hm (n + 1) le_rfl)
    obtain ⟨hx, hstrobe, hdir⟩ := h.profile_next hn
    have hmove : whole sb (r.state (n + 1)) ≡ whole sb (r.state n) +
        (if (r.state (n + 1)).accProfileGen.step = true then
          sign (r.state (n + 1)).accProfileGen.dir else 0) [ZMOD 2 ^ (64 - sb.toNat)] := by
      have hwhole := whole_clock sb _ (h.slow n hn)
      rw [whole_eq, whole_eq, hx, hstrobe]
      split
      · rename_i hc
        rw [hdir hc]
        rwa [if_pos hc] at hwhole
      · rename_i hc
        rwa [if_neg hc] at hwhole
    have hsum := hprev.add (hmove.symm.sub_right (whole sb (r.state n)))
    convert hsum using 1
    · rw [net_succ]
      linarith
    · linarith

end Watched

/-- Every strobe is a pulse or a missed step, and while no step is missed the
motor has made the steps of the integer part of the accumulator. -/
theorem motor_follows_accumulator (pre pulse post : BitVec 32) (sb : BitVec 6)
    (r : Run (UserLogic.clock false)) (n : ℕ) (h : Watched pre pulse post sb r n) :
    Nat.count (fun k => (r.state k).accProfileGen.step = true) (n + 1) =
      Nat.count (Rises (motor r)) n +
      Nat.count (fun k => (r.state (k + 1)).statMissedSteps =
        (r.state k).statMissedSteps + 1) n +
      (if (r.state n).accProfileGen.step = true then 1 else 0) +
      (if Waiting pre (r.state n).motorStepGen then 1 else 0) +
      (if (r.state n).motorStepGen.missed = true then 1 else 0) ∧
    ((∀ k, k ≤ n → (r.state k).motorStepGen.missed = false) → Idle (r.state n) →
      (Nat.count (fun k => Rises (motor r) k ∧ (r.state (k + 1)).motorStepGen.dir = true) n : ℤ) -
        Nat.count (fun k => Rises (motor r) k ∧ (r.state (k + 1)).motorStepGen.dir = false) n
      ≡ whole sb (r.state n) - whole sb (r.state 0) [ZMOD 2 ^ (64 - sb.toNat)]) := by
  refine ⟨h.strobes le_rfl, ?_⟩
  intro hm hidle
  have hmove := h.movement le_rfl hm
  have hwait : ¬Waiting pre (r.state n).motorStepGen := by simp [Waiting, hidle.cnt]
  rwa [if_neg hwait, if_neg (by simp [hidle.strobe]), add_zero, add_zero] at hmove

/-- A stopped core that moves on at a quarter of a step per clock. -/
def cruising : UserLogic :=
  { UserLogic.initial with
    reg := fun r =>
      match r with
      | .preN => 1
      | .pulseN => 2
      | .stepBit => 31
      | _ => 0
    accProfileGen := { UserLogic.initial.accProfileGen with v := 0x20000000 } }

def cruise : Run (UserLogic.clock false) := .ofInputs _ cruising fun _ => none

theorem cruise_at (n : ℕ) : (cruise.state n).reg = cruising.reg ∧
    (cruise.state n).stopped = true ∧ (cruise.state n).accProfileGen.v = 0x20000000 := by
  induction n with
  | zero => exact ⟨rfl, rfl, rfl⟩
  | succ n ih =>
    obtain ⟨hreg, hstop, hv⟩ := ih
    have hl : (cruise.state n).load false = false := by
      simp [UserLogic.load, UserLogic.start, hreg, cruising]
    have hstb : (cruise.state n).accStepGen.stepStb false = false := by
      simp only [UserLogic.stopped] at hstop
      simp [AccStepGen.stepStb, hstop]
    rw [cruise.next]
    refine ⟨?_, ?_, ?_⟩
    · funext q
      change (UserLogic.clock false none (cruise.state n)).reg q = _
      rw [UserLogic.reg_clock_none, hl, hreg]
      simp
    · rw [UserLogic.stopped_of_no_load _ _ hl, hstop, Bool.true_or]
    · rw [(UserLogic.profile_of_no_load _ _ hl).2.1, hstb, hv]
      rfl

/-- Four clocks make the first step; three later its pulse is over. -/
theorem cruise_first_step : Watched 1 2 0 31 cruise 7 ∧ Idle (cruise.state 7) ∧
    (Nat.count (fun k => Rises (motor cruise) k ∧
      (cruise.state (k + 1)).motorStepGen.dir = true) 7 : ℤ) -
      Nat.count (fun k => Rises (motor cruise) k ∧
        (cruise.state (k + 1)).motorStepGen.dir = false) 7
      ≡ 1 [ZMOD 2 ^ 33] := by
  have h : Watched 1 2 0 31 cruise 7 := by
    refine ⟨⟨by decide, by decide⟩, ?_, ?_, ?_, ?_, ?_, fun _ _ => rfl, ?_, ⟨rfl, rfl, rfl, rfl⟩⟩
    · exact fun n _ => by rw [(cruise_at n).1]; rfl
    · exact fun n _ => by rw [(cruise_at n).1]; rfl
    · exact fun n _ => by rw [(cruise_at n).1]; rfl
    · exact fun n _ => by rw [(cruise_at n).1]; rfl
    · exact fun n _ => by rw [UserLogic.setX, (cruise_at n).1]; rfl
    · exact fun n _ => slow_of_high_bit (by decide) _
  have hidle : Idle (cruise.state 7) := ⟨by decide, by decide, by decide, by decide⟩
  refine ⟨h, hidle, (motor_follows_accumulator 1 2 0 31 cruise 7 h).2 ?_ hidle⟩
  intro k hk
  interval_cases k <;> decide

end Vp2Motion.Proofs.Position
