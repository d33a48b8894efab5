import Mathlib.Tactic.IntervalCases
import Vp2Motion.Proofs.Spacing

namespace Vp2Motion.Proofs.Reversal
open Hdl Clocked Firmware Pulse Position Spacing

/-- The word `steppersMainLoop` writes to the step bit register. -/
def initStepBit : BitVec 32 := (1 <<< 31) ||| BitVec.ofNat 32 stepBit

/-- A run from reset in which the settings of INIT are in place from clock `c` on,
the first command comes after that, and no command asks for SET_X. -/
structure Configured (r : Run (UserLogic.clock false)) (c : ℕ) : Prop where
  reset : r.state 0 = .initial
  before : ∀ n w, n < c → r.input n = some w → w.sel ≠ .reg .cmd
  preN : (r.state c).reg .preN = initPreN
  pulseN : (r.state c).reg .pulseN = initPulseN
  postN : (r.state c).reg .postN = initPostN
  stepBit : (r.state c).reg .stepBit = initStepBit
  kept : ∀ n w, c ≤ n → r.input n = some w → w.sel ≠ .reg .preN ∧ w.sel ≠ .reg .pulseN ∧
    w.sel ≠ .reg .postN ∧ w.sel ≠ .reg .stepBit
  noSetX : ∀ n w, r.input n = some w → w.sel = .reg .cmd → w.data.getLsbD 1 = false

/-- A step strobe on clock `s`, another one on clock `t` and none in between. -/
structure Successive (r : Run (UserLogic.clock false)) (s t : ℕ) : Prop where
  lt : s < t
  first : (r.state s).accProfileGen.step = true
  second : (r.state t).accProfileGen.step = true
  none : ∀ k, s < k → k < t → (r.state k).accProfileGen.step = false

/-- Every strobe finds the pulse generator ready, and none is reported as missed. -/
structure NoneDropped (r : Run (UserLogic.clock false)) : Prop where
  ready : ∀ n, (r.state n).accProfileGen.step = true → (r.state n).motorStepGen.cnt = 0
  missed : ∀ n, (r.state n).motorStepGen.missed = false
  count : ∀ n, (r.state n).statMissedSteps = 0

/-- The core as reset leaves it, up to the registers that only the bus writes. -/
structure Still (u : UserLogic) : Prop where
  cmd : u.reg .cmd = 0
  x : u.accProfileGen.x = 0
  v : u.accProfileGen.v = 0
  a : u.accProfileGen.a = 0
  j : u.accProfileGen.j = 0
  strobe : u.accProfileGen.step = false
  cnt : u.motorStepGen.cnt = 0
  low : u.motorStepGen.step = false
  missed : u.motorStepGen.missed = false
  count : u.statMissedSteps = 0

theorem still_initial : Still .initial := ⟨rfl, rfl, rfl, rfl, rfl, rfl, rfl, rfl, rfl, rfl⟩

theorem still_clock {u : UserLogic} (h : Still u) (wr : Option BusWrite)
    (hw : ∀ w, wr = some w → w.sel ≠ .reg .cmd) : Still (UserLogic.clock false wr u) := by
  have hl : u.load false = false := by simp [UserLogic.load, UserLogic.start, h.cmd]
  obtain ⟨hx, hv, ha, hj⟩ := UserLogic.profile_of_no_load u wr hl
  have hacc : u.accProfileGen.xAcc = 0 := by
    rw [AccProfileGen.xAcc, h.x, h.v]
    decide
  have hcross : ∀ sb, u.accProfileGen.crossed sb = false := by
    intro sb
    simp [AccProfileGen.crossed, hacc, h.x]
  have hmotor : (UserLogic.clock false wr u).motorStepGen =
      { cnt := 0, step := false, dir := u.motorStepGen.dir, missed := false } := by
    simp [UserLogic.clock, MotorStepGen.clock, UserLogic.motorInputs, h.cnt, h.strobe]
  constructor
  · cases wr with
    | none => simp [UserLogic.reg_clock_none, hl, h.cmd]
    | some w => simp [UserLogic.reg_clock_some, hw w rfl, hl, h.cmd]
  · rw [hx, hacc]
  · rw [hv, h.v, h.a]
    simp
  · rw [ha, h.a, h.j]
    simp
  · rw [hj, h.j]
  · simp [UserLogic.clock, AccProfileGen.clock, UserLogic.profileInputs, hl, hcross]
  · rw [hmotor]
  · rw [hmotor]
  · rw [hmotor]
  · simp [UserLogic.clock, UserLogic.clockMissed, h.missed, h.count]

namespace Configured
variable {r : Run (UserLogic.clock false)} {c : ℕ}

theorem still (h : Configured r c) (hn : n ≤ c) : Still (r.state n) := by
  refine r.kept (P := Still) (Nat.zero_le n) (h.reset ▸ still_initial) ?_
  intro k _ hk hs
  exact still_clock hs _ fun w hw => h.before k w (by omega) hw

/-- A register that no write selects keeps its value, unless a load clears it. -/
theorem reg_kept {u : UserLogic} {wr : Option BusWrite} {q : Reg} (hq : q ≠ .cmd)
    (hw : ∀ w, wr = some w → w.sel ≠ .reg q) :
    (UserLogic.clock false wr u).reg q = u.reg q := by
  cases wr with
  | none => simp [UserLogic.reg_clock_none, hq]
  | some w => simp [UserLogic.reg_clock_some, hw w rfl, hq]

theorem settings (h : Configured r c) (n : ℕ) :
    (r.state (c + n)).reg .preN = initPreN ∧ (r.state (c + n)).reg .pulseN = initPulseN ∧
    (r.state (c + n)).reg .postN = initPostN ∧ (r.state (c + n)).reg .stepBit = initStepBit := by
  induction n with
  | zero => exact ⟨h.preN, h.pulseN, h.postN, h.stepBit⟩
  | succ n ih =>
    obtain ⟨hpre, hpulse, hpost, hsb⟩ := ih
    have hkept : ∀ w, r.input (c + n) = some w → _ := fun w => h.kept (c + n) w (by omega)
    rw [← Nat.add_assoc, r.next]
    refine ⟨?_, ?_, ?_, ?_⟩
    · rw [reg_kept (by decide) (fun w hw => (hkept w hw).1), hpre]
    · rw [reg_kept (by decide) (fun w hw => (hkept w hw).2.1), hpulse]
    · rw [reg_kept (by decide) (fun w hw => (hkept w hw).2.2.1), hpost]
    · rw [reg_kept (by decide) (fun w hw => (hkept w hw).2.2.2), hsb]

theorem set_x_clear (h : Configured r c) (n : ℕ) : (r.state n).setX = false := by
  refine r.kept (P := fun u => u.setX = false) (Nat.zero_le n) (by rw [h.reset]; rfl) ?_
  intro k _ _ hx
  unfold UserLogic.setX at hx ⊢
  rcases hw : r.input k with _ | w
  · rw [UserLogic.reg_clock_none]
    split
    · rfl
    · exact hx
  · rw [UserLogic.reg_clock_some]
    split
    · rename_i hsel
      have hbit := write_lanes_bit w.be w.data ((r.state k).reg .cmd) 0 (k := 1) (by decide)
      have hdata := h.noSetX k w hw hsel
      simp only [Fin.val_zero, Nat.mul_zero, Nat.zero_add] at hbit
      rw [hbit, hdata, hx, ite_self]
    · split
      · rfl
      · exact hx

theorem piped (h : Configured r c) :
    Piped initPreN initPulseN initPostN 40 (profile (r.drop c)) (motor (r.drop c)) := by
  have hsb : initStepBit.setWidth 6 = 40 := by decide
  have hstill := h.still (Nat.le_refl c)
  refine piped_of_settings ?_ ?_ ?_ ?_ ?_ hstill.strobe hstill.cnt
  · exact fun n => (h.settings n).1
  · exact fun n => (h.settings n).2.1
  · exact fun n => (h.settings n).2.2.1
  · exact fun n => by rw [← hsb, ← (h.settings n).2.2.2]; rfl
  · exact fun n => h.set_x_clear (c + n)

theorem driven (h : Configured r c) (len : ℕ) :
    Driven initPreN initPulseN initPostN (motor (r.drop c)) len where
  settings := ⟨by decide, by decide⟩
  fixed n _ := h.piped.fixed n
  idle := (h.still (Nat.le_refl c)).cnt
  low := (h.still (Nat.le_refl c)).low

/-- Every strobe comes after the settings. -/
theorem strobe_after (h : Configured r c) (hs : (r.state n).accProfileGen.step = true) :
    ∃ k, n = c + k := by
  refine ⟨n - c, ?_⟩
  by_contra hne
  have hquiet := (h.still (n := n) (by omega)).strobe
  simp [hs] at hquiet

theorem same_direction_apart (h : Configured r c) (hst : Successive r s t)
    (hdir : (r.state s).accProfileGen.dir = (r.state t).accProfileGen.dir) : 512 ≤ t - s := by
  obtain ⟨a, rfl⟩ := h.strobe_after hst.first
  obtain ⟨b, rfl⟩ := h.strobe_after hst.second
  have hlt := hst.lt
  have hgap := h.piped.successive_apart (V := 2 ^ 31) (s := a) (t := b) (by decide) (by decide)
    (fun n => @slow_of_high_bit 31 (by decide) _) (by omega) hst.first hst.second
    (fun k hk hkb => hst.none (c + k) (by omega) (by omega)) hdir
  rw [Nat.add_sub_add_left]
  exact hgap

/-- The busy time of a counted strobe, in clocks of the whole run. -/
theorem busy_after (h : Configured r c) (hs : Accepts (motor (r.drop c)) s) (hk : 1 ≤ k)
    (hle : k ≤ 300) : (r.state (c + (s + k))).motorStepGen.cnt ≠ 0 := by
  intro h0
  have hcnt := ((h.driven (s + k)).pulse_at hs hk (by simp [initPulseN, initPostN]; omega)
    (Nat.le_refl _)).1
  change (r.state (c + (s + k))).motorStepGen.cnt.toNat = k at hcnt
  rw [h0] at hcnt
  simp at hcnt
  omega

theorem missed_of_busy (h : Configured r c)
    (hs : (r.state (c + n)).accProfileGen.step = true)
    (hc : (r.state (c + n)).motorStepGen.cnt ≠ 0) :
    (r.state (c + n + 1)).motorStepGen.missed = true := by
  have hm := (clock_busy (h.piped.fixed n) hc).2
  rw [h.piped.strobe n] at hm
  rw [r.next]
  exact hm.trans hs

/-- A strobe that finds the generator busy follows a reversal within its busy time. -/
theorem ready_of_spaced (h : Configured r c)
    (hspaced : ∀ s t, Successive r s t →
      (r.state s).accProfileGen.dir ≠ (r.state t).accProfileGen.dir → 300 < t - s)
    (hs : (r.state n).accProfileGen.step = true) : (r.state n).motorStepGen.cnt = 0 := by
  by_contra hc
  obtain ⟨b, rfl⟩ := h.strobe_after hs
  obtain ⟨-, a, ha, hab, hle⟩ := h.piped.missed_origin (h.missed_of_busy hs hc)
  have hstrobe : (r.state (c + a)).accProfileGen.step = true := ha.2
  obtain ⟨l, hal, hlb, hl, hno⟩ := last_before (P := fun n => (r.state n).accProfileGen.step = true)
    (show c + a < c + b by omega) hstrobe
  have hst : Successive r l (c + b) :=
    ⟨hlb, hl, hs, fun k hk hkb => Bool.eq_false_iff.mpr (hno k hk hkb)⟩
  have hbusy : max 1 (max initPreN.toNat (max initPulseN.toNat initPostN.toNat)) = 300 := by decide
  rw [hbusy] at hle
  by_cases hdir : (r.state l).accProfileGen.dir = (r.state (c + b)).accProfileGen.dir
  · have := h.same_direction_apart hst hdir
    omega
  · have := hspaced l (c + b) hst hdir
    omega

theorem none_dropped (h : Configured r c)
    (hspaced : ∀ s t, Successive r s t →
      (r.state s).accProfileGen.dir ≠ (r.state t).accProfileGen.dir → 300 < t - s) :
    NoneDropped r := by
  have hready : ∀ n, (r.state n).accProfileGen.step = true → (r.state n).motorStepGen.cnt = 0 :=
    fun n => h.ready_of_spaced hspaced
  have hmissed : ∀ n, (r.state n).motorStepGen.missed = false := by
    intro n
    by_cases hn : n ≤ c
    · exact (h.still hn).missed
    · obtain ⟨k, rfl⟩ : ∃ k, n = c + (k + 1) := ⟨n - c - 1, by omega⟩
      rw [Bool.eq_false_iff]
      intro hm
      obtain ⟨hs, a, ha, hak, hle⟩ := h.piped.missed_origin hm
      have hbusy : max 1 (max initPreN.toNat (max initPulseN.toNat initPostN.toNat)) = 300 := by
        decide
      have hc := h.busy_after ha (k := k - a) (by omega) (by omega)
      rw [Nat.add_sub_cancel' (Nat.le_of_lt hak)] at hc
      exact hc (hready _ hs)
  refine ⟨hready, hmissed, ?_⟩
  intro n
  refine r.indexed (P := fun _ u => u.statMissedSteps = 0) (Nat.zero_le n)
    (by rw [h.reset]; rfl) ?_
  intro k _ _ hcount
  simp only [UserLogic.clock, UserLogic.clockMissed, hmissed k, hcount]
  simp

theorem spaced (h : Configured r c) (hm : ∀ n, (r.state n).motorStepGen.missed = false)
    (hst : Successive r s t) : 300 < t - s := by
  by_contra hle
  obtain ⟨a, rfl⟩ := h.strobe_after hst.first
  obtain ⟨b, rfl⟩ := h.strobe_after hst.second
  have hlt := hst.lt
  by_cases hc : (r.state (c + a)).motorStepGen.cnt = 0
  · have hbusy := h.busy_after ⟨hc, hst.first⟩ (k := b - a) (by omega) (by omega)
    rw [Nat.add_sub_cancel' (show a ≤ b by omega)] at hbusy
    have := h.missed_of_busy hst.second hbusy
    simp [hm] at this
  · have := h.missed_of_busy hst.first hc
    simp [hm] at this

end Configured

/-- Strobes of one direction never come too early. None is dropped exactly when
a strobe that turns back leaves the one before it the 300 clocks of its pulse. -/
theorem dropped_only_at_reversals (r : Run (UserLogic.clock false)) (c : ℕ)
    (h : Configured r c) :
    (∀ s t, Successive r s t →
      (r.state s).accProfileGen.dir = (r.state t).accProfileGen.dir → 512 ≤ t - s) ∧
    (NoneDropped r ↔ ∀ s t, Successive r s t →
      (r.state s).accProfileGen.dir ≠ (r.state t).accProfileGen.dir → 300 < t - s) := by
  refine ⟨fun s t => h.same_direction_apart, ?_, h.none_dropped⟩
  intro hnone s t hst _
  exact h.spaced hnone.missed hst

/-- The settings, then a command that starts with a velocity of -1 and turns it
into 1 after a tick of four clocks. -/
def turnWrites : List BusWrite :=
  [.full (.reg .preN) initPreN, .full (.reg .pulseN) initPulseN, .full (.reg .postN) initPostN,
    .full (.reg .stepBit) initStepBit, .full (.reg .nextDt) 4, .full (.reg .nextSteps) 1,
    .full (.reg .nextV) (-1), .full (.reg .nextA) 2, .full (.reg .nextJ) 0,
    .full (.reg .cmd) 0b11101]

/-- One write on every fourth clock. -/
def turn : Run (UserLogic.clock false) :=
  .ofInputs _ .initial fun n => if n % 4 = 0 then turnWrites[n / 4]? else none

theorem turn_input (hw : turn.input n = some w) : ∃ k, n = 4 * k ∧ turnWrites[k]? = some w := by
  change (if n % 4 = 0 then turnWrites[n / 4]? else none) = some w at hw
  split at hw
  · exact ⟨n / 4, by omega, hw⟩
  · cases hw

theorem turn_configured : Configured turn 16 where
  reset := rfl
  before n w hn hw := by
    obtain ⟨k, rfl, hk⟩ := turn_input hw
    have hlt : k < 4 := by omega
    interval_cases k
    all_goals
      cases hk
      decide
  preN := by decide +kernel
  pulseN := by decide +kernel
  postN := by decide +kernel
  stepBit := by decide +kernel
  kept n w hn hw := by
    obtain ⟨k, rfl, hk⟩ := turn_input hw
    have hlt : k < 10 := (List.getElem?_eq_some_iff.mp hk).1
    have hge : 4 ≤ k := by omega
    interval_cases k
    all_goals
      cases hk
      decide
  noSetX n w hw hsel := by
    obtain ⟨k, rfl, hk⟩ := turn_input hw
    have hlt : k < 10 := (List.getElem?_eq_some_iff.mp hk).1
    interval_cases k
    all_goals
      cases hk
      first
        | rfl
        | cases hsel

theorem turn_successive : Successive turn 39 46 where
  lt := by decide
  first := by decide +kernel
  second := by decide +kernel
  none k hk hkt := by
    interval_cases k
    all_goals decide +kernel

/-- The step down on clock 39 is taken back on clock 46, and the way back is lost. -/
theorem turn_drops_step :
    Configured turn 16 ∧ Successive turn 39 46 ∧
      (turn.state 39).accProfileGen.dir = false ∧ (turn.state 46).accProfileGen.dir = true ∧
      (turn.state 46).motorStepGen.cnt ≠ 0 ∧ (turn.state 47).motorStepGen.missed = true ∧
      (turn.state 48).statMissedSteps = 1 ∧ ¬NoneDropped turn := by
  have hmissed : (turn.state 47).motorStepGen.missed = true := by decide +kernel
  refine ⟨turn_configured, turn_successive, by decide +kernel, by decide +kernel,
    by decide +kernel, hmissed, by decide +kernel, ?_⟩
  intro h
  simp [h.missed 47] at hmissed

theorem turn_too_early : Configured turn 16 ∧ ¬NoneDropped turn := by
  refine ⟨turn_configured, ?_⟩
  intro hnone
  have hspaced := (dropped_only_at_reversals turn 16 turn_configured).2.mp hnone
  exact absurd (hspaced 39 46 turn_successive (by decide +kernel)) (by decide)

end Vp2Motion.Proofs.Reversal
