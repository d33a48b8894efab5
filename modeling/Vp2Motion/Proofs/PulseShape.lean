import Mathlib.Tactic.IntervalCases
import Vp2Motion.Proofs.Pulse

namespace Vp2Motion.Proofs.PulseShape
open Hdl Clocked Pulse

/-- Clock `n` lies between a counted strobe and the end of its hold phase. -/
def Busy (post : BitVec 32) (r : Run MotorStepGen.clock) (n : ℕ) : Prop :=
  ∃ s, Accepts r s ∧ s + 1 ≤ n ∧ n ≤ s + post.toNat

/-- The outputs of `motor_step_gen`, told from its accepted strobes alone. -/
structure Shaped (pre pulse post : BitVec 32) (r : Run MotorStepGen.clock) : Prop where
  high : ∀ s c, Accepts r s → s < c → (∀ k, s < k → k < c → ¬Accepts r k) →
    ((r.state c).step = true ↔ s + pre.toNat + 1 ≤ c ∧ c ≤ s + pulse.toNat)
  direction : ∀ s c, Accepts r s → s + 1 ≤ c → c ≤ s + post.toNat + 1 →
    (r.state c).dir = (r.input s).stepDir
  refuses : ∀ s c, Accepts r s → s + 1 ≤ c → c ≤ s + post.toNat → (r.state c).cnt ≠ 0
  ready : ∀ s c, Accepts r s → s + post.toNat + 1 ≤ c →
    (∀ k, s < k → k < c → ¬Accepts r k) → (r.state c).cnt = 0
  missed : ∀ n, (r.state (n + 1)).missed = true ↔ (r.input n).stepStb = true ∧ Busy post r n
  low : ∀ c, (r.state c).step = true →
    ∃ s, Accepts r s ∧ s + pre.toNat + 1 ≤ c ∧ c ≤ s + pulse.toNat

/-- Two runs with the same strobes outside the busy clocks of the first one have
the same counter and the same outputs, but for the reports of missed strobes. -/
def Ignores (pre pulse post : BitVec 32) (r : Run MotorStepGen.clock) : Prop :=
  ∀ q : Run MotorStepGen.clock, q.state 0 = r.state 0 →
    (∀ n, Fixed pre pulse post (q.input n)) →
    (∀ n, ¬Busy post r n → q.input n = r.input n) →
    ∀ n, (q.state n).cnt = (r.state n).cnt ∧ (q.state n).step = (r.state n).step ∧
      (q.state n).dir = (r.state n).dir

variable {pre pulse post : BitVec 32} {r : Run MotorStepGen.clock}

/-- What a busy generator does with its counter and outputs is the same with
and without a strobe. -/
theorem clock_busy_same {g k : MotorStepGen} {i j : MotorStepGen.Inputs}
    (hi : Fixed pre pulse post i) (hj : Fixed pre pulse post j) (hc : g.cnt ≠ 0)
    (hcnt : k.cnt = g.cnt) (hdir : k.dir = g.dir) :
    (k.clock j).cnt = (g.clock i).cnt ∧ (k.clock j).step = (g.clock i).step ∧
      (k.clock j).dir = (g.clock i).dir := by
  simp only [MotorStepGen.clock, hi.reset, hi.preN, hi.pulseN, hi.postN, hj.reset, hj.preN,
    hj.pulseN, hj.postN, hc, hcnt, Bool.false_eq_true, if_false]
  split
  · exact ⟨rfl, rfl, hdir⟩
  split
  · exact ⟨rfl, rfl, hdir⟩
  split
  · exact ⟨rfl, rfl, hdir⟩
  · exact ⟨rfl, rfl, hdir⟩

section Whole
variable (h : ∀ len, Driven pre pulse post r len) (hpost : pulse.toNat ≤ post.toNat)
include h hpost

theorem count_at (hs : Accepts r s) (hk : 1 ≤ k) (hle : k ≤ post.toNat) :
    (r.state (s + k)).cnt.toNat = k ∧ (r.state (s + k)).dir = (r.input s).stepDir :=
  (h (s + k)).pulse_at hs hk (by omega) (Nat.le_refl _)

theorem count_end (hs : Accepts r s) :
    (r.state (s + post.toNat + 1)).cnt = 0 ∧
      (r.state (s + post.toNat + 1)).dir = (r.input s).stepDir := by
  have hend := (h (s + (max pulse.toNat post.toNat + 1))).pulse_end hs (Nat.le_refl _)
  rwa [Nat.max_eq_right hpost, ← Nat.add_assoc] at hend

theorem busy_iff (n : ℕ) : Busy post r n ↔ (r.state n).cnt ≠ 0 := by
  constructor
  · rintro ⟨s, hs, hlo, hhi⟩ h0
    have hcnt := (count_at h hpost hs (k := n - s) (by omega) (by omega)).1
    rw [Nat.add_sub_cancel' (by omega), h0] at hcnt
    simp at hcnt
    omega
  · intro hc
    obtain ⟨s, hs, hn⟩ := (h n).origin (Nat.le_refl n) hc
    have hbound := ((h n).phased (Nat.le_refl n)).bound
    have hpos := cnt_ne_zero hc
    exact ⟨s, hs, by omega, by omega⟩

theorem ready_until_strobe (hs : Accepts r s) (hc : s + post.toNat + 1 ≤ c)
    (hno : ∀ k, s < k → k < c → ¬Accepts r k) : (r.state c).cnt = 0 := by
  induction c, hc using Nat.le_induction with
  | base => exact (count_end h hpost hs).1
  | succ c hc ih =>
    have hidle := ih (fun k hk hkc => hno k hk (by omega))
    exact (h (c + 1)).cnt_idle c.lt_succ_self hidle (hno c (by omega) c.lt_succ_self)

theorem shaped : Shaped pre pulse post r where
  high s c hs hc hno := by
    have hstep := ((h c).phased (Nat.le_refl c)).step
    by_cases hle : c ≤ s + post.toNat
    · have hcnt := (count_at h hpost hs (k := c - s) (by omega) (by omega)).1
      rw [Nat.add_sub_cancel' (by omega)] at hcnt
      rw [hstep, hcnt]
      omega
    · rw [hstep, ready_until_strobe h hpost hs (by omega) hno]
      simp
      omega
  direction s c hs hlo hhi := by
    by_cases hlast : c = s + post.toNat + 1
    · rw [hlast]
      exact (count_end h hpost hs).2
    · have hdir := (count_at h hpost hs (k := c - s) (by omega) (by omega)).2
      rwa [Nat.add_sub_cancel' (by omega)] at hdir
  refuses s c hs hlo hhi := (busy_iff h hpost c).mp ⟨s, hs, hlo, hhi⟩
  ready s c hs hc hno := ready_until_strobe h hpost hs hc hno
  missed n := by
    rw [busy_iff h hpost, r.next]
    by_cases hc : (r.state n).cnt = 0
    · rw [clock_idle ((h (n + 1)).fixed n n.lt_succ_self) hc]
      split <;> simp [hc]
    · rw [(clock_busy ((h (n + 1)).fixed n n.lt_succ_self) hc).2]
      exact ⟨fun hs => ⟨hs, hc⟩, And.left⟩
  low c hstep := by
    have hcnt := ((h c).phased (Nat.le_refl c)).step.mp hstep
    have hc : (r.state c).cnt ≠ 0 := by
      intro h0
      simp [h0] at hcnt
    obtain ⟨s, hs, hn⟩ := (h c).origin (Nat.le_refl c) hc
    exact ⟨s, hs, by omega, by omega⟩

theorem ignores : Ignores pre pulse post r := by
  intro q hstart hfix hsame n
  induction n with
  | zero => rw [hstart]; exact ⟨rfl, rfl, rfl⟩
  | succ n ih =>
    obtain ⟨hcnt, hstep, hdir⟩ := ih
    have hfixr := (h (n + 1)).fixed n n.lt_succ_self
    rw [q.next, r.next]
    by_cases hc : (r.state n).cnt = 0
    · have hin := hsame n (by rw [busy_iff h hpost]; simp [hc])
      rw [clock_idle (hfix n) (hcnt.trans hc), clock_idle hfixr hc, hin, hdir]
      exact ⟨rfl, rfl, rfl⟩
    · exact clock_busy_same hfixr (hfix n) hc hcnt hdir

end Whole

/-- Setup, width, hold and re-arm times of every pulse, for any strobe train. -/
theorem pulse_shaped (pre pulse post : BitVec 32) (r : Run MotorStepGen.clock)
    (hpre : 1 ≤ pre.toNat) (hpulse : pre.toNat < pulse.toNat) (hpost : pulse.toNat ≤ post.toNat)
    (hfix : ∀ n, Fixed pre pulse post (r.input n)) (hcnt : (r.state 0).cnt = 0)
    (hstep : (r.state 0).step = false) :
    Shaped pre pulse post r ∧ Ignores pre pulse post r := by
  have h : ∀ len, Driven pre pulse post r len :=
    fun _ => ⟨⟨hpre, hpulse⟩, fun n _ => hfix n, hcnt, hstep⟩
  exact ⟨shaped h hpost, ignores h hpost⟩

/-- Limits of one, two and four clocks, with strobes on clocks 0 and 3. -/
def shortPulse : Run MotorStepGen.clock :=
  .ofInputs _ { cnt := 0, step := false, dir := false, missed := false } fun n =>
    { reset := false, preN := 1, pulseN := 2, postN := 4, stepStb := n == 0 || n == 3,
      stepDir := n == 0 }

/-- The first strobe makes a pulse of one clock; the second is missed and its
direction ignored. -/
theorem short_pulse_shaped :
    Accepts shortPulse 0 ∧ (shortPulse.state 2).step = true ∧
      (shortPulse.state 4).missed = true ∧ (shortPulse.state 5).dir = true ∧
      (shortPulse.state 5).cnt = 0 := by
  have hs : Accepts shortPulse 0 := ⟨rfl, rfl⟩
  have hno : ∀ c, c ≤ 5 → ∀ k, 0 < k → k < c → ¬Accepts shortPulse k := by
    intro c hc k hk hkc
    have hle : k ≤ 4 := by omega
    rintro ⟨hcnt, -⟩
    revert hcnt
    interval_cases k <;> decide
  obtain ⟨h, -⟩ := pulse_shaped 1 2 4 shortPulse (by decide) (by decide) (by decide)
    (fun _ => ⟨rfl, rfl, rfl, rfl⟩) rfl rfl
  refine ⟨hs, ?_, ?_, ?_, ?_⟩
  · exact (h.high 0 2 hs (by decide) (hno 2 (by decide))).mpr ⟨by decide, by decide⟩
  · exact (h.missed 3).mpr ⟨rfl, 0, hs, by decide, by decide⟩
  · exact h.direction 0 5 hs (by decide) (by decide)
  · exact h.ready 0 5 hs (by decide) (hno 5 (by decide))

end Vp2Motion.Proofs.PulseShape
