import Vp2Motion.Clocked.Run
import Vp2Motion.Hdl.MotorStepGen

namespace Vp2Motion.Proofs.Pulse
open Hdl Clocked

/-- Pulse settings under which a pulse appears at all. The limit after the pulse
may be anything. -/
structure Settings (pre pulse : BitVec 32) : Prop where
  prePos : 1 ≤ pre.toNat
  preLt : pre.toNat < pulse.toNat

structure Fixed (pre pulse post : BitVec 32) (i : MotorStepGen.Inputs) : Prop where
  reset : i.reset = false
  preN : i.preN = pre
  pulseN : i.pulseN = pulse
  postN : i.postN = post

/-- The output follows the counter, and the counter stays in its range. -/
structure Phased (pre pulse post : BitVec 32) (g : MotorStepGen) : Prop where
  step : g.step = true ↔ pre.toNat < g.cnt.toNat ∧ g.cnt.toNat ≤ pulse.toNat
  bound : g.cnt.toNat ≤ max pulse.toNat post.toNat

variable {pre pulse post : BitVec 32} {g : MotorStepGen} {i : MotorStepGen.Inputs}

theorem clock_idle (hi : Fixed pre pulse post i) (hc : g.cnt = 0) :
    g.clock i =
      if i.stepStb then { cnt := 1, step := false, dir := i.stepDir, missed := false }
      else { cnt := 0, step := false, dir := g.dir, missed := false } := by
  simp [MotorStepGen.clock, hi.reset, hc]

/-- While a pulse is in progress the direction is latched and every strobe is
reported as missed. -/
theorem clock_busy (hi : Fixed pre pulse post i) (hc : g.cnt ≠ 0) :
    (g.clock i).dir = g.dir ∧ (g.clock i).missed = i.stepStb := by
  simp only [MotorStepGen.clock, hi.reset, hc, Bool.false_eq_true, if_false]
  split
  · exact ⟨rfl, rfl⟩
  split
  · exact ⟨rfl, rfl⟩
  split
  · exact ⟨rfl, rfl⟩
  · exact ⟨rfl, rfl⟩

/-- The counter runs up to the largest one of the limits. -/
theorem cnt_clock (hi : Fixed pre pulse post i) (hc : g.cnt ≠ 0) :
    (g.clock i).cnt.toNat =
      if g.cnt.toNat < max pre.toNat (max pulse.toNat post.toNat) then g.cnt.toNat + 1 else 0 := by
  have hpre := pre.isLt
  have hpulse := pulse.isLt
  have hpost := post.isLt
  have hsucc : g.cnt.toNat < max pre.toNat (max pulse.toNat post.toNat) →
      (g.cnt + 1).toNat = g.cnt.toNat + 1 := by
    intro h
    rw [BitVec.toNat_add]
    exact Nat.mod_eq_of_lt (by simp; omega)
  simp only [MotorStepGen.clock, hi.reset, hi.preN, hi.pulseN, hi.postN, hc, Bool.false_eq_true,
    if_false, BitVec.lt_def]
  split
  · rw [if_pos (by omega)]
    exact hsucc (by omega)
  split
  · rw [if_pos (by omega)]
    exact hsucc (by omega)
  split
  · rw [if_pos (by omega)]
    exact hsucc (by omega)
  · rw [if_neg (by omega)]
    rfl

theorem cnt_busy (hs : Settings pre pulse) (hi : Fixed pre pulse post i) (hc : g.cnt ≠ 0) :
    (g.clock i).cnt.toNat =
      if g.cnt.toNat < max pulse.toNat post.toNat then g.cnt.toNat + 1 else 0 := by
  have hlt := hs.preLt
  rw [cnt_clock hi hc, Nat.max_eq_right (show pre.toNat ≤ max pulse.toNat post.toNat by omega)]

theorem step_busy (hi : Fixed pre pulse post i) (hc : g.cnt ≠ 0) :
    (g.clock i).step = true ↔ pre.toNat ≤ g.cnt.toNat ∧ g.cnt.toNat < pulse.toNat := by
  simp only [MotorStepGen.clock, hi.reset, hi.preN, hi.pulseN, hi.postN, hc, Bool.false_eq_true,
    if_false, BitVec.lt_def]
  split
  · simp
    omega
  split
  · simp
    omega
  split <;> simp <;> omega

theorem cnt_ne_zero (h : g.cnt ≠ 0) : 1 ≤ g.cnt.toNat := by
  rw [Nat.one_le_iff_ne_zero]
  intro h0
  exact h (BitVec.eq_of_toNat_eq h0)

theorem phased_clock (hs : Settings pre pulse) (hi : Fixed pre pulse post i) :
    Phased pre pulse post (g.clock i) := by
  have hpos := hs.prePos
  have hlt := hs.preLt
  by_cases hc : g.cnt = 0
  · rw [clock_idle hi hc]
    split
    · exact ⟨by simp; omega, by simp; omega⟩
    · exact ⟨by simp, by simp⟩
  · have hcnt := cnt_busy hs hi hc
    have hone := cnt_ne_zero hc
    refine ⟨?_, ?_⟩
    · rw [step_busy hi hc, hcnt]
      split <;> omega
    · rw [hcnt]
      split <;> omega

/-- A run that starts between two pulses and has constant settings for its
first `len` clocks. -/
structure Driven (pre pulse post : BitVec 32) (r : Run MotorStepGen.clock) (len : ℕ) : Prop where
  settings : Settings pre pulse
  fixed : ∀ n, n < len → Fixed pre pulse post (r.input n)
  idle : (r.state 0).cnt = 0
  low : (r.state 0).step = false

def Accepts (r : Run MotorStepGen.clock) (n : ℕ) : Prop :=
  (r.state n).cnt = 0 ∧ (r.input n).stepStb = true

/-- `S_Step` is low on clock `n` and high on the next. -/
def Rises (r : Run MotorStepGen.clock) (n : ℕ) : Prop :=
  (r.state n).step = false ∧ (r.state (n + 1)).step = true

def Falls (r : Run MotorStepGen.clock) (n : ℕ) : Prop :=
  (r.state n).step = true ∧ (r.state (n + 1)).step = false

/-- A running counter goes back to an accepted strobe, whatever the limits are. -/
theorem origin_of_fixed {r : Run MotorStepGen.clock} {len n : ℕ}
    (hfix : ∀ n, n < len → Fixed pre pulse post (r.input n)) (hidle : (r.state 0).cnt = 0)
    (hlen : n ≤ len) (hc : (r.state n).cnt ≠ 0) :
    ∃ s, Accepts r s ∧ n = s + (r.state n).cnt.toNat ∧
      (r.state n).cnt.toNat ≤ max 1 (max pre.toNat (max pulse.toNat post.toNat)) := by
  induction n with
  | zero => exact absurd hidle hc
  | succ n ih =>
    have hi := hfix n hlen
    by_cases h0 : (r.state n).cnt = 0
    · have hnext := r.next n
      rw [clock_idle hi h0] at hnext
      cases hs : (r.input n).stepStb with
      | true =>
        rw [hs, if_pos rfl] at hnext
        exact ⟨n, ⟨h0, hs⟩, by rw [hnext]; rfl, by rw [hnext]; exact Nat.le_max_left _ _⟩
      | false =>
        rw [hs] at hnext
        exact absurd (by rw [hnext]; rfl) hc
    · obtain ⟨s, hs, hn, hbound⟩ := ih (by omega) h0
      have hnext := cnt_clock hi h0
      rw [← r.next] at hnext
      have hpos := cnt_ne_zero hc
      split at hnext
      · exact ⟨s, hs, by omega, by omega⟩
      · omega

namespace Driven
variable {r : Run MotorStepGen.clock} {len n : ℕ}

theorem phased (h : Driven pre pulse post r len) (hlen : n ≤ len) :
    Phased pre pulse post (r.state n) := by
  cases n with
  | zero => exact ⟨by simp [h.low, h.idle], by simp [h.idle]⟩
  | succ n =>
    rw [r.next]
    exact phased_clock h.settings (h.fixed n hlen)

/-- The direction moves only with an accepted strobe. -/
theorem dir_kept (h : Driven pre pulse post r len) (hlen : n < len) (hn : ¬Accepts r n) :
    (r.state (n + 1)).dir = (r.state n).dir := by
  rw [r.next]
  by_cases hc : (r.state n).cnt = 0
  · have hstb : (r.input n).stepStb = false := by
      rw [Bool.eq_false_iff]
      exact fun hs => hn ⟨hc, hs⟩
    simp [clock_idle (h.fixed n hlen) hc, hstb]
  · exact (clock_busy (h.fixed n hlen) hc).1

theorem cnt_idle (h : Driven pre pulse post r len) (hlen : n < len) (hc : (r.state n).cnt = 0)
    (hn : ¬Accepts r n) : (r.state (n + 1)).cnt = 0 := by
  have hstb : (r.input n).stepStb = false := by
    rw [Bool.eq_false_iff]
    exact fun hs => hn ⟨hc, hs⟩
  rw [r.next, clock_idle (h.fixed n hlen) hc, hstb]
  rfl

theorem accepted (h : Driven pre pulse post r len) (hlen : n < len) (hs : Accepts r n) :
    (r.state (n + 1)).cnt.toNat = 1 ∧ (r.state (n + 1)).dir = (r.input n).stepDir ∧
      (r.state (n + 1)).step = false := by
  rw [r.next, clock_idle (h.fixed n hlen) hs.1, if_pos hs.2]
  exact ⟨rfl, rfl, rfl⟩

theorem cnt_next (h : Driven pre pulse post r len) (hlen : n < len) (hc : (r.state n).cnt ≠ 0) :
    (r.state (n + 1)).cnt.toNat =
      if (r.state n).cnt.toNat < max pulse.toNat post.toNat then (r.state n).cnt.toNat + 1
      else 0 := by
  rw [r.next, cnt_busy h.settings (h.fixed n hlen) hc]

/-- A pulse counts its clocks and keeps the direction of its strobe. -/
theorem pulse_at (h : Driven pre pulse post r len) (hs : Accepts r s) (hk : 1 ≤ k)
    (hle : k ≤ max pulse.toNat post.toNat) (hlen : s + k ≤ len) :
    (r.state (s + k)).cnt.toNat = k ∧ (r.state (s + k)).dir = (r.input s).stepDir := by
  induction k, hk using Nat.le_induction with
  | base =>
    obtain ⟨hcnt, hdir, -⟩ := h.accepted (by omega) hs
    exact ⟨hcnt, hdir⟩
  | succ k hk ih =>
    obtain ⟨hcnt, hdir⟩ := ih (by omega) (by omega)
    have hc : (r.state (s + k)).cnt ≠ 0 := by
      intro h0
      rw [h0] at hcnt
      simp at hcnt
      omega
    rw [← Nat.add_assoc]
    refine ⟨?_, ?_⟩
    · rw [h.cnt_next (by omega) hc, hcnt, if_pos (by omega)]
    · rw [h.dir_kept (by omega) (fun ha => hc ha.1), hdir]

theorem pulse_end (h : Driven pre pulse post r len) (hs : Accepts r s)
    (hlen : s + (max pulse.toNat post.toNat + 1) ≤ len) :
    (r.state (s + (max pulse.toNat post.toNat + 1))).cnt = 0 ∧
      (r.state (s + (max pulse.toNat post.toNat + 1))).dir = (r.input s).stepDir := by
  have hlt := h.settings.preLt
  obtain ⟨hcnt, hdir⟩ := h.pulse_at hs (k := max pulse.toNat post.toNat) (by omega) (Nat.le_refl _)
    (by omega)
  have hc : (r.state (s + max pulse.toNat post.toNat)).cnt ≠ 0 := by
    intro h0
    rw [h0] at hcnt
    simp at hcnt
    omega
  rw [← Nat.add_assoc]
  refine ⟨?_, ?_⟩
  · apply BitVec.eq_of_toNat_eq
    rw [h.cnt_next (by omega) hc, hcnt, if_neg (by omega)]
    rfl
  · rw [h.dir_kept (by omega) (fun ha => hc ha.1), hdir]

theorem origin (h : Driven pre pulse post r len) (hlen : n ≤ len) (hc : (r.state n).cnt ≠ 0) :
    ∃ s, Accepts r s ∧ n = s + (r.state n).cnt.toNat := by
  obtain ⟨s, hs, hn, -⟩ := origin_of_fixed h.fixed h.idle hlen hc
  exact ⟨s, hs, hn⟩

/-- The output rises when the counter has reached the first limit. -/
theorem rises_iff (h : Driven pre pulse post r len) (hlen : n < len) :
    Rises r n ↔ (r.state n).cnt.toNat = pre.toNat := by
  have hpos := h.settings.prePos
  have hlt := h.settings.preLt
  have hph := (h.phased (Nat.le_of_lt hlen)).step
  unfold Rises
  rw [Bool.eq_false_iff, ne_eq, hph, r.next]
  by_cases hc : (r.state n).cnt = 0
  · rw [clock_idle (h.fixed n hlen) hc, hc]
    simp
    split <;> simp <;> omega
  · rw [step_busy (h.fixed n hlen) hc]
    omega

theorem falls_iff (h : Driven pre pulse post r len) (hlen : n < len) :
    Falls r n ↔ (r.state n).cnt.toNat = pulse.toNat := by
  have hpos := h.settings.prePos
  have hlt := h.settings.preLt
  have hph := (h.phased (Nat.le_of_lt hlen)).step
  unfold Falls
  rw [Bool.eq_false_iff, ne_eq, hph, r.next]
  by_cases hc : (r.state n).cnt = 0
  · rw [hc]
    simp
    omega
  · rw [step_busy (h.fixed n hlen) hc]
    omega

end Driven

end Vp2Motion.Proofs.Pulse
