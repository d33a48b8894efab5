import Vp2Motion.Firmware.Steppers
import Vp2Motion.Proofs.Position

namespace Vp2Motion.Proofs.Spacing
open Hdl Clocked Clocked.Crossing Firmware Pulse Position

/-- `acc_profile_gen` feeding `motor_step_gen`: constant settings, no reset and no
load of a position, from a state with nothing on its way to the motor. -/
structure Piped (pre pulse post : BitVec 32) (sb : BitVec 6) (p : Run AccProfileGen.clock)
    (q : Run MotorStepGen.clock) : Prop where
  strobe : ∀ n, (q.input n).stepStb = (p.state n).step
  dir : ∀ n, (q.input n).stepDir = (p.state n).dir
  noReset : ∀ n, (p.input n).reset = false
  noSetX : ∀ n, ((p.input n).load && (p.input n).setX) = false
  stepBit : ∀ n, (p.input n).stepBit = sb
  fixed : ∀ n, Fixed pre pulse post (q.input n)
  quiet : (p.state 0).step = false
  idle : (q.state 0).cnt = 0

/-- The position without the wraparound at `2 ^ 64`. -/
def unwrapped (p : Run AccProfileGen.clock) : ℕ → ℤ
  | 0 => (p.state 0).x.toNat
  | n + 1 => unwrapped p n + (p.state n).v.toInt

/-- The steps made by the position, an unbounded integer. -/
def level (sb : BitVec 6) (p : Run AccProfileGen.clock) (n : ℕ) : ℤ :=
  unwrapped p n / 2 ^ sb.toNat

namespace Piped
variable {pre pulse post : BitVec 32} {sb : BitVec 6} {p : Run AccProfileGen.clock}
  {q : Run MotorStepGen.clock}

theorem x_next (h : Piped pre pulse post sb p q) (n : ℕ) :
    (p.state (n + 1)).x = (p.state n).xAcc := by
  rw [p.next]
  simp [AccProfileGen.clock, h.noReset n, h.noSetX n]

theorem step_next (h : Piped pre pulse post sb p q) (n : ℕ) :
    (p.state (n + 1)).step = (p.state n).crossed sb := by
  rw [p.next]
  simp [AccProfileGen.clock, h.noReset n, h.noSetX n, h.stepBit n]

theorem dir_next (h : Piped pre pulse post sb p q) (hc : (p.state n).crossed sb = true) :
    (p.state (n + 1)).dir = (0 : BitVec 32).slt (p.state n).v := by
  rw [p.next]
  simp [AccProfileGen.clock, h.noReset n, h.noSetX n, h.stepBit n, hc]

theorem x_eq (h : Piped pre pulse post sb p q) (n : ℕ) :
    ((p.state n).x.toNat : ℤ) = unwrapped p n % 2 ^ 64 := by
  induction n with
  | zero =>
    have hlt := (p.state 0).x.isLt
    rw [unwrapped, Int.emod_eq_of_lt (by positivity) (by exact_mod_cast hlt)]
  | succ n ih => rw [h.x_next, xAcc_toNat, ih, unwrapped, Int.emod_add_emod]

/-- Bit `sb` of the register is the parity of the level. -/
theorem bit_eq (h : Piped pre pulse post sb p q) (n : ℕ) :
    ((p.state n).x.toNat : ℤ) / 2 ^ sb.toNat % 2 = level sb p n % 2 := by
  have hsb := sb.isLt
  have hsplit : (2 : ℤ) ^ 64 = 2 ^ sb.toNat * 2 ^ (64 - sb.toNat) := by
    rw [← pow_add]
    congr 1
    omega
  rw [h.x_eq, hsplit, level]
  exact (whole_wrap (by positivity) _).of_dvd (dvd_pow_self 2 (by omega))

theorem crossed_iff (h : Piped pre pulse post sb p q) (n : ℕ) :
    (p.state n).crossed sb = true ↔ level sb p n % 2 ≠ level sb p (n + 1) % 2 := by
  rw [AccProfileGen.crossed, bne_iff_ne, ne_eq, ← h.x_next, bit_eq_iff, h.bit_eq, h.bit_eq]

/-- One clock at no more than one step per clock: the level moves with a strobe,
in the direction the strobe reports. -/
theorem level_next (h : Piped pre pulse post sb p q)
    (hv : |(p.state n).v.toInt| ≤ 2 ^ sb.toNat) :
    (p.state (n + 1)).step = false ∧ level sb p (n + 1) = level sb p n ∨
    (p.state (n + 1)).step = true ∧ (p.state (n + 1)).dir = true ∧ 0 < (p.state n).v.toInt ∧
      level sb p (n + 1) = level sb p n + 1 ∨
    (p.state (n + 1)).step = true ∧ (p.state (n + 1)).dir = false ∧ (p.state n).v.toInt < 0 ∧
      level sb p (n + 1) = level sb p n - 1 := by
  have hcross := h.crossed_iff n
  rw [h.step_next n]
  have hpos : (0 : BitVec 32).slt (p.state n).v = true ↔ 0 < (p.state n).v.toInt := by
    rw [BitVec.slt_iff_toInt_lt]
    rfl
  rcases whole_move (x := unwrapped p n) (m := 2 ^ sb.toNat) (by positivity) hv with
    hsame | ⟨hup, hv⟩ | ⟨hdown, hv⟩
  · have heq : level sb p (n + 1) = level sb p n := hsame
    refine .inl ⟨?_, heq⟩
    rw [Bool.eq_false_iff, ne_eq, hcross, heq]
    simp
  · have heq : level sb p (n + 1) = level sb p n + 1 := hup
    have hc := hcross.mpr (by omega)
    exact .inr (.inl ⟨hc, (h.dir_next hc).trans (hpos.mpr hv), hv, heq⟩)
  · have heq : level sb p (n + 1) = level sb p n - 1 := hdown
    have hc := hcross.mpr (by omega)
    refine .inr (.inr ⟨hc, (h.dir_next hc).trans ?_, hv, heq⟩)
    rw [Bool.eq_false_iff, ne_eq, hpos]
    omega

/-- Two strobes between which the level moves by two. -/
theorem apart (h : ∀ n, |(p.state n).v.toInt| ≤ (V : ℕ)) (hV : 1 ≤ V) (hab : a ≤ b)
    (hl : level sb p a + 2 ≤ level sb p (b + 1) ∨ level sb p (b + 1) + 2 ≤ level sb p a) :
    2 ^ sb.toNat / V ≤ b - a := by
  have hrate : ∀ n, |unwrapped p (n + 1) - unwrapped p n| ≤ (V : ℤ) := by
    intro n
    rw [unwrapped, add_sub_cancel_left]
    exact h n
  have hgap := crossings_apart (m := 2 ^ sb.toNat) (by positivity) (by omega) hrate hab hl
  exact_mod_cast hgap

theorem level_between (h : Piped pre pulse post sb p q)
    (hslow : ∀ n, |(p.state n).v.toInt| ≤ 2 ^ sb.toNat) (hab : a ≤ b)
    (hno : ∀ k, a < k → k ≤ b → (p.state k).step = false) : level sb p b = level sb p a := by
  induction b, hab using Nat.le_induction with
  | base => rfl
  | succ b hab ih =>
    have hprev := ih (fun k hk hkb => hno k hk (by omega))
    have hquiet := hno (b + 1) (by omega) (Nat.le_refl _)
    rcases h.level_next (hslow b) with ⟨-, heq⟩ | ⟨hs, -⟩ | ⟨hs, -⟩
    · rw [heq, hprev]
    · simp [hquiet] at hs
    · simp [hquiet] at hs

/-- Two successive strobes of one direction are one step at full speed apart,
whatever the velocity does in between. -/
theorem successive_apart (h : Piped pre pulse post sb p q) (hV : 1 ≤ V) (hVsb : V ≤ 2 ^ sb.toNat)
    (hv : ∀ n, |(p.state n).v.toInt| ≤ (V : ℕ)) (hst : s < t) (hs : (p.state s).step = true)
    (ht : (p.state t).step = true) (hno : ∀ k, s < k → k < t → (p.state k).step = false)
    (hdir : (p.state s).dir = (p.state t).dir) : 2 ^ sb.toNat / V ≤ t - s := by
  have hslow : ∀ n, |(p.state n).v.toInt| ≤ 2 ^ sb.toNat :=
    fun n => (hv n).trans (by exact_mod_cast hVsb)
  obtain ⟨a, rfl⟩ : ∃ a, s = a + 1 := by
    refine ⟨s - 1, ?_⟩
    have hne : s ≠ 0 := by
      rintro rfl
      simp [h.quiet] at hs
    omega
  obtain ⟨b, rfl⟩ : ∃ b, t = b + 1 := ⟨t - 1, by omega⟩
  have hbetween := h.level_between hslow (show a + 1 ≤ b by omega)
    (fun k hk hkb => hno k hk (by omega))
  rw [Nat.add_sub_add_right]
  apply apart hv hV (by omega)
  rcases h.level_next (hslow a) with ⟨hf, -⟩ | ⟨-, hda, -, ha⟩ | ⟨-, hda, -, ha⟩
  · simp [hs] at hf
  · rcases h.level_next (hslow b) with ⟨hf, -⟩ | ⟨-, -, -, hb⟩ | ⟨-, hdb, -⟩
    · simp [ht] at hf
    · exact .inl (by omega)
    · simp [hda, hdb] at hdir
  · rcases h.level_next (hslow b) with ⟨hf, -⟩ | ⟨-, hdb, -⟩ | ⟨-, -, -, hb⟩
    · simp [ht] at hf
    · simp [hda, hdb] at hdir
    · exact .inr (by omega)

/-- Velocities of one sign make strobes of one direction. -/
theorem one_direction (h : Piped pre pulse post sb p q)
    (hslow : ∀ n, |(p.state n).v.toInt| ≤ 2 ^ sb.toNat)
    (hsign : (∀ n, 0 ≤ (p.state n).v.toInt) ∨ ∀ n, (p.state n).v.toInt ≤ 0) :
    ∃ d, ∀ n, (p.state n).step = true → (p.state n).dir = d := by
  rcases hsign with hup | hdown
  · refine ⟨true, ?_⟩
    rintro (_ | n) hs
    · simp [h.quiet] at hs
    · rcases h.level_next (hslow n) with ⟨hf, -⟩ | ⟨-, hd, -⟩ | ⟨-, -, hneg, -⟩
      · simp [hs] at hf
      · exact hd
      · have := hup n
        omega
  · refine ⟨false, ?_⟩
    rintro (_ | n) hs
    · simp [h.quiet] at hs
    · rcases h.level_next (hslow n) with ⟨hf, -⟩ | ⟨-, -, hpos, -⟩ | ⟨-, hd, -⟩
      · simp [hs] at hf
      · have := hdown n
        omega
      · exact hd

theorem strobes_apart (h : Piped pre pulse post sb p q) (hV : 1 ≤ V) (hVsb : V ≤ 2 ^ sb.toNat)
    (hv : ∀ n, |(p.state n).v.toInt| ≤ (V : ℕ))
    (hsign : (∀ n, 0 ≤ (p.state n).v.toInt) ∨ ∀ n, (p.state n).v.toInt ≤ 0)
    (hst : s < t) (hs : (p.state s).step = true) (ht : (p.state t).step = true) :
    2 ^ sb.toNat / V ≤ t - s := by
  obtain ⟨d, hd⟩ := h.one_direction (fun n => (hv n).trans (by exact_mod_cast hVsb)) hsign
  obtain ⟨l, hsl, hlt, hl, hno⟩ := last_before (P := fun n => (p.state n).step = true) hst hs
  have hgap := h.successive_apart hV hVsb hv hlt hl ht
    (fun k hk hkt => Bool.eq_false_iff.mpr (hno k hk hkt)) ((hd l hl).trans (hd t ht).symm)
  omega

/-- A missed strobe lies within the busy time of an accepted one. -/
theorem missed_origin (h : Piped pre pulse post sb p q) (hm : (q.state (n + 1)).missed = true) :
    (p.state n).step = true ∧ ∃ s, Accepts q s ∧ s < n ∧
      n ≤ s + max 1 (max pre.toNat (max pulse.toNat post.toNat)) := by
  rw [q.next] at hm
  by_cases hc : (q.state n).cnt = 0
  · rw [clock_idle (h.fixed n) hc] at hm
    split at hm <;> simp at hm
  · rw [(clock_busy (h.fixed n) hc).2, h.strobe] at hm
    obtain ⟨s, hs, hn, hbound⟩ :=
      origin_of_fixed (fun n _ => h.fixed n) h.idle (Nat.le_refl n) hc
    have hpos := cnt_ne_zero hc
    exact ⟨hm, s, hs, by omega, by omega⟩

theorem none_missed (h : Piped pre pulse post sb p q)
    (hgap : ∀ s t, s < t → (p.state s).step = true → (p.state t).step = true →
      max 1 (max pre.toNat (max pulse.toNat post.toNat)) + 1 ≤ t - s) (n : ℕ) :
    (q.state (n + 1)).missed = false := by
  rw [Bool.eq_false_iff]
  intro hm
  obtain ⟨ht, s, hs, hlt, hle⟩ := h.missed_origin hm
  have hstep := hs.2
  rw [h.strobe] at hstep
  have := hgap s n hlt hstep ht
  omega

end Piped

/-- While the velocity keeps its sign, strobes leave each other the time of one
step at full speed, and none is missed if that covers the busy time. With the
firmware's settings it does at every velocity. -/
theorem no_step_dropped (pre pulse post : BitVec 32) (sb : BitVec 6)
    (p : Run AccProfileGen.clock) (q : Run MotorStepGen.clock) (h : Piped pre pulse post sb p q)
    (hsign : (∀ n, 0 ≤ (p.state n).v.toInt) ∨ ∀ n, (p.state n).v.toInt ≤ 0) :
    (∀ V : ℕ, 1 ≤ V → V ≤ 2 ^ sb.toNat → (∀ n, |(p.state n).v.toInt| ≤ V) →
      (∀ s t, s < t → (p.state s).step = true → (p.state t).step = true →
        2 ^ sb.toNat / V ≤ t - s) ∧
      (max 1 (max pre.toNat (max pulse.toNat post.toNat)) + 1 ≤ 2 ^ sb.toNat / V →
        ∀ n, (q.state (n + 1)).missed = false)) ∧
    (sb = 40 → pre = initPreN → pulse = initPulseN → post = initPostN →
      ∀ n, (q.state (n + 1)).missed = false) := by
  have hgap : ∀ V : ℕ, 1 ≤ V → V ≤ 2 ^ sb.toNat → (∀ n, |(p.state n).v.toInt| ≤ V) →
      ∀ s t, s < t → (p.state s).step = true → (p.state t).step = true →
        2 ^ sb.toNat / V ≤ t - s :=
    fun V hV hVsb hv s t => h.strobes_apart hV hVsb hv hsign
  refine ⟨?_, ?_⟩
  · intro V hV hVsb hv
    refine ⟨hgap V hV hVsb hv, ?_⟩
    intro hbusy
    exact h.none_missed fun s t hst hs ht => hbusy.trans (hgap V hV hVsb hv s t hst hs ht)
  · rintro rfl rfl rfl rfl
    have hv : ∀ n, |(p.state n).v.toInt| ≤ ((2 ^ 31 : ℕ) : ℤ) := by
      intro n
      exact @slow_of_high_bit 31 (by decide) _
    refine h.none_missed fun s t hst hs ht => ?_
    exact Nat.le_trans (by decide) (hgap (2 ^ 31) (by decide) (by decide) hv s t hst hs ht)

/-- The profile generator inside `user_logic`. -/
def profile (r : Run (UserLogic.clock false)) : Run AccProfileGen.clock where
  state n := (r.state n).accProfileGen
  input n := (r.state n).profileInputs false
  next n := by
    rw [r.next]
    rfl

/-- `user_logic` wires the two generators as `Piped` says. -/
theorem piped_of_settings {pre pulse post : BitVec 32} {sb : BitVec 6}
    {r : Run (UserLogic.clock false)} (hpre : ∀ n, (r.state n).reg .preN = pre)
    (hpulse : ∀ n, (r.state n).reg .pulseN = pulse) (hpost : ∀ n, (r.state n).reg .postN = post)
    (hsb : ∀ n, ((r.state n).reg .stepBit).setWidth 6 = sb) (hx : ∀ n, (r.state n).setX = false)
    (hstep : (r.state 0).accProfileGen.step = false) (hcnt : (r.state 0).motorStepGen.cnt = 0) :
    Piped pre pulse post sb (profile r) (motor r) where
  strobe _ := rfl
  dir _ := rfl
  noReset _ := rfl
  noSetX n := by simp [profile, UserLogic.profileInputs, hx n]
  stepBit := hsb
  fixed n := ⟨rfl, hpre n, hpulse n, hpost n⟩
  quiet := hstep
  idle := hcnt

/-- A quarter of a step per clock against a busy time of two clocks. -/
theorem cruise_drops_none :
    Piped 1 2 0 31 (profile cruise) (motor cruise) ∧ ((profile cruise).state 4).step = true ∧
      (cruise.state 5).motorStepGen.missed = false := by
  have h : Piped 1 2 0 31 (profile cruise) (motor cruise) := by
    refine piped_of_settings ?_ ?_ ?_ ?_ ?_ rfl rfl
    · exact fun n => by rw [(cruise_at n).1]; rfl
    · exact fun n => by rw [(cruise_at n).1]; rfl
    · exact fun n => by rw [(cruise_at n).1]; rfl
    · exact fun n => by rw [(cruise_at n).1]; rfl
    · exact fun n => by rw [UserLogic.setX, (cruise_at n).1]; rfl
  have hv : ∀ n, ((profile cruise).state n).v.toInt = 2 ^ 29 := by
    intro n
    change (cruise.state n).accProfileGen.v.toInt = _
    rw [(cruise_at n).2.2]
    decide
  obtain ⟨hall, -⟩ := no_step_dropped 1 2 0 31 _ _ h (.inl fun n => by rw [hv]; decide)
  have hmissed := (hall (2 ^ 29) (by decide) (by decide) (fun n => by rw [hv]; decide)).2
  exact ⟨h, by decide, hmissed (by decide) 4⟩

end Vp2Motion.Proofs.Spacing
