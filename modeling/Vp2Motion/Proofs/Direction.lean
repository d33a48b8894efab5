import Vp2Motion.Firmware.Steppers
import Vp2Motion.Proofs.Pulse

namespace Vp2Motion.Proofs.Direction
open Hdl Clocked Firmware Pulse

/-- The inputs of `motor_step_gen` after the firmware's INIT. -/
def configured (strobe : Bool × Bool) : MotorStepGen.Inputs where
  reset := false
  preN := initPreN
  pulseN := initPulseN
  postN := initPostN
  stepStb := strobe.1
  stepDir := strobe.2

def between (dir : Bool) : MotorStepGen := { cnt := 0, step := false, dir := dir, missed := false }

def steps (dir : Bool) (input : ℕ → Bool × Bool) : Run MotorStepGen.clock :=
  .ofInputs _ (between dir) fun n => configured (input n)

theorem driven (dir : Bool) (input : ℕ → Bool × Bool) (len : ℕ) :
    Driven 100 300 100 (steps dir input) len :=
  ⟨⟨by decide, by decide⟩, fun _ _ => ⟨rfl, rfl, rfl, rfl⟩, rfl, rfl⟩

/-- `S_Dir` stands still in the 100 clocks before a rising edge and on it, while
`S_Step` is high, and in the 100 clocks after a falling edge. -/
structure KeepsDirection (r : Run MotorStepGen.clock) : Prop where
  setup : ∀ n, Rises r n → ∀ c, n + 1 ≤ c + 100 → c ≤ n + 1 →
    (r.state c).dir = (r.state (n + 1)).dir
  high : ∀ n, (r.state n).step = true → (r.state (n + 1)).dir = (r.state n).dir
  hold : ∀ n, Falls r n → ∀ c, n + 1 ≤ c → c < n + 1 + 100 →
    (r.state c).dir = (r.state (n + 1)).dir

/-- A strobe counts when none has counted in the 300 clocks before it. -/
def Counts (strobe : ℕ → Bool) (n : ℕ) : Prop :=
  strobe n = true ∧ ∀ m, m < n → n ≤ m + 300 → ¬Counts strobe m
termination_by n

/-- No two counted strobes within 400 clocks ask for opposite directions. -/
def Spaced (input : ℕ → Bool × Bool) : Prop :=
  ∀ s t, Counts (fun n => (input n).1) s → Counts (fun n => (input n).1) t →
    s < t → t < s + 400 → (input t).2 = (input s).2

variable {dir : Bool} {input : ℕ → Bool × Bool}

theorem accepts_iff (n : ℕ) :
    Accepts (steps dir input) n ↔ Counts (fun n => (input n).1) n := by
  induction n using Nat.strong_induction_on with
  | h n ih =>
    have h := driven dir input n
    rw [Counts]
    constructor
    · rintro ⟨hc, hstb⟩
      refine ⟨hstb, ?_⟩
      intro m hm hle hcount
      have hcnt := (h.pulse_at ((ih m hm).mpr hcount) (k := n - m) (by omega)
        (by simp; omega) (by omega)).1
      rw [Nat.add_sub_cancel' (Nat.le_of_lt hm), hc] at hcnt
      simp at hcnt
      omega
    · rintro ⟨hstb, hfree⟩
      refine ⟨?_, hstb⟩
      by_contra hc
      obtain ⟨s, hs, hn⟩ := h.origin n.le_refl hc
      have hpos := cnt_ne_zero hc
      have hbound := (h.phased n.le_refl).bound
      simp at hbound
      exact hfree s (by omega) (by omega) ((ih s (by omega)).mp hs)

/-- A rising edge comes 101 clocks after its strobe and the direction is set on
the first of them. -/
theorem setup_kept (n : ℕ) (hr : Rises (steps dir input) n) (c : ℕ) (hc : n + 1 ≤ c + 100)
    (hn : c ≤ n + 1) : ((steps dir input).state c).dir = ((steps dir input).state (n + 1)).dir := by
  have h := driven dir input (n + 1)
  have hcnt : ((steps dir input).state n).cnt.toNat = 100 := (h.rises_iff n.lt_succ_self).mp hr
  obtain ⟨s, hs, hsn⟩ := h.origin n.le_succ (by intro h0; simp [h0] at hcnt)
  have hdir : ∀ k, 1 ≤ k → k ≤ 101 → ((steps dir input).state (s + k)).dir = (input s).2 :=
    fun k hk hle => (h.pulse_at hs hk (by simp; omega) (by omega)).2
  rw [show c = s + (c - s) by omega, show n + 1 = s + 101 by omega, hdir _ (by omega) (by omega),
    hdir _ (by omega) (by omega)]

theorem high_kept (n : ℕ) (hs : ((steps dir input).state n).step = true) :
    ((steps dir input).state (n + 1)).dir = ((steps dir input).state n).dir := by
  have h := driven dir input (n + 1)
  apply h.dir_kept n.lt_succ_self
  rintro ⟨h0, -⟩
  have := (h.phased n.le_succ).step.mp hs
  simp [h0] at this

/-- After a falling edge the next strobe may count at once. -/
theorem falls_after (hs : Accepts (steps dir input) s) :
    Falls (steps dir input) (s + 300) ∧
      ((steps dir input).state (s + 300 + 1)).dir = (input s).2 := by
  have h := driven dir input (s + 301)
  refine ⟨(h.falls_iff (by omega)).mpr (h.pulse_at hs (by omega) (by simp) (by omega)).1, ?_⟩
  exact (h.pulse_end hs (by simp)).2

theorem hold_iff :
    (∀ n, Falls (steps dir input) n → ∀ c, n + 1 ≤ c → c < n + 1 + 100 →
      ((steps dir input).state c).dir = ((steps dir input).state (n + 1)).dir) ↔
    Spaced input := by
  constructor
  · intro hhold s t hs ht hst hlt
    have hsa : Accepts (steps dir input) s := (accepts_iff s).mpr hs
    have hta : Accepts (steps dir input) t := (accepts_iff t).mpr ht
    have hgap : s + 300 < t := by
      rw [Counts] at ht
      by_contra hle
      exact ht.2 s hst (by omega) hs
    obtain ⟨hfall, hdir⟩ := falls_after hsa
    have hkept := hhold _ hfall (t + 1) (by omega) (by omega)
    rw [hdir, ((driven dir input (t + 1)).accepted t.lt_succ_self hta).2.1] at hkept
    exact hkept
  · intro hspaced n hfall c hc hlt
    have h := driven dir input (n + 101)
    have hcnt : ((steps dir input).state n).cnt.toNat = 300 := (h.falls_iff (by omega)).mp hfall
    obtain ⟨s, hs, hsn⟩ := h.origin (n := n) (by omega) (by intro h0; simp [h0] at hcnt)
    obtain rfl : n = s + 300 := by omega
    have hfirst := (falls_after hs).2
    induction c, hc using Nat.le_induction with
    | base => rfl
    | succ c hc ih =>
      have hprev := ih (by omega)
      by_cases ha : Accepts (steps dir input) c
      · have heq := hspaced s c ((accepts_iff s).mp hs) ((accepts_iff c).mp ha) (by omega)
          (by omega)
        rw [(h.accepted (by omega) ha).2.1, hfirst]
        exact heq
      · rw [h.dir_kept (by omega) ha, hprev]

/-- Setup and the pulse itself are always clean. The hold time after a pulse is
kept exactly when no counted strobe reverses the direction too early. -/
theorem direction_kept_exactly_when (dir : Bool) (input : ℕ → Bool × Bool) :
    KeepsDirection (steps dir input) ↔ Spaced input :=
  ⟨fun h => hold_iff.mp h.hold, fun h => ⟨setup_kept, high_kept, hold_iff.mpr h⟩⟩

def reversal (n : ℕ) : Bool × Bool := (n = 0 ∨ n = 301, n = 0)

theorem reversal_breaks_hold : ¬KeepsDirection (steps false reversal) := by
  intro h
  have hcount : ∀ m, Counts (fun n => (reversal n).1) m → m = 0 ∨ m = 301 := by
    intro m hm
    rw [Counts] at hm
    simpa [reversal] using hm.1
  have hfirst : Counts (fun n => (reversal n).1) 0 := by
    rw [Counts]
    simp [reversal]
  have hsecond : Counts (fun n => (reversal n).1) 301 := by
    rw [Counts]
    refine ⟨by simp [reversal], ?_⟩
    intro m hm hle hc
    have := hcount m hc
    omega
  have := hold_iff.mp h.hold 0 301 hfirst hsecond (by omega) (by omega)
  simp [reversal] at this

end Vp2Motion.Proofs.Direction
