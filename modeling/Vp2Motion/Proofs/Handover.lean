import Mathlib.Tactic.IntervalCases
import Vp2Motion.Proofs.Profile

namespace Vp2Motion.Proofs.Handover
open Hdl Clocked Clocked.Integrator Segment Profile

variable {r : Run (UserLogic.clock false)} {t u : ℕ} {d s : BitVec 32}

structure NextLoad (r : Run (UserLogic.clock false)) (t u : ℕ) : Prop where
  after : t < u
  load : (r.state u).load false = true
  first : ∀ c, t < c → c < u → (r.state c).load false = false

/-- The command loaded at `u` takes over velocity, acceleration and jerk. -/
structure Continues (r : Run (UserLogic.clock false)) (u : ℕ) : Prop where
  setV : (r.state u).setV = false
  setA : (r.state u).setA = false
  setJ : (r.state u).setJ = false

/-- The segment loaded at `u` starts with the velocity and acceleration that
`s` ticks from the values after the load at `t` lead to. -/
def HandsOver (r : Run (UserLogic.clock false)) (t : ℕ) (s : BitVec 32) (u : ℕ) : Prop :=
  let p := (r.state (t + 1)).accProfileGen
  let q := (r.state (u + 1)).accProfileGen
  q.v = p.v + BitVec.ofNat 32 s.toNat * p.a +
      BitVec.ofNat 32 (s.toNat * (s.toNat - 1) / 2) * p.j ∧
    q.a = p.a + BitVec.ofNat 32 s.toNat * p.j

theorem hands_over_iff : HandsOver r t s u ↔
    (r.state (u + 1)).accProfileGen.v =
      curve (r.state (t + 1)).accProfileGen.v (r.state (t + 1)).accProfileGen.a
        (r.state (t + 1)).accProfileGen.j s.toNat ∧
    (r.state (u + 1)).accProfileGen.a =
      ramp (r.state (t + 1)).accProfileGen.a (r.state (t + 1)).accProfileGen.j s.toNat := by
  simp only [HandsOver, curve, ramp, Nat.choose_two_right, BitVec.natCast_eq_ofNat]

theorem Continues.keeps (hc : Continues r u) (hl : (r.state u).load false = true) :
    (r.state (u + 1)).accProfileGen.v = (r.state u).accProfileGen.v ∧
      (r.state (u + 1)).accProfileGen.a = (r.state u).accProfileGen.a := by
  obtain ⟨-, hv, ha, -⟩ := UserLogic.profile_of_load (r.state u) (r.input u) hl
  rw [r.next, hv, ha, hc.setV, hc.setA]
  exact ⟨rfl, rfl⟩

/-- A command that is pending on the clock of `done` is loaded on that clock. -/
theorem next_load_of_pending (h : SegmentAt r t d s) (hu : NextLoad r t u)
    (hp : (r.state (t + s.toNat * d.toNat)).start = true) : u = t + s.toNat * d.toNat := by
  have hpos := h.length_pos
  rcases Nat.lt_trichotomy u (t + s.toNat * d.toNat) with hlt | he | hgt
  · have := h.no_load hu.after hlt
    simp [hu.load] at this
  · exact he
  · have := hu.first (t + s.toNat * d.toNat) (by omega) hgt
    simp [h.load_at_end, hp] at this

/-- The hand-over after the core has stopped: nothing is lost, however long the
second command takes. -/
theorem hands_over_of_stopped (h : SegmentAt r t d s) (hu : NextLoad r t u) (hc : Continues r u)
    (hp : (r.state (t + s.toNat * d.toNat)).start = false) : HandsOver r t s u := by
  have hlate : t + s.toNat * d.toNat < u := by
    rcases Nat.lt_trichotomy u (t + s.toNat * d.toNat) with hlt | rfl | hgt
    · have := h.no_load hu.after hlt
      simp [hu.load] at this
    · have := hu.load
      simp [h.load_at_end, hp] at this
    · exact hgt
  have hf := follows_until_load hlate (follows_after h hp) (h.stopped_after hp)
    (fun k hk hku => hu.first k (by omega) hku)
  obtain ⟨hv, ha⟩ := hc.keeps hu.load
  exact hands_over_iff.mpr ⟨by rw [hv, hf.v], by rw [ha, hf.a]⟩

/-- The hand-over on the clock of `done`: the load wins over the last strobe,
so the second segment starts one tick short. -/
theorem back_to_back (h : SegmentAt r t d s) (hu : NextLoad r t u) (hc : Continues r u)
    (hp : (r.state (t + s.toNat * d.toNat)).start = true) :
    HandsOver r t s u ↔
      (r.state (t + 1)).accProfileGen.a = 0 ∧ (r.state (t + 1)).accProfileGen.j = 0 := by
  obtain rfl := next_load_of_pending h hu hp
  have hf := follows_at_done h
  obtain ⟨hv, ha⟩ := hc.keeps hu.load
  rw [hands_over_iff, hv, ha, hf.v, hf.a]
  generalize (r.state (t + 1)).accProfileGen = p
  obtain ⟨n, hn⟩ := Nat.exists_eq_add_of_le' h.stepsPos
  rw [hn, Nat.add_sub_cancel, curve_succ, ramp_succ]
  constructor
  · rintro ⟨hcurve, hramp⟩
    have hj : p.j = 0 := by simpa using hramp
    have ha : ramp p.a p.j n = 0 := by simpa using hcurve
    exact ⟨by simpa [ramp, hj] using ha, hj⟩
  · rintro ⟨ha, hj⟩
    simp [ha, hj, ramp]

/-- Chaining keeps the last acceleration step exactly when the second command
is not yet pending on the clock of `done`, or when there is no acceleration. -/
theorem hands_over_exactly_when (r : Run (UserLogic.clock false)) (t u : ℕ) (d s : BitVec 32)
    (h : SegmentAt r t d s) (hu : NextLoad r t u) (hc : Continues r u) :
    HandsOver r t s u ↔
      ((r.state (t + s.toNat * d.toNat)).start = false ∨
        (r.state (t + 1)).accProfileGen.a = 0 ∧ (r.state (t + 1)).accProfileGen.j = 0) := by
  cases hp : (r.state (t + s.toNat * d.toNat)).start with
  | true => simp [back_to_back h hu hc hp]
  | false => simp [hands_over_of_stopped h hu hc hp]

/-- One tick of two clocks with acceleration 5, followed by a bare start. -/
def chained (second : ℕ) : Run (UserLogic.clock false) :=
  .ofInputs _ .initial fun n =>
    if n = 0 then some (.full (.reg .nextDt) 2)
    else if n = 1 then some (.full (.reg .nextSteps) 1)
    else if n = 2 then some (.full (.reg .nextA) 5)
    else if n = 3 then some (.full (.reg .cmd) 9)
    else if n = second then some (.full (.reg .cmd) 1)
    else none

theorem chained_late_hands_over :
    SegmentAt (chained 8) 4 2 1 ∧ NextLoad (chained 8) 4 9 ∧ Continues (chained 8) 9 ∧
      HandsOver (chained 8) 4 1 9 := by
  have h : SegmentAt (chained 8) 4 2 1 := ⟨by decide, by decide, by decide, by decide, by decide⟩
  have hu : NextLoad (chained 8) 4 9 := by
    refine ⟨by decide, by decide, ?_⟩
    intro c hc hlt
    interval_cases c <;> decide
  have hc : Continues (chained 8) 9 := ⟨by decide, by decide, by decide⟩
  exact ⟨h, hu, hc, (hands_over_exactly_when (chained 8) 4 9 2 1 h hu hc).mpr (.inl (by decide))⟩

/-- The second command is written while the segment runs: the core loads it on
the clock of `done` with velocity 0 where one tick of acceleration leads to 5. -/
theorem chained_early_loses_step :
    SegmentAt (chained 5) 4 2 1 ∧ NextLoad (chained 5) 4 6 ∧ Continues (chained 5) 6 ∧
      ((chained 5).state 5).accProfileGen.a = 5 ∧ ((chained 5).state 7).accProfileGen.v = 0 ∧
      ¬HandsOver (chained 5) 4 1 6 := by
  refine ⟨⟨by decide, by decide, by decide, by decide, by decide⟩, ⟨by decide, by decide, ?_⟩,
    ⟨by decide, by decide, by decide⟩, by decide, by decide, ?_⟩
  · intro c hc hlt
    interval_cases c
    decide
  · intro h
    exact absurd h.1 (by decide)

end Vp2Motion.Proofs.Handover
