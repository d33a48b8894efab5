import Mathlib.Tactic.Ring
import Vp2Motion.Clocked.Run
import Vp2Motion.Hdl.UserLogic

namespace Vp2Motion.Proofs.Segment
open Hdl Clocked

/-- The generator `m` clocks into a segment of `s` strobes, `d` clocks apart:
`dt` and `steps` are the two digits of `m` in base `d`. -/
structure Running (d s : BitVec 32) (m : ℕ) (g : AccStepGen) : Prop where
  dtLimit : g.dtLimit = d
  stepsLimit : g.stepsLimit = s
  stopped : g.stopped = false
  dt : g.dt.toNat = m % d.toNat
  steps : g.steps.toNat = m / d.toNat

theorem running_start (d s : BitVec 32) :
    Running d s 0 { dtLimit := d, stepsLimit := s, steps := 0, dt := 0, stopped := false } := by
  constructor <;> simp

theorem dvd_succ_iff {d m : ℕ} (hd : 1 ≤ d) : d ∣ m + 1 ↔ m % d = d - 1 := by
  obtain ⟨e, rfl⟩ := Nat.exists_eq_add_of_le' hd
  rw [Nat.dvd_iff_mod_eq_zero, Nat.succ_mod_succ_eq_zero_iff, Nat.add_sub_cancel]

theorem mod_succ_of_not_dvd {d m : ℕ} (hd : 1 ≤ d) (h : ¬d ∣ m + 1) :
    (m + 1) % d = m % d + 1 := by
  have hm := Nat.mod_lt m hd
  rw [dvd_succ_iff hd] at h
  rw [Nat.add_mod, Nat.mod_eq_of_lt (show 1 < d by omega), Nat.mod_eq_of_lt (by omega)]

theorem pred_limit_le {d n : BitVec 32} (hd : 1 ≤ d.toNat) :
    d - 1 ≤ n ↔ d.toNat - 1 ≤ n.toNat := by
  bv_omega

theorem Running.dt_expired (h : Running d s m g) (hd : 1 ≤ d.toNat) :
    g.dtExpired = true ↔ d.toNat ∣ m + 1 := by
  have hm := Nat.mod_lt m hd
  rw [AccStepGen.dtExpired, decide_eq_true_eq, h.dtLimit, pred_limit_le hd, h.dt, dvd_succ_iff hd]
  omega

theorem Running.strobe (h : Running d s m g) (hd : 1 ≤ d.toNat) :
    g.stepStb false = true ↔ d.toNat ∣ m + 1 := by
  simpa [AccStepGen.stepStb, h.stopped] using h.dt_expired hd

/-- Of all clocks of the segment only the last one is both the end of a tick
and the end of the last tick. -/
theorem Running.done (h : Running d s m g) (hd : 1 ≤ d.toNat) (hs : 1 ≤ s.toNat)
    (hm : m < s.toNat * d.toNat) : g.done false = true ↔ m + 1 = s.toNat * d.toNat := by
  have hq : m / d.toNat < s.toNat := Nat.div_lt_of_lt_mul (by rwa [Nat.mul_comm])
  have hexp : g.stepsExpired = true ↔ m / d.toNat = s.toNat - 1 := by
    rw [AccStepGen.stepsExpired, decide_eq_true_eq, h.stepsLimit, pred_limit_le hs, h.steps]
    omega
  have hdone : g.done false = true ↔ g.dtExpired = true ∧ g.stepsExpired = true := by
    simp [AccStepGen.done, h.stopped]
  rw [hdone, h.dt_expired hd, hexp]
  constructor
  · rintro ⟨⟨k, hk⟩, hlast⟩
    have hk' := Nat.succ_div_of_dvd (a := m) (b := d.toNat) ⟨k, hk⟩
    rw [hk, Nat.mul_div_cancel_left k hd, hlast] at hk'
    rw [hk, Nat.mul_comm, show k = s.toNat by omega]
  · intro he
    have hdvd : d.toNat ∣ m + 1 := ⟨s.toNat, by rw [he, Nat.mul_comm]⟩
    have hk := Nat.succ_div_of_dvd hdvd
    rw [he, Nat.mul_div_cancel _ hd] at hk
    exact ⟨hdvd, by omega⟩

theorem Running.clock (h : Running d s m g) (hd : 1 ≤ d.toNat) (hs : 1 ≤ s.toNat)
    (hm : m + 1 < s.toNat * d.toNat) (hr : i.reset = false) (hl : i.load = false) :
    Running d s (m + 1) (g.clock i) := by
  have hlast : g.done false = false := by
    rw [Bool.eq_false_iff, ne_eq, h.done hd hs (by omega)]
    omega
  have hq : m / d.toNat < s.toNat := Nat.div_lt_of_lt_mul (by rw [Nat.mul_comm]; omega)
  have hbound := s.isLt
  cases he : g.dtExpired with
  | true =>
    have hdvd := (h.dt_expired hd).mp he
    refine ⟨?_, ?_, ?_, ?_, ?_⟩
    · simp [AccStepGen.clock, hr, hl, h.dtLimit]
    · simp [AccStepGen.clock, hr, hl, h.stepsLimit]
    · simpa [AccStepGen.clock, AccStepGen.done, hr, hl, h.stopped, he] using hlast
    · simp [AccStepGen.clock, hr, hl, h.stopped, he, Nat.dvd_iff_mod_eq_zero.mp hdvd]
    · simp only [AccStepGen.clock, hr, hl, h.stopped, he, Bool.false_eq_true, if_false, if_true]
      rw [Nat.succ_div_of_dvd hdvd, ← h.steps, BitVec.toNat_add]
      have := h.steps
      exact Nat.mod_eq_of_lt (by simp; omega)
  | false =>
    have hdvd : ¬d.toNat ∣ m + 1 := by
      rw [← h.dt_expired hd, he]
      simp
    have hlt := d.isLt
    have hmod := Nat.mod_lt m hd
    refine ⟨?_, ?_, ?_, ?_, ?_⟩
    · simp [AccStepGen.clock, hr, hl, h.dtLimit]
    · simp [AccStepGen.clock, hr, hl, h.stepsLimit]
    · simp [AccStepGen.clock, hr, hl, h.stopped, he]
    · simp only [AccStepGen.clock, hr, hl, h.stopped, he, Bool.false_eq_true, if_false]
      rw [mod_succ_of_not_dvd hd hdvd, ← h.dt, BitVec.toNat_add]
      have := h.dt
      exact Nat.mod_eq_of_lt (by simp; omega)
    · simp [AccStepGen.clock, hr, hl, h.stopped, he, Nat.succ_div_of_not_dvd hdvd, h.steps]

theorem load_eq_false_of_running {u : UserLogic} (h : Running d s m u.accStepGen)
    (hdone : u.accStepGen.done false = false) : u.load false = false := by
  simp [UserLogic.load, UserLogic.stopped, hdone, h.stopped]

structure SegmentAt (r : Run (UserLogic.clock false)) (t : ℕ) (d s : BitVec 32) : Prop where
  load : (r.state t).load false = true
  dt : (r.state t).reg .nextDt = d
  steps : (r.state t).reg .nextSteps = s
  dtPos : 1 ≤ d.toNat
  stepsPos : 1 ≤ s.toNat

namespace SegmentAt
variable {r : Run (UserLogic.clock false)} {t : ℕ} {d s : BitVec 32}

theorem length_pos (h : SegmentAt r t d s) : 1 ≤ s.toNat * d.toNat :=
  Nat.mul_pos h.stepsPos h.dtPos

/-- Nothing on the bus disturbs a running segment: its limits were latched and
a load needs `done` or `stopped`. -/
theorem running (h : SegmentAt r t d s) (hm : m < s.toNat * d.toNat) :
    Running d s m (r.state (t + 1 + m)).accStepGen := by
  induction m with
  | zero =>
    rw [Nat.add_zero, r.next, UserLogic.step_gen_of_load _ _ h.load, h.dt, h.steps]
    exact running_start d s
  | succ m ih =>
    have hrun := ih (by omega)
    have hdone : (r.state (t + 1 + m)).accStepGen.done false = false := by
      rw [Bool.eq_false_iff, ne_eq, hrun.done h.dtPos h.stepsPos (by omega)]
      omega
    rw [← Nat.add_assoc, r.next]
    exact hrun.clock h.dtPos h.stepsPos hm rfl (load_eq_false_of_running hrun hdone)

theorem running_at (h : SegmentAt r t d s) (hc : t < c) (he : c ≤ t + s.toNat * d.toNat) :
    Running d s (c - t - 1) (r.state c).accStepGen := by
  have hrun := h.running (m := c - t - 1) (by omega)
  rwa [show t + 1 + (c - t - 1) = c by omega] at hrun

theorem strobe_iff (h : SegmentAt r t d s) (hc : t < c) (he : c ≤ t + s.toNat * d.toNat) :
    (r.state c).accStepGen.stepStb false = true ↔
      ∃ k, 1 ≤ k ∧ k ≤ s.toNat ∧ c = t + k * d.toNat := by
  rw [(h.running_at hc he).strobe h.dtPos, show c - t - 1 + 1 = c - t by omega]
  constructor
  · rintro ⟨k, hk⟩
    rw [Nat.mul_comm] at hk
    have hpos : k ≠ 0 := by
      rintro rfl
      omega
    exact ⟨k, by omega, Nat.le_of_mul_le_mul_right (by omega) h.dtPos, by omega⟩
  · rintro ⟨k, _, _, rfl⟩
    exact ⟨k, by rw [Nat.add_sub_cancel_left, Nat.mul_comm]⟩

theorem done_iff (h : SegmentAt r t d s) (hc : t < c) (he : c ≤ t + s.toNat * d.toNat) :
    (r.state c).accStepGen.done false = true ↔ c = t + s.toNat * d.toNat := by
  rw [(h.running_at hc he).done h.dtPos h.stepsPos (by omega)]
  omega

theorem not_stopped (h : SegmentAt r t d s) (hc : t < c) (he : c ≤ t + s.toNat * d.toNat) :
    (r.state c).stopped = false :=
  (h.running_at hc he).stopped

theorem no_load (h : SegmentAt r t d s) (hc : t < c) (he : c < t + s.toNat * d.toNat) :
    (r.state c).load false = false := by
  have hrun := h.running_at hc (by omega)
  apply load_eq_false_of_running hrun
  rw [Bool.eq_false_iff, ne_eq, h.done_iff hc (by omega)]
  omega

/-- On the last clock a pending start command is taken at once. -/
theorem load_at_end (h : SegmentAt r t d s) :
    (r.state (t + s.toNat * d.toNat)).load false = (r.state (t + s.toNat * d.toNat)).start := by
  have hdone := (h.done_iff (by have := h.length_pos; omega) le_rfl).mpr rfl
  simp [UserLogic.load, hdone]

theorem stopped_after (h : SegmentAt r t d s)
    (hs : (r.state (t + s.toNat * d.toNat)).start = false) :
    (r.state (t + s.toNat * d.toNat + 1)).stopped = true := by
  have hdone := (h.done_iff (by have := h.length_pos; omega) le_rfl).mpr rfl
  rw [r.next, UserLogic.stopped_of_no_load _ _ (by rw [h.load_at_end, hs]), hdone, Bool.or_true]

end SegmentAt

theorem stopped_until_load (r : Run (UserLogic.clock false)) (hmn : m ≤ n)
    (hs : (r.state m).stopped = true)
    (hl : ∀ k, m ≤ k → k < n → (r.state k).load false = false) : (r.state n).stopped = true := by
  refine r.kept (P := fun u => u.stopped = true) hmn hs ?_
  intro k hk hn hstop
  rw [UserLogic.stopped_of_no_load _ _ (hl k hk hn), hstop, Bool.true_or]

def FullWord (r : Run (UserLogic.clock false)) : Prop :=
  ∀ n w, r.input n = some w → w.be = fun _ => true

/-- A write cycle that sets the start bit of the command register. -/
def WritesStart (wr : Option BusWrite) : Prop :=
  ∃ w, wr = some w ∧ w.sel = .reg .cmd ∧ w.data.getLsbD 0 = true

/-- A full-word cycle that writes no start bit leaves it alone or clears it. -/
theorem start_of_no_write (u : UserLogic) (wr : Option BusWrite)
    (hf : ∀ w, wr = some w → w.be = fun _ => true) (hw : ¬WritesStart wr) :
    (UserLogic.clock false wr u).start = true → u.start = true ∧ u.load false = false := by
  intro hs
  unfold UserLogic.start at hs ⊢
  rcases wr with _ | ⟨q | q, d, be⟩
  · rw [UserLogic.reg_clock_none] at hs
    split at hs <;> simp_all
  · obtain rfl : be = _ := hf _ rfl
    have hq : q ≠ .cmd ∨ d.getLsbD 0 = false := by
      by_contra hc
      push Not at hc
      exact hw ⟨_, rfl, congrArg Sel.reg hc.1, by simpa using hc.2⟩
    rw [show (⟨.reg q, d, fun _ => true⟩ : BusWrite) = .full (.reg q) d from rfl,
      UserLogic.reg_clock_full] at hs
    split at hs
    · simp_all
    · split at hs <;> simp_all
  · obtain rfl : be = _ := hf _ rfl
    rw [show (⟨.stat q, d, fun _ => true⟩ : BusWrite) = .full (.stat q) d from rfl,
      UserLogic.reg_clock_stat] at hs
    split at hs <;> simp_all

/-- A command is taken once: after a load the start bit has to be written
again before the next one. -/
theorem write_between_loads (r : Run (UserLogic.clock false)) (hf : FullWord r)
    (htu : t < u) (ht : (r.state t).load false = true) (hu : (r.state u).load false = true) :
    ∃ c, t ≤ c ∧ c < u ∧ WritesStart (r.input c) := by
  by_contra hno
  push Not at hno
  have hclear : (r.state (t + 1)).start = false := by
    rw [Bool.eq_false_iff, r.next]
    intro hs
    have := (start_of_no_write _ _ (hf t) (hno t le_rfl htu) hs).2
    simp [ht] at this
  have hstay : (r.state u).start = false := by
    refine r.kept (P := fun s => s.start = false) htu hclear ?_
    intro k hk hku hs
    rw [Bool.eq_false_iff]
    intro hset
    have := (start_of_no_write _ _ (hf k) (hno k (by omega) hku) hset).1
    simp [hs] at this
  simp [UserLogic.load, hstay] at hu

/-- Segments follow each other exactly as loaded, whatever the bus does in the
meantime, and every load consumes a start command of its own. -/
theorem segments_sequenced (r : Run (UserLogic.clock false)) (hf : FullWord r) :
    (∀ t d s, SegmentAt r t d s →
      (∀ c, t < c → c ≤ t + s.toNat * d.toNat →
        ((r.state c).accStepGen.stepStb false = true ↔
          ∃ k, 1 ≤ k ∧ k ≤ s.toNat ∧ c = t + k * d.toNat) ∧
        ((r.state c).accStepGen.done false = true ↔ c = t + s.toNat * d.toNat) ∧
        (r.state c).stopped = false) ∧
      (∀ m, m < s.toNat * d.toNat →
        ((r.state (t + 1 + m)).read (.stat .steps)).toNat = m / d.toNat) ∧
      (∀ c, t < c → c < t + s.toNat * d.toNat → (r.state c).load false = false) ∧
      ((r.state (t + s.toNat * d.toNat)).start = true →
        (r.state (t + s.toNat * d.toNat)).load false = true) ∧
      ((r.state (t + s.toNat * d.toNat)).start = false →
        ∀ c, t + s.toNat * d.toNat < c →
          (∀ k, t + s.toNat * d.toNat < k → k < c → (r.state k).load false = false) →
          (r.state c).stopped = true)) ∧
    (∀ t u, t < u → (r.state t).load false = true → (r.state u).load false = true →
      (∀ c, t < c → c < u → (r.state c).load false = false) →
      ∃ c, t ≤ c ∧ c < u ∧ WritesStart (r.input c)) := by
  refine ⟨?_, fun t u htu ht hu _ => write_between_loads r hf htu ht hu⟩
  intro t d s h
  refine ⟨?_, ?_, fun c => h.no_load, ?_, ?_⟩
  · intro c hc he
    exact ⟨h.strobe_iff hc he, h.done_iff hc he, h.not_stopped hc he⟩
  · intro m hm
    exact (h.running hm).steps
  · intro hs
    rw [h.load_at_end, hs]
  · intro hs c hc hl
    exact stopped_until_load r hc (h.stopped_after hs) hl

/-- Two ticks of three clocks, started as soon as the command is written. -/
def shortSegment : Run (UserLogic.clock false) :=
  .ofInputs _ .initial fun n =>
    [some (.full (.reg .nextDt) 3), some (.full (.reg .nextSteps) 2),
      some (.full (.reg .cmd) 1)].getD n none

theorem short_segment_sequenced :
    FullWord shortSegment ∧ SegmentAt shortSegment 3 3 2 ∧
      (shortSegment.state 9).accStepGen.done false = true := by
  have hf : FullWord shortSegment := by
    intro n w hw
    rcases n with _ | _ | _ | n
    all_goals simp [shortSegment, Run.ofInputs] at hw
    all_goals
      subst hw
      rfl
  have hs : SegmentAt shortSegment 3 3 2 := ⟨by decide, by decide, by decide, by decide, by decide⟩
  refine ⟨hf, hs, ?_⟩
  exact (((segments_sequenced shortSegment hf).1 3 3 2 hs).1 9 (by decide) (by decide)).2.1.mpr rfl

end Vp2Motion.Proofs.Segment
