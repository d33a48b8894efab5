import Mathlib.Logic.Relation
import Vp2Motion.Proofs.Handshake

namespace Vp2Motion.Proofs.Stopping
open Hdl Bus Firmware Handshake Relation

/-- How far a segment is from its end, at most. -/
def remaining (g : AccStepGen) : ℕ :=
  ((g.stepsLimit - 1).toNat - g.steps.toNat) * 2 ^ 32 + (2 ^ 32 - 1 - g.dt.toNat)

theorem remaining_clock {g : AccStepGen} {i : AccStepGen.Inputs} (hreset : i.reset = false)
    (hload : i.load = false) (hnext : (g.clock i).stopped = false) :
    remaining (g.clock i) < remaining g := by
  have hrun : g.stopped = false := by
    cases hstop : g.stopped with
    | false => rfl
    | true => simp [AccStepGen.clock, hreset, hload, hstop] at hnext
  have hdt := g.dt.isLt
  cases hexpired : g.dtExpired with
  | true =>
    have hmore : g.stepsExpired = false := by
      simpa [AccStepGen.clock, hreset, hload, hrun, hexpired] using hnext
    have hnew : g.clock i = ⟨g.dtLimit, g.stepsLimit, g.steps + 1, 0, false⟩ := by
      simp [AccStepGen.clock, hreset, hload, hrun, hexpired, hmore]
    rw [hnew, remaining, remaining]
    rw [AccStepGen.stepsExpired, decide_eq_false_iff_not, BitVec.le_def, Nat.not_le] at hmore
    have hsucc : (g.steps + 1).toNat = g.steps.toNat + 1 := by
      have hlimit := (g.stepsLimit - 1).isLt
      rw [BitVec.toNat_add]
      exact Nat.mod_eq_of_lt (by change g.steps.toNat + 1 < 2 ^ 32; omega)
    simp only [hsucc]
    change _ * 2 ^ 32 + (2 ^ 32 - 1 - 0) < _
    omega
  | false =>
    have hnew : g.clock i = ⟨g.dtLimit, g.stepsLimit, g.steps, g.dt + 1, false⟩ := by
      simp [AccStepGen.clock, hreset, hload, hrun, hexpired]
    have hlimit := (g.dtLimit - 1).isLt
    rw [AccStepGen.dtExpired, decide_eq_false_iff_not, BitVec.le_def, Nat.not_le] at hexpired
    have hsucc : (g.dt + 1).toNat = g.dt.toNat + 1 := by
      rw [BitVec.toNat_add]
      exact Nat.mod_eq_of_lt (by change g.dt.toNat + 1 < 2 ^ 32; omega)
    rw [hnew, remaining, remaining]
    simp only [hsucc]
    omega

variable {α : Type}

/-- No command waits, and no segment runs. -/
structure Settled (b : Board α) : Prop where
  start : b.core.start = false
  stopped : b.core.stopped = true

theorem start_clock {core : UserLogic} (h : core.start = false) :
    (UserLogic.clock false none core).start = false := by
  rw [UserLogic.start, UserLogic.reg_clock_none]
  split
  · rfl
  · exact h

theorem start_of_load {core : UserLogic} (h : core.load false = true) :
    (UserLogic.clock false none core).start = false := by
  rw [UserLogic.start, UserLogic.reg_clock_none, if_pos ⟨rfl, h⟩]
  rfl

theorem Settled.clock {b : Board α} (h : Settled b) : Settled (b.clock none) :=
  ⟨start_clock h.start, stopped_clock h.stopped (load_of_clear h.start) none⟩

/-- A command that waits is taken when the segment ends. -/
theorem command_taken (b : Board α) : ∃ k, ((Board.clock none)^[k] b).core.start = false := by
  cases hload : b.core.load false with
  | true => exact ⟨1, start_of_load hload⟩
  | false =>
    by_cases hstart : b.core.start = true
    · have hrun : (b.clock none).core.stopped = false := by
        have hneither : (b.core.accStepGen.done false || b.core.stopped) = false := by
          simpa [UserLogic.load, hstart] using hload
        have hnext := UserLogic.stopped_of_no_load b.core none hload
        rw [Bool.or_comm, hneither] at hnext
        exact hnext
      have hless : remaining (b.clock none).core.accStepGen < remaining b.core.accStepGen :=
        remaining_clock rfl hload hrun
      obtain ⟨k, hk⟩ := command_taken (b.clock none)
      exact ⟨k + 1, hk⟩
    · exact ⟨0, Bool.eq_false_iff.mpr hstart⟩
termination_by remaining b.core.accStepGen

/-- A segment without a successor ends. -/
theorem segment_ends (b : Board α) (hstart : b.core.start = false) :
    ∃ k, Settled ((Board.clock none)^[k] b) := by
  cases hstop : (b.clock none).core.stopped with
  | true => exact ⟨1, start_clock hstart, hstop⟩
  | false =>
    have hless : remaining (b.clock none).core.accStepGen < remaining b.core.accStepGen :=
      remaining_clock rfl (load_of_clear hstart) hstop
    obtain ⟨k, hk⟩ := segment_ends (b.clock none) (start_clock hstart)
    exact ⟨k + 1, hk⟩
termination_by remaining b.core.accStepGen

/-- Left alone, the core takes the command that waits, if any, and comes to rest. -/
theorem settles (b : Board α) : ∃ k, Settled ((Board.clock none)^[k] b) := by
  obtain ⟨k, hstart⟩ := command_taken b
  obtain ⟨l, hsettled⟩ := segment_ends _ hstart
  refine ⟨l + k, ?_⟩
  rwa [Function.iterate_add_apply]

/-- The bus transactions of a program, up to its result. -/
def Runs (p : Code (Event α) (Steppers α)) (b : Board α) (result : Steppers α) (b' : Board α) :
    Prop :=
  ReflTransGen (Bus.Step Board.device) (p, b) (.ret result, b')

theorem cmd_clear {core : UserLogic} (h : core.start = false) : core.reg .cmd &&& 1 = 0 := by
  rw [UserLogic.start] at h
  have hbit := BitVec.and_one_eq_setWidth_ofBool_getLsbD (x := core.reg .cmd)
  rw [h] at hbit
  exact hbit

/-- A turn that finds the core at rest goes on to what it waits for. -/
theorem runs_poll {t : Steppers α} {b : Board α} {finished : Code (Event α) (Steppers α)}
    (h : Settled b) (hruns : Runs finished ((b.clock none).clock none) result b') :
    Runs (do
      let tmp ← motionReadReg (Reg.addr .cmd)
      if tmp &&& 1 = 0 then do
        let tmp ← motionReadReg (Stat.addr .status)
        if tmp &&& 1 = 1 then finished else return t
      else return t) b result b' := by
  refine .head .read ?_
  change ReflTransGen _ (if b.core.reg .cmd &&& 1 = 0 then _ else _, b.clock none) _
  rw [if_pos (cmd_clear h.start)]
  refine .head .read ?_
  change ReflTransGen _ (if (b.clock none).core.read (.stat .status) &&& 1 = 1 then _ else _, _) _
  rw [if_pos ((read_status _).mpr h.clock.stopped)]
  exact hruns

section Run
variable [CDouble α] {s : System α}

theorem reachable_mono {allowed allowed' : Action α → Prop} (hmono : ∀ a, allowed a → allowed' a)
    (h : System.Reachable allowed s) : System.Reachable allowed' s := by
  induction h with
  | initial => exact .initial
  | step _ ha hs ih => exact ih.step (hmono _ ha) hs

theorem let_clocks (h : System.Reachable (fun _ => True) s) (k : ℕ) :
    System.Reachable (fun _ => True) { s with board := (Board.clock none)^[k] s.board } := by
  induction k with
  | zero => exact h
  | succ k ih =>
    rw [Function.iterate_succ_apply']
    exact ih.step trivial (.clock _)

theorem let_settle (h : System.Reachable (fun _ => True) s) :
    ∃ b, System.Reachable (fun _ => True) { s with board := b } ∧ Settled b ∧
      b.calls = s.board.calls := by
  obtain ⟨k, hsettled⟩ := settles s.board
  have hcalls : ∀ k, ((Board.clock none)^[k] s.board).calls = s.board.calls := by
    intro k
    induction k with
    | zero => rfl
    | succ k ih =>
      rw [Function.iterate_succ_apply']
      exact ih
  exact ⟨_, let_clocks h k, hsettled, hcalls k⟩

theorem let_run (h : System.Reachable (fun _ => True) s) (hr : s.running = none)
    (hruns : Runs (steppersMainLoop s.steppers) s.board result b) :
    System.Reachable (fun _ => True) ⟨result, none, b⟩ := by
  have hbegun := h.step trivial (.mainLoop hr)
  have hdone : ∀ {p : Code (Event α) (Steppers α) × Board α},
      ReflTransGen (Bus.Step Board.device) (steppersMainLoop s.steppers, s.board) p →
        System.Reachable (fun _ => True) ⟨s.steppers, some p.1, p.2⟩ := by
    intro p hsteps
    induction hsteps with
    | refl => exact hbegun
    | tail _ hstep ih => exact ih.step trivial (.execute rfl hstep)
  exact (hdone hruns).step trivial (.return rfl)

theorem runs_stop (t : Steppers α) (b : Board α) : ∃ b', Runs
    (do let t ← unqueueStop t; return t.setState .stopping) b (t.clearV.setState .stopping) b' ∧
      b'.calls = b.calls ++ [.stop] :=
  ⟨_, .head .mark <| .head .write <| .head .write <| .head .read <| .head .write <| .head .write <|
    .head .read <| .head .write <| .head .write <| .head .read <| .head .write <| .head .read <|
    .single .write, rfl⟩

/-- The turn that finds the last segment over. -/
theorem runs_done {t : Steppers α} {b : Board α} (hstate : t.state = .active)
    (hqueue : t.queueLen = 0) (h : Settled b) :
    ∃ b', Runs (steppersMainLoop t) b (t.clearV.setState .stopping) b' ∧
      b'.calls = b.calls ++ [.stop] := by
  have hprog : steppersMainLoop t = do
      let tmp ← motionReadReg (Reg.addr .cmd)
      if tmp &&& 1 = 0 then do
        let tmp ← motionReadReg (Stat.addr .status)
        if tmp &&& 1 = 1 then do
          .mark (.printf "done\r\n") (.ret ())
          let t ← unqueueStop t
          return t.setState .stopping
        else return t
      else return t := by
    simp [steppersMainLoop, hstate, hqueue]
  obtain ⟨b', hruns, hcalls⟩ := runs_stop t
    (Board.mark (.printf "done\r\n") ((b.clock none).clock none))
  refine ⟨b', ?_, hcalls⟩
  rw [hprog]
  exact runs_poll h (.head .mark hruns)

/-- The turn that finds the stop segment over. -/
theorem runs_idle {t : Steppers α} {b : Board α} (hstate : t.state = .stopping)
    (h : Settled b) : ∃ b', Runs (steppersMainLoop t) b (t.setState .idle) b' ∧
      b'.calls = b.calls := by
  have hprog : steppersMainLoop t = do
      let tmp ← motionReadReg (Reg.addr .cmd)
      if tmp &&& 1 = 0 then do
        let tmp ← motionReadReg (Stat.addr .status)
        if tmp &&& 1 = 1 then do
          .mark (.printf "IDLE\r\n") (.ret ())
          return t.setState .idle
        else return t
      else return t := by
    simp [steppersMainLoop, hstate]
  refine ⟨Board.mark (.printf "IDLE\r\n") ((b.clock none).clock none), ?_, rfl⟩
  rw [hprog]
  exact runs_poll h (.single .mark)

/-- From every active state without a queued target the system can come to rest by itself, with a
stop as its last command. -/
theorem comes_to_rest (h : System.Reachable (fun _ => True) s) (hr : s.running = none)
    (hstate : s.steppers.state = .active) (hqueue : s.steppers.queueLen = 0) :
    ∃ t, System.Reachable (fun _ => True) t ∧ t.running = none ∧ t.steppers.state = .idle ∧
      t.board.calls = s.board.calls ++ [.stop] := by
  obtain ⟨b₁, h₁, hsettled₁, hcalls₁⟩ := let_settle h
  obtain ⟨b₂, hruns₂, hcalls₂⟩ := runs_done hstate hqueue hsettled₁
  have h₂ := let_run h₁ hr hruns₂
  obtain ⟨b₃, h₃, hsettled₃, hcalls₃⟩ := let_settle h₂
  have hstopping : (s.steppers.clearV.setState .stopping).state = .stopping := rfl
  obtain ⟨b₄, hruns₄, hcalls₄⟩ := runs_idle hstopping hsettled₃
  have h₄ := let_run h₃ rfl hruns₄
  refine ⟨_, h₄, rfl, rfl, ?_⟩
  rw [hcalls₄, hcalls₃, hcalls₂, hcalls₁]

end Run

end Vp2Motion.Proofs.Stopping
