import Vp2Motion.Proofs.MainLoop
import Vp2Motion.Proofs.Segment
import Vp2Motion.Proofs.Stopping

namespace Vp2Motion.Proofs.Joint
open Hdl Bus Clocked Firmware Handshake MainLoop Segment

variable {α : Type} [CDouble α] {b : Board α} {queue : List (Target α)} {s t : Steppers α}

theorem initial_resting : Resting [] (Board.initial (α := α)) := by
  refine ⟨⟨⟨⟨rfl, rfl⟩, rfl, .nil⟩, rfl⟩, rfl, rfl, rfl⟩

omit [CDouble α] in
/-- A completed soft reset leaves the board as at power-up. -/
theorem reset_eq_initial (b : Board α) : b.reset = .initial := by
  simp [Board.reset, Board.initial, Board.resetWidth, UserLogic.clock_reset]

theorem wp_reset (h : Boundary s b) : Wp Board.device Safe Due (steppersReset s) Boundary b := by
  apply wp_write (boundary_stable s) (fun _ => Boundary.safe) h
  intro b _
  have hput : Board.device.put .rst softReset b = .initial := reset_eq_initial b
  rw [hput]
  exact wp_skip ⟨initial_resting, rfl⟩

/-- A read whose value nobody looks at. -/
theorem wp_observe (h : Boundary s b) (addr : Addr) :
    Wp Board.device Safe Due (motionReadReg addr) (fun _ => Boundary s) b := by
  apply wp_read (boundary_stable s) (fun _ => Boundary.safe) h
  intro b h
  exact wp_ret (boundary_stable s) (fun _ => Boundary.safe) (boundary_stable s b h) (fun _ h => h)

theorem wp_steppers_status (h : Boundary s b) :
    Wp Board.device Safe Due (steppersStatus s) Boundary b := by
  refine (wp_observe h _).seq fun _ b h => ?_
  refine (wp_observe h _).seq fun _ b h => ?_
  refine (wp_observe h _).seq fun _ b h => ?_
  refine (wp_observe h _).seq fun _ b h => ?_
  refine (wp_observe h _).seq fun _ b h => ?_
  refine (wp_observe h _).seq fun _ b h => ?_
  refine (wp_observe h _).seq fun _ b h => ?_
  refine (wp_observe h _).seq fun _ b h => ?_
  refine (wp_observe h _).seq fun _ b h => ?_
  exact wp_skip h

def accept (ts : List (Target α)) (b : Board α) : Board α :=
  { b with accepted := b.accepted ++ ts }

theorem Quiet.accept (h : Quiet queue b) (ts : List (Target α)) :
    Quiet (queue ++ ts) (accept ts b) := by
  refine ⟨⟨?_, h.ledger.ended⟩, h.cmd, h.took⟩
  change b.accepted ++ ts = moved b.calls ++ (queue ++ ts)
  rw [h.ledger.accepted, List.append_assoc]

theorem Issued.accept (h : Issued queue c b) (ts : List (Target α)) :
    Issued (queue ++ ts) c (accept ts b) := by
  refine ⟨⟨?_, h.ledger.ended⟩, h.before, h.cmd, h.steps, h.a, h.j, h.v⟩
  change b.accepted ++ ts = moved b.calls ++ (queue ++ ts)
  rw [h.ledger.accepted, List.append_assoc]

theorem Resting.accept (h : Resting queue b) (ts : List (Target α)) :
    Resting (queue ++ ts) (accept ts b) :=
  ⟨⟨Quiet.accept h.1.1 ts, h.1.2⟩, h.2⟩

theorem After.accept (h : After c queue b) (ts : List (Target α)) :
    After c (queue ++ ts) (accept ts b) := by
  rcases h with h | h
  · exact .inl (Issued.accept h ts)
  · exact .inr ⟨Quiet.accept h.1 ts, h.2⟩

/-- Queueing changes nothing but the queue and the record of accepted targets. -/
theorem Boundary.accept (h : Boundary s b) (ts : List (Target α)) (hstate : t.state = s.state)
    (hpos : t.currentPosition = s.currentPosition) (hq : t.pending = s.pending ++ ts) :
    Boundary t (accept ts b) := by
  unfold Boundary at h ⊢
  rw [hstate, hpos, hq]
  cases hs : s.state with
  | off | idle =>
    simp only [hs] at h
    exact ⟨Resting.accept h.1 ts, h.2⟩
  | active =>
    simp only [hs] at h
    obtain ⟨c, hc⟩ := h
    exact ⟨c, After.accept hc ts⟩
  | delay =>
    simp only [hs] at h
  | stopping =>
    simp only [hs] at h
    exact ⟨After.accept h.1 ts, h.2⟩

theorem boundary_queue (h : Boundary s b) (target : Target α) :
    Boundary (steppersQueue target s).2
      (accept (if (steppersQueue target s).1 = none then [target] else []) b) := by
  apply Boundary.accept h
  · unfold steppersQueue
    split <;> rfl
  · unfold steppersQueue
    split <;> rfl
  · exact pending_queue target s

/-- Between two calls the boundary condition holds; inside a call the rest of
the call leads back to it. -/
def Invariant (s : System α) : Prop :=
  match s.running with
  | none => Boundary s.steppers s.board
  | some p => Wp Board.device Safe Due p Boundary s.board

theorem invariant_initial : Invariant (System.initial (α := α)) := ⟨initial_resting, rfl⟩

theorem Invariant.boundary {s : System α} (h : Invariant s) (hr : s.running = none) :
    Boundary s.steppers s.board := by
  simpa only [Invariant, hr] using h

theorem Invariant.safe {s : System α} (h : Invariant s) : Safe s.board := by
  unfold Invariant at h
  split at h
  · exact Boundary.safe h
  · exact Wp.invariant h

theorem invariant_step {s t : System α} (h : Invariant s) (hs : s.Step a t) : Invariant t := by
  cases hs with
  | clock =>
    unfold Invariant at h ⊢
    split at h
    · rename_i hr
      simp only [hr]
      exact boundary_stable s.steppers s.board h
    · rename_i p hr
      simp only [hr]
      exact Wp.idle h
  | mainLoop hr => exact wp_main_loop (h.boundary hr)
  | queue target hr =>
    have hq := boundary_queue (h.boundary hr) target
    simp only [Invariant, System.queued, hr]
    split
    · rename_i hnone
      simpa only [accept, hnone, if_true] using hq
    · rename_i hsome
      simpa only [accept, hsome, if_false, List.append_nil] using hq
  | status hr => exact wp_steppers_status (h.boundary hr)
  | reset hr => exact wp_reset (h.boundary hr)
  | execute hr hp =>
    simp only [Invariant, hr] at h ⊢
    exact h.step hp
  | «return» hr =>
    simp only [Invariant, hr] at h ⊢
    exact h.result

theorem invariant_reachable {allowed : Action α → Prop} {s : System α}
    (h : System.Reachable allowed s) : Invariant s := by
  induction h with
  | initial => exact invariant_initial
  | step _ _ hs ih => exact invariant_step ih hs

/-- Loads and calls correspond one to one and in order, every load takes
exactly its call, and the calls move the accepted targets in order. -/
theorem commands_taken_in_order (s : System α) (h : System.Reachable (· ≠ .reset) s) :
    (∃ loaded rest, s.board.calls = loaded ++ rest ∧ rest.length ≤ 1 ∧
      List.Forall₂ Took loaded s.board.loads) ∧
    moved s.board.calls <+: s.board.accepted ∧
    (s.running = none → s.board.accepted = moved s.board.calls ++ s.steppers.pending) := by
  have hinv := invariant_reachable h
  obtain ⟨⟨loaded, rest, hcalls, htook, hrest⟩, hmoved⟩ := hinv.safe
  refine ⟨⟨loaded, rest, hcalls, hrest, htook⟩, hmoved, ?_⟩
  intro hr
  exact (Boundary.ledger (hinv.boundary hr)).accepted

def firstTarget : Target ℚ := ⟨1, 100, 0⟩

/-- Power-up, one queued target and two turns of the main loop. The core loads the move on the
next clock. -/
theorem first_move_begun : ∃ s : System ℚ, System.Reachable (· ≠ .reset) s ∧
    s.running = none ∧ s.steppers.state = .active ∧ s.steppers.queueLen = 0 ∧
    s.board.calls = [.move ⟨0, 0, 0⟩ firstTarget] ∧ (s.board.clock none).loads.length = 1 := by
  have h₀ : System.Reachable (· ≠ .reset) (System.initial.queued firstTarget) :=
    .step .initial (by simp) (.queue firstTarget rfl)
  have h₁ := (h₀.step (by simp) (.mainLoop rfl)).step (by simp) (.execute rfl .mark)
  have h₂ := ((h₁.step (by simp) (.execute rfl .write)).step (by simp)
    (.execute rfl .write)).step (by simp) (.execute rfl .write)
  have h₃ := ((h₂.step (by simp) (.execute rfl .write)).step (by simp)
    (.execute rfl .write)).step (by simp) (.return rfl)
  have h₄ := ((h₃.step (by simp) (.mainLoop rfl)).step (by simp) (.execute rfl .mark)).step
    (by simp) (.execute rfl .write)
  have h₅ := ((h₄.step (by simp) (.execute rfl .write)).step (by simp)
    (.execute rfl .read)).step (by simp) (.execute rfl .write)
  have h₆ := ((h₅.step (by simp) (.execute rfl .write)).step (by simp)
    (.execute rfl .read)).step (by simp) (.execute rfl .write)
  have h₇ := ((h₆.step (by simp) (.execute rfl .read)).step (by simp)
    (.execute rfl .write)).step (by simp) (.return rfl)
  exact ⟨_, h₇, rfl, rfl, rfl, rfl, by decide +kernel⟩

theorem first_move_taken : ∃ s : System ℚ, System.Reachable (· ≠ .reset) s ∧
    ∃ l, s.board.loads = [l] ∧ Took (.move ⟨0, 0, 0⟩ firstTarget) l := by
  obtain ⟨s, h, -, -, -, hcalls, hloads⟩ := first_move_begun
  have hnext := h.step (by simp) (.clock s)
  obtain ⟨⟨loaded, rest, heq, -, htook⟩, -⟩ := commands_taken_in_order _ hnext
  obtain ⟨l, hl⟩ := List.length_eq_one_iff.mp hloads
  change List.Forall₂ Took loaded (s.board.clock none).loads at htook
  rw [hl] at htook
  cases htook with
  | cons ht hnil =>
    cases hnil
    change s.board.calls = _ at heq
    rw [hcalls] at heq
    obtain ⟨rfl, -⟩ := List.cons_eq_cons.mp heq
    exact ⟨_, hnext, l, hl, ht⟩

/-- A core at rest without a pending command keeps its position until a start
bit is written. -/
theorem position_held (r : Run (UserLogic.clock false)) (hf : FullWord r)
    (hrest : AtRest (r.state 0)) (hstart : (r.state 0).start = false)
    (hw : ∀ k, k < n → ¬WritesStart (r.input k)) :
    (r.state n).accProfileGen.x = (r.state 0).accProfileGen.x := by
  refine (r.kept (P := fun u => u.start = false ∧ AtRest u ∧
    u.accProfileGen.x = (r.state 0).accProfileGen.x) (Nat.zero_le n) ⟨hstart, hrest, rfl⟩ ?_).2.2
  rintro k - hk ⟨hstart, hrest, hx⟩
  have hl := load_of_clear hstart
  refine ⟨?_, hrest.clock hl _, ?_⟩
  · rw [Bool.eq_false_iff]
    intro hset
    have := (start_of_no_write _ _ (hf k) (hw k hk) hset).1
    simp [hstart] at this
  · obtain ⟨hx', -⟩ := UserLogic.profile_of_no_load (r.state k) (r.input k) hl
    rw [hx', AccProfileGen.xAcc, hrest.v, ← hx]
    simp

/-- At every boundary in an idle state the core is at rest, and the two status
reads succeed only when all commands have run to their end. -/
theorem idle_at_rest (s : System α) (h : System.Reachable (fun _ => True) s) :
    (s.running = none → s.steppers.state = .idle ∨ s.steppers.state = .off →
      s.board.core.stopped = true ∧ s.board.core.reg .cmd = 0 ∧
      s.board.core.accProfileGen.v = 0 ∧ s.board.core.accProfileGen.a = 0 ∧
      s.board.core.accProfileGen.j = 0 ∧ s.steppers.currentPosition.v = ((0 : ℕ) : α) ∧
      ∀ r : Run (UserLogic.clock false), FullWord r → r.state 0 = s.board.core →
        ∀ n, (∀ k, k < n → ¬WritesStart (r.input k)) →
          (r.state n).accProfileGen.x = s.board.core.accProfileGen.x) ∧
    (∀ text rest, s.running = some (.mark (.printf text) rest) →
      text = "done\r\n" ∨ text = "IDLE\r\n" → Finished s.board) := by
  have hinv := invariant_reachable h
  constructor
  · intro hr hstate
    have hb := hinv.boundary hr
    have hrest : Resting s.steppers.pending s.board ∧
        s.steppers.currentPosition.v = ((0 : ℕ) : α) := by
      rcases hstate with hs | hs <;> simpa only [Boundary, hs] using hb
    obtain ⟨⟨⟨hquiet, hstop⟩, hcore⟩, hv⟩ := hrest
    refine ⟨hstop, hquiet.cmd, hcore.v, hcore.a, hcore.j, hv, ?_⟩
    intro r hf h0 n hw
    have hstart := start_of_cmd_zero hquiet.cmd
    rw [← h0] at hcore hstart ⊢
    exact position_held r hf hcore hstart hw
  · intro text rest hr htext
    simp only [Invariant, hr] at hinv
    exact hinv.obligation htext

/-- A move that was loaded, and the stop after it. -/
theorem moved_and_stopped : ∃ s : System ℚ, System.Reachable (fun _ => True) s ∧
    s.running = none ∧ s.steppers.state = .idle ∧
    s.board.calls = [.move ⟨0, 0, 0⟩ firstTarget, .stop] ∧ s.board.loads.length = 2 ∧
    s.board.core.stopped = true ∧ s.board.core.accProfileGen.v = 0 := by
  obtain ⟨s, hbegun, hr, hactive, hqueue, hmove, -⟩ := first_move_begun
  have hany := Stopping.reachable_mono (fun _ _ => trivial) hbegun
  obtain ⟨t, h, hr, hidle, hcalls⟩ := Stopping.comes_to_rest hany hr hactive hqueue
  obtain ⟨hstopped, -, hv, -⟩ := (idle_at_rest t h).1 hr (.inl hidle)
  have hboundary := (invariant_reachable h).boundary hr
  simp only [Boundary, hidle] at hboundary
  have hloads := hboundary.1.1.1.took.length_eq
  rw [hcalls, hmove] at hloads
  exact ⟨t, h, hr, hidle, by rw [hcalls, hmove]; rfl, hloads.symm, hstopped, hv⟩

end Vp2Motion.Proofs.Joint
