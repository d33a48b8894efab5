import Vp2Motion.Firmware.System

namespace Vp2Motion.Proofs.Handshake
open Hdl Bus Firmware

variable {α : Type}

/-- The targets taken by the calls of `unqueue_move`, in order. -/
def moved (calls : List (Call α)) : List (Target α) := calls.filterMap Call.target

/-- The books of the board: every accepted target is either moved or still
queued, and every load but the running one has seen its `done`. -/
structure Ledger (queue : List (Target α)) (b : Board α) : Prop where
  accepted : b.accepted = moved b.calls ++ queue
  ended : b.loads.length = b.dones + if b.core.stopped then 0 else 1

/-- A `done` either ends the segment or hands over to the next load. -/
theorem ended_clock {b : Board α} (wr : Option BusWrite)
    (h : b.loads.length = b.dones + if b.core.stopped then 0 else 1) :
    (b.clock wr).loads.length = (b.clock wr).dones + if (b.clock wr).core.stopped then 0 else 1 := by
  cases hl : b.core.load false with
  | true =>
    have hs : (UserLogic.clock false wr b.core).stopped = false := by
      rw [UserLogic.stopped, UserLogic.step_gen_of_load _ _ hl]
    cases hstop : b.core.accStepGen.stopped <;>
      simp_all [Board.clock, UserLogic.load, UserLogic.stopped, AccStepGen.done]
  | false =>
    have hs := UserLogic.stopped_of_no_load b.core wr hl
    cases hstop : b.core.accStepGen.stopped <;> cases hdone : b.core.accStepGen.done false <;>
      simp_all [Board.clock, UserLogic.stopped, AccStepGen.done]

theorem Ledger.clock {b : Board α} {queue : List (Target α)} (h : Ledger queue b)
    (wr : Option BusWrite) : Ledger queue (b.clock wr) :=
  ⟨h.accepted, ended_clock wr h.ended⟩

theorem Ledger.moved_first {b : Board α} {queue : List (Target α)} (h : Ledger queue b) :
    moved b.calls <+: b.accepted :=
  ⟨queue, h.accepted.symm⟩

section Phases
variable [CDouble α]

/-- The core took over exactly what a call asked for. -/
structure Took (c : Call α) (l : Load) : Prop where
  cmd : l.cmd = c.cmd
  steps : l.steps = c.steps
  a : l.a = c.a
  j : l.j = c.j
  v : l.v = c.v l.vBefore

/-- Every call so far has been loaded and the command register is clear. -/
structure Quiet (queue : List (Target α)) (b : Board α) : Prop where
  ledger : Ledger queue b
  cmd : b.core.reg .cmd = 0
  took : List.Forall₂ Took b.calls b.loads

/-- The registers of call `c` are being written. The map `f` knows what the
call has put where; the start bit is still clear. -/
structure Staging (queue : List (Target α)) (before : List (Call α)) (c : Call α)
    (f : Reg → Option (BitVec 32)) (b : Board α) : Prop where
  ledger : Ledger queue b
  calls : b.calls = before ++ [c]
  took : List.Forall₂ Took before b.loads
  regs : ∀ r w, f r = some w → b.core.reg r = w
  start : b.core.start = false

/-- Call `c` has written its start bit and waits for the core. -/
structure Issued (queue : List (Target α)) (c : Call α) (b : Board α) : Prop where
  ledger : Ledger queue b
  before : ∃ before, b.calls = before ++ [c] ∧ List.Forall₂ Took before b.loads
  cmd : b.core.reg .cmd = c.cmd
  steps : b.core.reg .nextSteps = c.steps
  a : b.core.reg .nextA = c.a
  j : b.core.reg .nextJ = c.j
  v : c = .stop → b.core.reg .nextV = 0

structure AtRest (core : UserLogic) : Prop where
  v : core.accProfileGen.v = 0
  a : core.accProfileGen.a = 0
  j : core.accProfileGen.j = 0

end Phases

theorem load_of_clear {core : UserLogic} (h : core.start = false) : core.load false = false := by
  simp [UserLogic.load, h]

theorem start_of_cmd_zero {core : UserLogic} (h : core.reg .cmd = 0) : core.start = false := by
  simp [UserLogic.start, h]

theorem AtRest.clock {core : UserLogic} (h : AtRest core) (hl : core.load false = false)
    (wr : Option BusWrite) : AtRest (UserLogic.clock false wr core) := by
  obtain ⟨-, hv, ha, hj⟩ := UserLogic.profile_of_no_load core wr hl
  constructor
  · simp [hv, h.v, h.a]
  · simp [ha, h.a, h.j]
  · rw [hj, h.j]

theorem stopped_clock {core : UserLogic} (h : core.stopped = true) (hl : core.load false = false)
    (wr : Option BusWrite) : (UserLogic.clock false wr core).stopped = true := by
  rw [UserLogic.stopped_of_no_load _ _ hl, h, Bool.true_or]

theorem loads_of_no_load {b : Board α} (hl : b.core.load false = false) (wr : Option BusWrite) :
    (b.clock wr).loads = b.loads := by
  simp [Board.clock, hl]

theorem cmd_move (cur next : Target α) : (Call.move cur next).cmd = 0x19 := by
  simp [Call.cmd, motionCmdStartMask, motionCmdSetAMask, motionCmdSetJMask]

theorem cmd_stop : (Call.stop : Call α).cmd = 0x1D := by
  simp [Call.cmd, motionCmdStartMask, motionCmdSetVMask, motionCmdSetAMask, motionCmdSetJMask]

theorem cmd_flags (c : Call α) :
    c.cmd.getLsbD 0 = true ∧ c.cmd.getLsbD 3 = true ∧ c.cmd.getLsbD 4 = true := by
  cases c with
  | move cur next => simp [cmd_move]
  | stop => simp [cmd_stop]

section Clocks
variable [CDouble α] {b : Board α} {queue : List (Target α)} {c : Call α}

theorem Quiet.no_load (h : Quiet queue b) : b.core.load false = false :=
  load_of_clear (start_of_cmd_zero h.cmd)

theorem Quiet.idle (h : Quiet queue b) : Quiet queue (b.clock none) := by
  refine ⟨h.ledger.clock none, ?_, ?_⟩
  · change (UserLogic.clock false none b.core).reg .cmd = 0
    simp [UserLogic.reg_clock_none, h.cmd]
  · rw [loads_of_no_load h.no_load]
    exact h.took

/-- A write to any register but the command leaves the phase alone. -/
theorem Quiet.write (h : Quiet queue b) (hr : r ≠ .cmd) (d : BitVec 32) :
    Quiet queue (b.clock (some (.full (.reg r) d))) := by
  refine ⟨h.ledger.clock _, ?_, ?_⟩
  · change (UserLogic.clock false _ b.core).reg .cmd = 0
    simp [UserLogic.reg_clock_full, h.cmd, Ne.symm hr]
  · rw [loads_of_no_load h.no_load]
    exact h.took

variable {before : List (Call α)} {f : Reg → Option (BitVec 32)}

theorem Staging.idle (h : Staging queue before c f b) :
    Staging queue before c f (b.clock none) := by
  have hl := load_of_clear h.start
  have hreg : ∀ r, (b.clock none).core.reg r = b.core.reg r := by
    intro r
    change (UserLogic.clock false none b.core).reg r = _
    simp [UserLogic.reg_clock_none, hl]
  refine ⟨h.ledger.clock none, h.calls, ?_, ?_, ?_⟩
  · rw [loads_of_no_load hl]
    exact h.took
  · intro r w hw
    rw [hreg, h.regs r w hw]
  · rw [UserLogic.start, hreg]
    exact h.start

/-- Writing a register of the call; a command word must not carry a start bit. -/
theorem Staging.write (h : Staging queue before c f b) (r : Reg) (d : BitVec 32)
    (hd : r = .cmd → d.getLsbD 0 = false) :
    Staging queue before c (Function.update f r (some d))
      (b.clock (some (.full (.reg r) d))) := by
  have hl := load_of_clear h.start
  have hreg : ∀ q, (b.clock (some (.full (.reg r) d))).core.reg q =
      if q = r then d else b.core.reg q := by
    intro q
    change (UserLogic.clock false _ b.core).reg q = _
    simp [UserLogic.reg_clock_full, hl]
  refine ⟨h.ledger.clock _, h.calls, ?_, ?_, ?_⟩
  · rw [loads_of_no_load hl]
    exact h.took
  · intro q w hw
    rw [hreg]
    by_cases hq : q = r
    · subst hq
      simpa using hw
    · rw [Function.update_of_ne hq] at hw
      rw [if_neg hq, h.regs q w hw]
  · rw [UserLogic.start, hreg]
    by_cases hr : Reg.cmd = r
    · rw [if_pos hr, hd hr.symm]
    · rw [if_neg hr]
      exact h.start

/-- The map holds everything the core will take over for call `c`. -/
structure Complete (c : Call α) (m : BitVec 32) (f : Reg → Option (BitVec 32)) : Prop where
  cmd : f .cmd = some m
  full : m ||| motionCmdStartMask = c.cmd
  steps : f .nextSteps = some c.steps
  a : f .nextA = some c.a
  j : f .nextJ = some c.j
  v : c = .stop → f .nextV = some 0

theorem Staging.issue (h : Staging queue before c f b) (hc : Complete c m f) :
    Issued queue c (b.clock (some (.full (.reg .cmd) (m ||| motionCmdStartMask)))) := by
  have hl := load_of_clear h.start
  have hreg : ∀ q, (b.clock (some (.full (.reg .cmd) (m ||| motionCmdStartMask)))).core.reg q =
      if q = .cmd then c.cmd else b.core.reg q := by
    intro q
    change (UserLogic.clock false _ b.core).reg q = _
    simp [UserLogic.reg_clock_full, hl, hc.full]
  refine ⟨h.ledger.clock _, ⟨before, h.calls, ?_⟩, ?_, ?_, ?_, ?_, ?_⟩
  · rw [loads_of_no_load hl]
    exact h.took
  · simp [hreg]
  · simpa [hreg] using h.regs _ _ hc.steps
  · simpa [hreg] using h.regs _ _ hc.a
  · simpa [hreg] using h.regs _ _ hc.j
  · intro hs
    simpa [hreg] using h.regs _ _ (hc.v hs)

theorem Issued.start (h : Issued queue c b) : b.core.start = true := by
  rw [UserLogic.start, h.cmd]
  exact (cmd_flags c).1

/-- The load of an issued call takes over exactly that call. -/
theorem Issued.took (h : Issued queue c b) (hl : b.core.load false = true) :
    Took c (Board.taken none b.core) := by
  obtain ⟨-, hv, ha, hj⟩ := UserLogic.profile_of_load b.core none hl
  have hgen := UserLogic.step_gen_of_load b.core none hl
  constructor
  · exact h.cmd
  · simp [Board.taken, hgen, h.steps]
  · simp [Board.taken, ha, h.a, UserLogic.setA, h.cmd, cmd_flags]
  · simp [Board.taken, hj, h.j, UserLogic.setJ, h.cmd, cmd_flags]
  · simp only [Board.taken, hv, UserLogic.setV, h.cmd]
    cases c with
    | move cur next => simp [cmd_move, Call.v]
    | stop => simp [cmd_stop, Call.v, h.v]

theorem Issued.idle_of_no_load (h : Issued queue c b) (hl : b.core.load false = false) :
    Issued queue c (b.clock none) := by
  have hreg : ∀ r, (b.clock none).core.reg r = b.core.reg r := by
    intro r
    change (UserLogic.clock false none b.core).reg r = _
    simp [UserLogic.reg_clock_none, hl]
  obtain ⟨before, hcalls, htook⟩ := h.before
  refine ⟨h.ledger.clock none, ⟨before, hcalls, ?_⟩, ?_, ?_, ?_, ?_, ?_⟩
  · rw [loads_of_no_load hl]
    exact htook
  · rw [hreg, h.cmd]
  · rw [hreg, h.steps]
  · rw [hreg, h.a]
  · rw [hreg, h.j]
  · intro hs
    rw [hreg, h.v hs]

theorem Issued.idle_of_load (h : Issued queue c b) (hl : b.core.load false = true) :
    Quiet queue (b.clock none) := by
  obtain ⟨before, hcalls, htook⟩ := h.before
  refine ⟨h.ledger.clock none, ?_, ?_⟩
  · change (UserLogic.clock false none b.core).reg .cmd = 0
    simp [UserLogic.reg_clock_none, hl]
  · change List.Forall₂ Took b.calls (if b.core.load false then _ else _)
    rw [if_pos hl, hcalls]
    exact List.rel_append htook (.cons (h.took hl) .nil)

/-- Loading a stop command brings the core to rest. -/
theorem Issued.rest_of_load (h : Issued queue .stop b) (hl : b.core.load false = true) :
    AtRest (b.clock none).core := by
  have ht := h.took hl
  exact ⟨ht.v, ht.a, ht.j⟩

end Clocks

section Assertions
variable [CDouble α] {b : Board α} {queue : List (Target α)} {c : Call α}

/-- Loads and calls correspond in order, up to the latest call. -/
def Corresponds (b : Board α) : Prop :=
  ∃ loaded rest, b.calls = loaded ++ rest ∧ List.Forall₂ Took loaded b.loads ∧ rest.length ≤ 1

def Safe (b : Board α) : Prop := Corresponds b ∧ moved b.calls <+: b.accepted

/-- Every issued command has been loaded and its segment has run to its end. -/
structure Finished (b : Board α) : Prop where
  loaded : b.loads.length = b.calls.length
  ended : b.dones = b.loads.length
  stopped : b.core.stopped = true

/-- The two announcements that follow a successful pair of status reads. -/
def Due : Event α → Board α → Prop
  | .printf text, b => text = "done\r\n" ∨ text = "IDLE\r\n" → Finished b
  | _, _ => True

theorem Quiet.safe (h : Quiet queue b) : Safe b :=
  ⟨⟨b.calls, [], by simp, h.took, by simp⟩, h.ledger.moved_first⟩

theorem Staging.safe (h : Staging queue before c f b) : Safe b :=
  ⟨⟨before, [c], h.calls, h.took, by simp⟩, h.ledger.moved_first⟩

theorem Issued.safe (h : Issued queue c b) : Safe b := by
  obtain ⟨before, hcalls, htook⟩ := h.before
  exact ⟨⟨before, [c], hcalls, htook, by simp⟩, h.ledger.moved_first⟩

theorem Quiet.finished (h : Quiet queue b) (hs : b.core.stopped = true) : Finished b := by
  refine ⟨h.took.length_eq.symm, ?_, hs⟩
  have := h.ledger.ended
  simp only [hs, if_true] at this
  omega

/-- Behind call `c`: it still waits for the core or it has been loaded, and a
loaded stop has brought the core to rest. -/
def After (c : Call α) (queue : List (Target α)) (b : Board α) : Prop :=
  Issued queue c b ∨ Quiet queue b ∧ (c = .stop → AtRest b.core)

def Ended (queue : List (Target α)) (b : Board α) : Prop :=
  Quiet queue b ∧ b.core.stopped = true

def Resting (queue : List (Target α)) (b : Board α) : Prop :=
  Ended queue b ∧ AtRest b.core

theorem quiet_stable : Stable Board.device (Quiet queue (α := α)) := fun _ => Quiet.idle

theorem staging_stable : Stable Board.device (Staging queue before c f) := fun _ => Staging.idle

theorem after_stable : Stable Board.device (After c queue) := by
  intro b h
  rcases h with h | ⟨h, hr⟩
  · cases hl : b.core.load false with
    | true =>
      refine .inr ⟨h.idle_of_load hl, ?_⟩
      intro hc
      subst hc
      exact h.rest_of_load hl
    | false => exact .inl (h.idle_of_no_load hl)
  · exact .inr ⟨h.idle, fun hc => (hr hc).clock h.no_load none⟩

theorem ended_stable : Stable Board.device (Ended queue (α := α)) :=
  fun _ h => ⟨h.1.idle, stopped_clock h.2 h.1.no_load none⟩

theorem resting_stable : Stable Board.device (Resting queue (α := α)) :=
  fun b h => ⟨ended_stable b h.1, h.2.clock h.1.1.no_load none⟩

theorem After.safe (h : After c queue b) : Safe b := by
  rcases h with h | h
  · exact h.safe
  · exact h.1.safe

theorem After.ledger (h : After c queue b) : Ledger queue b := by
  rcases h with h | h
  · exact h.ledger
  · exact h.1.ledger

theorem Ended.safe (h : Ended queue b) : Safe b := h.1.safe

theorem Resting.safe (h : Resting queue b) : Safe b := h.1.1.safe

theorem Resting.write (h : Resting queue b) (hr : r ≠ .cmd) (d : BitVec 32) :
    Resting queue (b.clock (some (.full (.reg r) d))) :=
  ⟨⟨h.1.1.write hr d, stopped_clock h.1.2 h.1.1.no_load _⟩, h.2.clock h.1.1.no_load _⟩

/-- Reading a clear start bit from the command register rules out a call that
still waits for the core. -/
theorem After.read_cmd (h : After c queue b) (hread : b.core.reg .cmd &&& 1 = 0) :
    Quiet queue b ∧ (c = .stop → AtRest b.core) := by
  rcases h with h | h
  · have hs := h.start
    rw [UserLogic.start] at hs
    have hbit : (b.core.reg .cmd &&& 1).getLsbD 0 = true := by
      rw [BitVec.getLsbD_and, hs]
      rfl
    rw [hread] at hbit
    simp at hbit
  · exact h

theorem read_status (core : UserLogic) :
    core.read (.stat .status) &&& 1 = 1 ↔ core.stopped = true := by
  cases h : core.stopped <;> simp [UserLogic.read, h]

end Assertions

section Calls
variable [CDouble α] {b : Board α} {queue : List (Target α)} {c : Call α}
  {before : List (Call α)} {f : Reg → Option (BitVec 32)}

theorem wp_stage (h : Staging queue before c f b) (r : Reg) (d : BitVec 32)
    (hd : r = .cmd → d.getLsbD 0 = false) :
    Wp Board.device Safe Due (motionWriteReg (Reg.addr r) d)
      (fun _ => Staging queue before c (Function.update f r (some d))) b := by
  apply wp_write staging_stable (fun _ => Staging.safe) h
  intro b h
  exact wp_ret staging_stable (fun _ => Staging.safe) (h.write r d hd) (fun _ h => h)

/-- A setter reads back the flags that this call has set so far and nothing
else. -/
theorem wp_or_cmd (h : Staging queue before c f b) (hm : f .cmd = some m)
    (hmask : (m ||| mask).getLsbD 0 = false) :
    Wp Board.device Safe Due (motionOrCmd mask)
      (fun _ => Staging queue before c (Function.update f .cmd (some (m ||| mask)))) b := by
  apply wp_read staging_stable (fun _ => Staging.safe) h
  intro b h
  change Wp Board.device Safe Due (motionWriteReg (Reg.addr .cmd) (b.core.reg .cmd ||| mask)) _ _
  rw [h.regs _ _ hm]
  exact wp_stage h.idle .cmd _ (fun _ => hmask)

theorem wp_set_next (h : Staging queue before c f b) (hm : f .cmd = some m)
    (hmask : (m ||| mask).getLsbD 0 = false) (hr : r ≠ .cmd) (d : BitVec 32) :
    Wp Board.device Safe Due (motionSetNext r mask d)
      (fun _ => Staging queue before c
        (Function.update (Function.update f r (some d)) .cmd (some (m ||| mask)))) b := by
  apply (wp_stage h r d (fun he => absurd he hr)).seq
  intro _ b h
  exact wp_or_cmd h (by rw [Function.update_of_ne hr.symm, hm]) hmask

theorem wp_start (h : Staging queue before c f b) (hc : Complete c m f) :
    Wp Board.device Safe Due motionStart (fun _ => After c queue) b := by
  apply wp_read staging_stable (fun _ => Staging.safe) h
  intro b h
  change Wp Board.device Safe Due
    (.write (Reg.addr .cmd) (b.core.reg .cmd ||| motionCmdStartMask) (.ret ())) _ _
  rw [h.regs _ _ hc.cmd]
  apply wp_write staging_stable (fun _ => Staging.safe) h.idle
  intro b h
  exact wp_ret after_stable (fun _ => After.safe) (.inl (h.issue hc)) (fun _ h => h)

def blank : Reg → Option (BitVec 32) := Function.update (fun _ => none) .cmd (some 0)

/-- Entering a call takes its target, if any, off the queue. -/
theorem Quiet.stage (h : Quiet (c.target.toList ++ rest) b) :
    Staging rest b.calls c blank { b with calls := b.calls ++ [c] } := by
  refine ⟨⟨?_, h.ledger.ended⟩, rfl, h.took, ?_, start_of_cmd_zero h.cmd⟩
  · have hmoved : moved (b.calls ++ [c]) = moved b.calls ++ c.target.toList := by
      cases ht : c.target <;> simp [moved, ht]
    change b.accepted = moved (b.calls ++ [c]) ++ rest
    rw [h.ledger.accepted, hmoved, List.append_assoc]
  · intro r w hw
    by_cases hr : r = .cmd
    · subst hr
      simpa [blank, h.cmd] using hw
    · simp [blank, hr] at hw

theorem wp_unqueue_move (s : Steppers α) (hlen : 0 < s.queueLen) (h : Quiet s.pending b) :
    Wp Board.device Safe Due (unqueueMove s hlen)
      (fun t b => t = (s.unqueued hlen).setPosition s.front ∧
        After (.move s.currentPosition s.front) (s.unqueued hlen).pending b) b := by
  apply wp_mark quiet_stable (fun _ => Quiet.safe) h (fun _ _ => trivial)
  intro b h
  rw [pending_unqueued s hlen] at h
  have hstage := Quiet.stage (c := .move s.currentPosition s.front) h
  refine (wp_stage hstage .nextSteps _ (by simp)).seq ?_
  intro _ b h
  refine (wp_set_next (m := 0) h (by simp [blank]) (by decide) (by simp) _).seq ?_
  intro _ b h
  refine (wp_set_next (m := 0 ||| motionCmdSetAMask) h (by simp) (by decide) (by simp) _).seq ?_
  intro _ b h
  refine (wp_start h ⟨Function.update_self .., ?_, ?_, ?_, ?_, by simp⟩).seq ?_
  · rw [cmd_move]
    decide
  · simp [Call.steps]
  · simp [Call.a]
  · simp [Call.j]
  · intro _ b h
    exact wp_ret after_stable (fun _ => After.safe) h (fun _ h => ⟨rfl, h⟩)

theorem wp_unqueue_stop (s : Steppers α) (h : Quiet queue b) :
    Wp Board.device Safe Due (unqueueStop s)
      (fun t b => t = s.clearV ∧ After .stop queue b) b := by
  apply wp_mark quiet_stable (fun _ => Quiet.safe) h (fun _ _ => trivial)
  intro b h
  have hstage : Staging queue b.calls .stop blank _ := Quiet.stage (c := .stop) h
  refine (wp_stage hstage .nextSteps _ (by simp)).seq ?_
  intro _ b h
  refine (wp_set_next (m := 0) h (by simp [blank]) (by decide) (by simp) _).seq ?_
  intro _ b h
  refine (wp_set_next (m := 0 ||| motionCmdSetVMask) h (by simp) (by decide) (by simp) _).seq ?_
  intro _ b h
  refine (wp_set_next (m := 0 ||| motionCmdSetVMask ||| motionCmdSetAMask) h (by simp) (by decide)
    (by simp) _).seq ?_
  intro _ b h
  refine (wp_start h ⟨Function.update_self .., ?_, ?_, ?_, ?_, by simp⟩).seq ?_
  · rw [cmd_stop]
    decide
  · simp [Call.steps]
  · simp [Call.a]
  · simp [Call.j]
  · intro _ b h
    exact wp_ret after_stable (fun _ => After.safe) h (fun _ h => ⟨rfl, h⟩)

end Calls

end Vp2Motion.Proofs.Handshake
