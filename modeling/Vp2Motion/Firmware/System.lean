import Vp2Motion.Firmware.Steppers

namespace Vp2Motion.Firmware
open Hdl Bus

inductive Call (α : Type) where
  | move (cur next : Target α)
  | stop

namespace Call
variable {α : Type} [CDouble α]

/-- The command word a call builds up, with its start bit. -/
def cmd : Call α → BitVec 32
  | .move _ _ => motionCmdStartMask ||| motionCmdSetAMask ||| motionCmdSetJMask
  | .stop => motionCmdStartMask ||| motionCmdSetVMask ||| motionCmdSetAMask ||| motionCmdSetJMask

def steps : Call α → BitVec 32
  | .move cur next => planSteps cur next
  | .stop => stopSteps

def a : Call α → BitVec 32
  | .move cur next => planA cur next
  | .stop => 0

def j : Call α → BitVec 32
  | .move cur next => planJ cur next
  | .stop => 0

/-- The velocity a call leaves, given the one it finds. -/
def v (before : BitVec 32) : Call α → BitVec 32
  | .move _ _ => before
  | .stop => 0

def target : Call α → Option (Target α)
  | .move _ next => some next
  | .stop => none

end Call

/-- What the core took over on the clock of a load: the command word, and its
registers after the clock beside the velocity before it. -/
structure Load where
  cmd : BitVec 32
  steps : BitVec 32
  v : BitVec 32
  a : BitVec 32
  j : BitVec 32
  vBefore : BitVec 32

/-- The core with a record of what happened since the last reset. -/
structure Board (α : Type) where
  core : UserLogic
  accepted : List (Target α)
  calls : List (Call α)
  loads : List Load
  dones : ℕ

namespace Board
variable {α : Type}

/-- The record of the load that `wr` on the bus does not prevent. -/
def taken (wr : Option BusWrite) (core : UserLogic) : Load :=
  let after := UserLogic.clock false wr core
  { cmd := core.reg .cmd
    steps := after.accStepGen.stepsLimit
    v := after.accProfileGen.v
    a := after.accProfileGen.a
    j := after.accProfileGen.j
    vBefore := core.accProfileGen.v }

def clock (wr : Option BusWrite) (b : Board α) : Board α :=
  { b with
    core := UserLogic.clock false wr b.core
    loads := if b.core.load false then b.loads ++ [taken wr b.core] else b.loads
    dones := if b.core.accStepGen.done false then b.dones + 1 else b.dones }

/-- Clocks for which `soft_reset` holds the core in reset. -/
def resetWidth : ℕ := 4

/-- The software reset, run to its end. -/
def reset (b : Board α) : Board α where
  core := (UserLogic.clock true none)^[resetWidth] b.core
  accepted := []
  calls := []
  loads := []
  dones := 0

def initial : Board α where
  core := .initial
  accepted := []
  calls := []
  loads := []
  dones := 0

def mark : Event α → Board α → Board α
  | .unqueueMove cur next, b => { b with calls := b.calls ++ [.move cur next] }
  | .unqueueStop, b => { b with calls := b.calls ++ [.stop] }
  | .printf _, b => b

/-- The board as the firmware reaches it. A word other than the reset key in
the reset register does nothing. -/
def device : Device Addr (BitVec 32) (Event α) (Board α) where
  idle := clock none
  get
    | .sel s, b => b.core.read s
    | .rst, _ => 0
  put
    | .sel s, d, b => clock (some (.full s d)) b
    | .rst, d, b => if d = softReset then b.reset else clock none b
  mark := mark

end Board

/-- Firmware and core as two parties on one bus. `running` is the rest of the call in
progress; between calls the firmware is at a main-loop boundary. -/
structure System (α : Type) where
  steppers : Steppers α
  running : Option (Code (Event α) (Steppers α))
  board : Board α

/-- What can happen next. The command line calls `steppersQueue`,
`steppersStatus` and `steppersReset` between two calls of the main loop. -/
inductive Action (α : Type) where
  | clock
  | mainLoop
  | queue (target : Target α)
  | status
  | reset
  | execute
  | return

namespace System
variable {α : Type} [CDouble α]

def initial : System α := ⟨.initial, none, .initial⟩

/-- Ghost side of `steppersQueue`: the target counts as accepted unless the
call returned `-1`. -/
def queued (target : Target α) (s : System α) : System α :=
  { s with
    steppers := (steppersQueue target s.steppers).2
    board :=
      if (steppersQueue target s.steppers).1 = none then
        { s.board with accepted := s.board.accepted ++ [target] }
      else s.board }

/-- Every register access is one full-word transaction of one clock, and any number of core
clocks may pass between two of them. -/
inductive Step : System α → Action α → System α → Prop where
  | clock (s : System α) : Step s .clock { s with board := s.board.clock none }
  | mainLoop (h : s.running = none) :
      Step s .mainLoop { s with running := some (steppersMainLoop s.steppers) }
  | queue (target : Target α) (h : s.running = none) : Step s (.queue target) (s.queued target)
  | status (h : s.running = none) :
      Step s .status { s with running := some (steppersStatus s.steppers) }
  | reset (h : s.running = none) :
      Step s .reset { s with running := some (steppersReset s.steppers) }
  | execute (h : s.running = some p) (hp : Bus.Step Board.device (p, s.board) (q, b)) :
      Step s .execute { s with running := some q, board := b }
  | return (h : s.running = some (.ret result)) :
      Step s .return { s with steppers := result, running := none }

/-- The states of runs that take only the allowed actions. -/
inductive Reachable (allowed : Action α → Prop) : System α → Prop where
  | initial : Reachable allowed initial
  | step (h : Reachable allowed s) (ha : allowed a) (hs : Step s a t) : Reachable allowed t

end System

end Vp2Motion.Firmware
