import Vp2Motion.Firmware.System

namespace Vp2Motion.Firmware
open Hdl Bus

/-- The calls of `motion.c`, on their own. -/
inductive DriverCall where
  | setX (val : BitVec 64)
  | setV (val : BitVec 32)
  | setA (val : BitVec 32)
  | setJ (val : BitVec 32)
  | setDT (val : BitVec 32)
  | setSteps (val : BitVec 32)
  | start
deriving DecidableEq

def DriverCall.code {E : Type} : DriverCall → Code E Unit
  | .setX val => motionSetX val
  | .setV val => motionSetV val
  | .setA val => motionSetA val
  | .setJ val => motionSetJ val
  | .setDT val => motionSetDT val
  | .setSteps val => motionSetSteps val
  | .start => motionStart

/-- The core beside the call in progress, with the number of `MOTION_Start`
calls made so far. The marks of the firmware are not used here. -/
structure Driver where
  running : Option (DriverCall × Code (Event Empty) Unit)
  board : Board Empty
  starts : ℕ

inductive DriverAction where
  | clock
  | call (c : DriverCall)
  | read
  | write
  | return
deriving DecidableEq

namespace Driver

def initial : Driver := ⟨none, .initial, 0⟩

inductive Step : Driver → DriverAction → Driver → Prop where
  | clock (s : Driver) : Step s .clock { s with board := s.board.clock none }
  | call (c : DriverCall) (h : s.running = none) :
      Step s (.call c)
        { s with
          running := some (c, c.code)
          starts := if c = .start then s.starts + 1 else s.starts }
  | read (h : s.running = some (c, .read addr k)) :
      Step s .read
        { s with
          running := some (c, k (Board.device.get addr s.board))
          board := s.board.clock none }
  | write (h : s.running = some (c, .write addr d k)) :
      Step s .write
        { s with
          running := some (c, k)
          board := Board.device.put addr d s.board }
  | return (h : s.running = some (c, .ret ())) : Step s .return { s with running := none }

/-- The states of runs whose steps are all allowed where they are taken. -/
inductive Reachable (allowed : Driver → DriverAction → Prop) : Driver → Prop where
  | initial : Reachable allowed initial
  | step (h : Reachable allowed s) (ha : allowed s a) (hs : Step s a t) : Reachable allowed t

end Driver

end Vp2Motion.Firmware
