import Mathlib.Tactic.Common

namespace Vp2Motion.Hdl

/-- The registers of `acc_step_gen`. Every one of them is a 32-bit unsigned
counter or limit, so the model keeps them as bit vectors. -/
structure AccStepGen where
  dtLimit : BitVec 32
  stepsLimit : BitVec 32
  steps : BitVec 32
  dt : BitVec 32
  stopped : Bool

namespace AccStepGen

structure Inputs where
  reset : Bool
  dtVal : BitVec 32
  stepsVal : BitVec 32
  load : Bool

/-- `dt >= dt_limit - 1`: a 32-bit unsigned comparison, so a limit of zero
wraps to the largest value instead of being met at once. -/
def dtExpired (s : AccStepGen) : Bool := decide (s.dtLimit - 1 ≤ s.dt)

/-- `steps >= steps_limit - 1`, with the same wraparound. -/
def stepsExpired (s : AccStepGen) : Bool := decide (s.stepsLimit - 1 ≤ s.steps)

/-- The combinational output `step_stb`. -/
def stepStb (reset : Bool) (s : AccStepGen) : Bool :=
  if reset then false
  else if s.stopped then false
  else s.dtExpired

def done (reset : Bool) (s : AccStepGen) : Bool :=
  if reset then false
  else if s.stopped then false
  else if s.dtExpired then s.stepsExpired else false

/-- One rising edge. The limits are latched by `load`; the counters restart
on `load` even when it arrives on the last strobe of the running segment. -/
def clock (i : Inputs) (s : AccStepGen) : AccStepGen where
  dtLimit := if i.reset then 0 else if i.load then i.dtVal else s.dtLimit
  stepsLimit := if i.reset then 0 else if i.load then i.stepsVal else s.stepsLimit
  steps :=
    if i.reset then 0
    else if i.load then 0
    else if s.stopped then 0
    else if s.dtExpired then s.steps + 1 else s.steps
  dt :=
    if i.reset then 0
    else if i.load then 0
    else if s.stopped then 0
    else if s.dtExpired then 0 else s.dt + 1
  stopped :=
    if i.reset then true
    else if i.load then false
    else if s.stopped then true
    else if s.dtExpired then s.stepsExpired else false

end AccStepGen

end Vp2Motion.Hdl
