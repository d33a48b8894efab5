import Mathlib.Tactic.Common

namespace Vp2Motion.Hdl

/-- The registers of `acc_profile_gen`: position, velocity, acceleration and
jerk, with the step strobe and direction it hands to the pulse generator. -/
structure AccProfileGen where
  x : BitVec 64
  v : BitVec 32
  a : BitVec 32
  j : BitVec 32
  step : Bool
  dir : Bool

namespace AccProfileGen

structure Inputs where
  reset : Bool
  accStep : Bool
  load : Bool
  setX : Bool
  setV : Bool
  setA : Bool
  setJ : Bool
  xVal : BitVec 64
  vVal : BitVec 32
  aVal : BitVec 32
  jVal : BitVec 32
  stepBit : BitVec 6

/-- The wire `x_acc`: both operands are declared signed, so `v` is sign
extended before the 64-bit addition. -/
def xAcc (s : AccProfileGen) : BitVec 64 := s.x + s.v.signExtend 64

def crossed (stepBit : BitVec 6) (s : AccProfileGen) : Bool :=
  s.x.getLsbD stepBit.toNat != s.xAcc.getLsbD stepBit.toNat

/-- One rising edge. A load takes precedence over `acc_step`, while `x` keeps
accumulating on every clock that does not load it. -/
def clock (i : Inputs) (s : AccProfileGen) : AccProfileGen where
  v :=
    if i.reset then 0
    else if i.load then (if i.setV then i.vVal else s.v)
    else if i.accStep then s.v + s.a else s.v
  a :=
    if i.reset then 0
    else if i.load then (if i.setA then i.aVal else s.a)
    else if i.accStep then s.a + s.j else s.a
  j :=
    if i.reset then 0
    else if i.load then (if i.setJ then i.jVal else s.j)
    else s.j
  x :=
    if i.reset then 0
    else if i.load && i.setX then i.xVal
    else s.xAcc
  step :=
    if i.reset then false
    else if i.load && i.setX then false
    else s.crossed i.stepBit
  dir :=
    if i.reset then false
    else if i.load && i.setX then false
    else if s.crossed i.stepBit then (0 : BitVec 32).slt s.v else s.dir

end AccProfileGen

end Vp2Motion.Hdl
