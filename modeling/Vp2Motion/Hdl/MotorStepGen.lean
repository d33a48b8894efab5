import Mathlib.Tactic.Common

namespace Vp2Motion.Hdl

/-- The registers of `motor_step_gen`. One counter runs through all three
phases of a pulse; zero means that the generator accepts a strobe. -/
structure MotorStepGen where
  cnt : BitVec 32
  step : Bool
  dir : Bool
  missed : Bool

namespace MotorStepGen

structure Inputs where
  reset : Bool
  preN : BitVec 32
  pulseN : BitVec 32
  postN : BitVec 32
  stepStb : Bool
  stepDir : Bool

/-- One rising edge. The three limits are compared with the same running
counter, in the order of the source's if/else chain. -/
def clock (i : Inputs) (s : MotorStepGen) : MotorStepGen :=
  if i.reset then
    { cnt := 0, step := false, dir := false, missed := false }
  else if s.cnt = 0 then
    if i.stepStb then
      { cnt := 1, step := false, dir := i.stepDir, missed := false }
    else
      { cnt := 0, step := false, dir := s.dir, missed := false }
  else if s.cnt < i.preN then
    { cnt := s.cnt + 1, step := false, dir := s.dir, missed := i.stepStb }
  else if s.cnt < i.pulseN then
    { cnt := s.cnt + 1, step := true, dir := s.dir, missed := i.stepStb }
  else if s.cnt < i.postN then
    { cnt := s.cnt + 1, step := false, dir := s.dir, missed := i.stepStb }
  else
    { cnt := 0, step := false, dir := s.dir, missed := i.stepStb }

end MotorStepGen

end Vp2Motion.Hdl
