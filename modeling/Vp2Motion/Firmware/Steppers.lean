import Mathlib.Data.Rat.Defs
import Mathlib.Data.Rat.Cast.Defs
import Vp2Motion.Firmware.Motion

namespace Vp2Motion.Firmware
open Hdl Bus

/-- What the move arithmetic needs of the C type `double`: the operators, the
conversion of integers and the two casts back to 32-bit integers. -/
class CDouble (α : Type) extends Add α, Sub α, Mul α, Div α, NatCast α where
  toUint32 : α → BitVec 32
  toInt32 : α → BitVec 32

/-- Exact arithmetic, with casts that truncate toward zero. -/
def truncate (q : ℚ) : ℤ := q.num.tdiv q.den

instance : CDouble ℚ where
  toUint32 q := BitVec.ofInt 32 (truncate q)
  toInt32 q := BitVec.ofInt 32 (truncate q)

/-- `struct steppers_target`. Only axis 0 is ever computed with. -/
structure Target (α : Type) where
  dt : α
  x : α
  v : α

def stepFreq : ℕ := 100000000
def stepBit : ℕ := 40
def accFreq : ℕ := 250
def maxQueueLen : ℕ := 10

/-- The three doubles `unqueue_move` casts into registers. -/
structure Plan (α : Type) where
  dt : α
  a : α
  j : α

section
variable {α : Type} [CDouble α]

/-- The arithmetic of `unqueue_move`, operation by operation. -/
def plan (currentPosition nextPosition : Target α) : Plan α :=
  let lit (n : ℕ) : α := n
  let dt := nextPosition.dt
  let dx := nextPosition.x - currentPosition.x
  let v0 := currentPosition.v
  let vn := nextPosition.v
  let kb := lit 3 * dx / (dt * dt) - (lit 2 * v0 + vn) / dt
  let ka := (vn - v0) / (lit 3 * (dt * dt)) - (lit 2 * kb) / (lit 3 * dt)
  { dt := dt * lit accFreq
    a := lit 2 * kb * lit (2 ^ stepBit) / lit stepFreq / lit accFreq
    j := lit 6 * ka * lit (2 ^ stepBit) / lit stepFreq / lit accFreq / lit accFreq }

def planSteps (cur next : Target α) : BitVec 32 := CDouble.toUint32 (plan cur next).dt
def planA (cur next : Target α) : BitVec 32 := CDouble.toInt32 (plan cur next).a
def planJ (cur next : Target α) : BitVec 32 := CDouble.toInt32 (plan cur next).j

end

/-- The values of the variable `state`. Nothing ever enters `STATE_DELAY`. -/
inductive State where
  | off
  | idle
  | active
  | delay
  | stopping
deriving DecidableEq

/-- The static variables of `steppers.c`. -/
structure Steppers (α : Type) where
  state : State
  currentPosition : Target α
  queue : Vector (Target α) maxQueueLen
  queueLen : ℕ
  queueLen_le : queueLen ≤ maxQueueLen

/-- Points of the firmware that the bus does not show. Of the `printf` lines they are those
that announce a decision of the state machine. -/
inductive Event (α : Type) where
  | unqueueMove (cur next : Target α)
  | unqueueStop
  | printf (text : String)

variable {α : Type}

/-- The shifting loop of `unqueue_move` after `n` iterations. -/
def shiftQueue (q : Vector (Target α) maxQueueLen) :
    (n : ℕ) → n < maxQueueLen → Vector (Target α) maxQueueLen
  | 0, _ => q
  | n + 1, h =>
    let shifted := shiftQueue q n (by omega)
    shifted.set n (shifted.get ⟨n + 1, h⟩)

namespace Steppers

def front (s : Steppers α) : Target α := s.queue.get ⟨0, by decide⟩

/-- The queue and its length after `unqueue_move` has taken the front. -/
def unqueued (s : Steppers α) (h : 0 < s.queueLen) : Steppers α :=
  { s with
    queue := shiftQueue s.queue (s.queueLen - 1) (by have := s.queueLen_le; omega)
    queueLen := s.queueLen - 1
    queueLen_le := by have := s.queueLen_le; omega }

variable [CDouble α]

def setPosition (s : Steppers α) (p : Target α) : Steppers α := { s with currentPosition := p }

def clearV (s : Steppers α) : Steppers α :=
  s.setPosition { s.currentPosition with v := ((0 : ℕ) : α) }

def clearX (s : Steppers α) : Steppers α :=
  s.setPosition { s.currentPosition with x := ((0 : ℕ) : α) }

def setState (s : Steppers α) (state : State) : Steppers α := { s with state := state }

end Steppers

/-- `steppersQueue`. The result is `-1` for a full queue; on success the source
falls off the end of the function without a value. -/
def steppersQueue (target : Target α) (s : Steppers α) : Option ℤ × Steppers α :=
  if h : maxQueueLen ≤ s.queueLen then (some (-1), s)
  else
    (none, { s with
      queue := s.queue.set s.queueLen target (by omega)
      queueLen := s.queueLen + 1
      queueLen_le := by omega })

def Steppers.pending (s : Steppers α) : List (Target α) := s.queue.toList.take s.queueLen

theorem shift_queue_get (q : Vector (Target α) maxQueueLen) (n : ℕ) (hn : n < maxQueueLen)
    (i : ℕ) (hi : i < maxQueueLen) :
    (shiftQueue q n hn)[i] = if h : i < n then q[i + 1] else q[i] := by
  induction n generalizing i with
  | zero => simp [shiftQueue]
  | succ n ih =>
    have hget : (shiftQueue q n (by omega)).get ⟨n + 1, hn⟩ = q[n + 1] :=
      (ih (by omega) (n + 1) hn).trans (dif_neg (by omega))
    simp only [shiftQueue, hget, Vector.getElem_set, ih]
    grind

/-- Taking the front shifts the rest of the queue down by one. -/
theorem pending_unqueued (s : Steppers α) (h : 0 < s.queueLen) :
    s.pending = s.front :: (s.unqueued h).pending := by
  have hle := s.queueLen_le
  apply List.ext_getElem
  · simp [Steppers.pending, Steppers.unqueued]
    omega
  · intro i hi hi'
    simp only [Steppers.pending, Steppers.unqueued, List.getElem_take]
    cases i with
    | zero => rfl
    | succ i =>
      simp [Steppers.pending] at hi
      simp only [List.getElem_cons_succ, List.getElem_take, Vector.getElem_toList,
        shift_queue_get]
      rw [dif_pos (by omega)]

theorem pending_queue (t : Target α) (s : Steppers α) :
    (steppersQueue t s).2.pending =
      s.pending ++ if (steppersQueue t s).1 = none then [t] else [] := by
  unfold steppersQueue
  split
  · simp
  · rename_i hlt
    apply List.ext_getElem
    · simp [Steppers.pending]
      omega
    · intro i hi hi'
      simp [Steppers.pending] at hi
      simp only [Steppers.pending, List.getElem_take, Vector.getElem_toList, Vector.getElem_set,
        List.getElem_append]
      split
      · simp_all
      · rw [dif_pos (by simp; omega)]

variable [CDouble α]

/-- `unqueue_move`, which both callers guard by `queue_len > 0`. -/
def unqueueMove (s : Steppers α) (h : 0 < s.queueLen) : Code (Event α) (Steppers α) := do
  let next := s.front
  .mark (.unqueueMove s.currentPosition next) (.ret ())
  motionSetSteps (planSteps s.currentPosition next)
  motionSetA (planA s.currentPosition next)
  motionSetJ (planJ s.currentPosition next)
  motionStart
  return (s.unqueued h).setPosition next

def stopSteps : BitVec 32 := BitVec.ofNat 32 (accFreq / 10)

def unqueueStop (s : Steppers α) : Code (Event α) (Steppers α) := do
  .mark .unqueueStop (.ret ())
  motionSetSteps stopSteps
  motionSetV 0
  motionSetA 0
  motionSetJ 0
  motionStart
  return s.clearV

/-- The pulse settings of `STATE_OFF`. -/
def initPreN : BitVec 32 := 100
def initPulseN : BitVec 32 := 300
def initPostN : BitVec 32 := 100

/-- The branch of `STATE_OFF` that configures the core. -/
def initCore (s : Steppers α) : Code (Event α) (Steppers α) := do
  .mark (.printf "INIT\r\n") (.ret ())
  motionWriteReg (Reg.addr .preN) initPreN
  motionWriteReg (Reg.addr .pulseN) initPulseN
  motionWriteReg (Reg.addr .postN) initPostN
  motionWriteReg (Reg.addr .stepBit) ((1 <<< 31) ||| BitVec.ofNat 32 stepBit)
  motionSetDT (BitVec.ofNat 32 (stepFreq / accFreq))
  return (s.clearX.clearV).setState .idle

def steppersMainLoop (s : Steppers α) : Code (Event α) (Steppers α) :=
  match s.state with
  | .off => if 0 < s.queueLen then initCore s else return s
  | .idle =>
    if h : 0 < s.queueLen then do
      let s ← unqueueMove s h
      return s.setState .active
    else return s
  | .active => do
    let tmp ← motionReadReg (Reg.addr .cmd)
    if tmp &&& 1 = 0 then
      if h : 0 < s.queueLen then unqueueMove s h
      else do
        let tmp ← motionReadReg (Stat.addr .status)
        if tmp &&& 1 = 1 then do
          .mark (.printf "done\r\n") (.ret ())
          let s ← unqueueStop s
          return s.setState .stopping
        else return s
    else return s
  | .delay => return s
  | .stopping => do
    let tmp ← motionReadReg (Reg.addr .cmd)
    if tmp &&& 1 = 0 then do
      let tmp ← motionReadReg (Stat.addr .status)
      if tmp &&& 1 = 1 then do
        .mark (.printf "IDLE\r\n") (.ret ())
        return s.setState .idle
      else return s
    else return s

def steppersReset (s : Steppers α) : Code (Event α) (Steppers α) := do
  let cleared : Steppers α :=
    { (s.setState .off).clearX.clearV with queueLen := 0, queueLen_le := Nat.zero_le _ }
  motionReset
  return cleared

/-- The register reads of `steppersStatus`, in its order. -/
def steppersStatus (s : Steppers α) : Code (Event α) (Steppers α) := do
  let _ ← motionReadReg (Reg.addr .cmd)
  let _ ← motionReadReg (Stat.addr .status)
  let _ ← motionReadReg (Stat.addr .dt)
  let _ ← motionReadReg (Stat.addr .steps)
  let _ ← motionReadReg (Stat.addr .xl)
  let _ ← motionReadReg (Stat.addr .xh)
  let _ ← motionReadReg (Stat.addr .v)
  let _ ← motionReadReg (Stat.addr .a)
  let _ ← motionReadReg (Stat.addr .j)
  return s

def Steppers.initial : Steppers α where
  state := .off
  currentPosition := ⟨((0 : ℕ) : α), ((0 : ℕ) : α), ((0 : ℕ) : α)⟩
  queue := Vector.replicate maxQueueLen ⟨((0 : ℕ) : α), ((0 : ℕ) : α), ((0 : ℕ) : α)⟩
  queueLen := 0
  queueLen_le := Nat.zero_le _

end Vp2Motion.Firmware
