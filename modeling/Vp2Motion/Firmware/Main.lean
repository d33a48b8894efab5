import Vp2Motion.Firmware.System

namespace Vp2Motion.Firmware

variable {α : Type} [CDouble α]

/-- The conversion of an `int32_t` to `double`. -/
def ofInt32 (x : BitVec 32) : α :=
  if 0 ≤ x.toInt then ((x.toInt.toNat : ℕ) : α)
  else ((0 : ℕ) : α) - (((-x.toInt).toNat : ℕ) : α)

/-- The target that `do_start` builds from its three arguments; `dt` counts
milliseconds. -/
def startTarget (x v dt : BitVec 32) : Target α where
  x := ofInt32 x
  v := ofInt32 v
  dt := ofInt32 dt / ((1000 : ℕ) : α)

/-- `do_start`, given what `cmdlineGetArgInt` returns for its arguments. The
result of `steppersQueue` is not looked at. -/
def doStart (x v dt : BitVec 32) (s : Steppers α) : Steppers α :=
  (steppersQueue (startTarget x v dt) s).2

/-- The actions of a system in which only `do_start` queues targets. -/
def OnlyStart : Action α → Prop
  | .queue target => ∃ x v dt, target = startTarget x v dt
  | _ => True

end Vp2Motion.Firmware
