import Vp2Motion.Bus.Program
import Vp2Motion.Hdl.UserLogic

namespace Vp2Motion.Firmware
open Hdl Bus

/-- The address space of the peripheral as the driver uses it: the registers
of `user_logic` and the register of the software reset space. -/
inductive Addr where
  | sel (s : Sel)
  | rst
deriving DecidableEq

abbrev Reg.addr (r : Reg) : Addr := .sel (.reg r)
abbrev Stat.addr (t : Stat) : Addr := .sel (.stat t)

abbrev Code (E α : Type) := Prog Addr (BitVec 32) E α

def motionCmdStartMask : BitVec 32 := 0x1
def motionCmdSetXMask : BitVec 32 := 0x2
def motionCmdSetVMask : BitVec 32 := 0x4
def motionCmdSetAMask : BitVec 32 := 0x8
def motionCmdSetJMask : BitVec 32 := 0x10

def softReset : BitVec 32 := 0xA

variable {E : Type}

def motionReadReg (addr : Addr) : Code E (BitVec 32) := .read addr .ret

def motionWriteReg (addr : Addr) (data : BitVec 32) : Code E Unit := .write addr data (.ret ())

def motionReset : Code E Unit := motionWriteReg .rst softReset

/-- The read-modify-write of the command register at the end of every setter. -/
def motionOrCmd (mask : BitVec 32) : Code E Unit := do
  let tmp ← motionReadReg (Reg.addr .cmd)
  motionWriteReg (Reg.addr .cmd) (tmp ||| mask)

def motionStart : Code E Unit := motionOrCmd motionCmdStartMask

def motionSetDT (val : BitVec 32) : Code E Unit := motionWriteReg (Reg.addr .nextDt) val

def motionSetSteps (val : BitVec 32) : Code E Unit := motionWriteReg (Reg.addr .nextSteps) val

def motionSetX (val : BitVec 64) : Code E Unit := do
  motionWriteReg (Reg.addr .nextXl) (val.extractLsb' 0 32)
  motionWriteReg (Reg.addr .nextXh) (val.extractLsb' 32 32)
  motionOrCmd motionCmdSetXMask

/-- The body that `MOTION_SetV`, `MOTION_SetA` and `MOTION_SetJ` share. -/
def motionSetNext (next : Reg) (mask val : BitVec 32) : Code E Unit := do
  motionWriteReg (Reg.addr next) val
  motionOrCmd mask

def motionSetV (val : BitVec 32) : Code E Unit := motionSetNext .nextV motionCmdSetVMask val

def motionSetA (val : BitVec 32) : Code E Unit := motionSetNext .nextA motionCmdSetAMask val

def motionSetJ (val : BitVec 32) : Code E Unit := motionSetNext .nextJ motionCmdSetJMask val

end Vp2Motion.Firmware
