import Mathlib.Data.BitVec
import Mathlib.Logic.Function.Basic
import Vp2Motion.Hdl.AccStepGen
import Vp2Motion.Hdl.AccProfileGen
import Vp2Motion.Hdl.MotorStepGen

namespace Vp2Motion.Hdl

/-- The fourteen registers that the bus can write, with their numbers in
`user_logic`. The driver's offset of a register is four times its number. -/
inductive Reg where
  | cmd         -- 0
  | nextXl      -- 1
  | nextXh      -- 2
  | nextV       -- 3
  | nextA       -- 4
  | nextJ       -- 5
  | nextDt      -- 6
  | nextSteps   -- 7
  | preN        -- 8
  | pulseN      -- 9
  | postN       -- 10
  | stepBit     -- 11
  | stopDelay   -- 27
  | probeDelay  -- 28
deriving DecidableEq

/-- The status words of the read multiplexer. -/
inductive Stat where
  | xl             -- 12
  | xh             -- 13
  | v              -- 14
  | a              -- 15
  | j              -- 16
  | dt             -- 17
  | steps          -- 18
  | status         -- 19
  | eminXl         -- 20
  | eminXh         -- 21
  | emaxXl         -- 22
  | emaxXh         -- 23
  | eprobeXl       -- 24
  | eprobeXh       -- 25
  | missedSteps    -- 26
  | minBounce      -- 29
  | maxBounce      -- 30
  | probeBounce    -- 31
deriving DecidableEq

/-- What one hot bit of `slv_reg_write_sel` or `slv_reg_read_sel` selects. -/
inductive Sel where
  | reg (r : Reg)
  | stat (t : Stat)
deriving DecidableEq

/-- A write cycle: the selected word, `Bus2IP_Data` and `Bus2IP_BE`. -/
structure BusWrite where
  sel : Sel
  data : BitVec 32
  be : Fin 4 → Bool

def BusWrite.full (sel : Sel) (data : BitVec 32) : BusWrite := ⟨sel, data, fun _ => true⟩

/-- Byte lane `i` of a written register: the bits `8 * i .. 8 * i + 7` of the
data when `Bus2IP_BE[i]` is set, and of the old value otherwise. -/
def byteLane (be : Fin 4 → Bool) (data old : BitVec 32) (i : Fin 4) : BitVec 8 :=
  (if be i then data else old).extractLsb' (8 * i) 8

/-- The two nested loops over `byte_index` and `bit_index`. -/
def writeLanes (be : Fin 4 → Bool) (data old : BitVec 32) : BitVec 32 :=
  byteLane be data old 3 ++ byteLane be data old 2 ++
    byteLane be data old 1 ++ byteLane be data old 0

/-- Bit `k` of a written register belongs to byte lane `k / 8`. -/
theorem write_lanes_bit (be : Fin 4 → Bool) (data old : BitVec 32) (i : Fin 4) (hk : k < 8) :
    (writeLanes be data old).getLsbD (8 * i + k) =
      if be i then data.getLsbD (8 * i + k) else old.getLsbD (8 * i + k) := by
  simp only [writeLanes, byteLane, BitVec.getLsbD_append, BitVec.getLsbD_extractLsb']
  have hi := i.isLt
  obtain rfl | rfl | rfl | rfl : i = 0 ∨ i = 1 ∨ i = 2 ∨ i = 3 := by omega
  all_goals split <;> grind

@[simp]
theorem write_lanes_full (data old : BitVec 32) : writeLanes (fun _ => true) data old = data := by
  apply BitVec.eq_of_getLsbD_eq
  intro k hk
  have hbit := write_lanes_bit (fun _ => true) data old ⟨k / 8, by omega⟩
    (Nat.mod_lt k (by decide : 0 < 8))
  simpa [Nat.div_add_mod] using hbit

/-- The state of `user_logic`: the software-written registers, its three
instances and the count of missed steps. -/
structure UserLogic where
  reg : Reg → BitVec 32
  accStepGen : AccStepGen
  accProfileGen : AccProfileGen
  motorStepGen : MotorStepGen
  statMissedSteps : BitVec 32

namespace UserLogic

/-- Bits of the command register, in the order of `motion.h`. -/
def start (s : UserLogic) : Bool := (s.reg .cmd).getLsbD 0
def setX (s : UserLogic) : Bool := (s.reg .cmd).getLsbD 1
def setV (s : UserLogic) : Bool := (s.reg .cmd).getLsbD 2
def setA (s : UserLogic) : Bool := (s.reg .cmd).getLsbD 3
def setJ (s : UserLogic) : Bool := (s.reg .cmd).getLsbD 4

def stopped (s : UserLogic) : Bool := s.accStepGen.stopped

/-- `assign load = reg_cmd[0] && (done || stopped)`. -/
def load (reset : Bool) (s : UserLogic) : Bool :=
  s.start && (s.accStepGen.done reset || s.stopped)

/-- The case statement of `SLAVE_REG_WRITE_PROC`. Status words have no branch
there, so writing one changes no register. -/
def writeReg (w : BusWrite) (reg : Reg → BitVec 32) : Reg → BitVec 32 :=
  match w.sel with
  | .reg r => Function.update reg r (writeLanes w.be w.data (reg r))
  | .stat _ => reg

def selectsCmd : Option BusWrite → Bool
  | some w => decide (w.sel = .reg .cmd)
  | none => false

/-- `SLAVE_REG_WRITE_PROC`. The command register clears itself on a load, but
a bus write to it on the same clock wins. -/
def clockReg (reset : Bool) (wr : Option BusWrite) (s : UserLogic) : Reg → BitVec 32 :=
  if reset then fun _ => 0
  else
    let written := match wr with
      | some w => writeReg w s.reg
      | none => s.reg
    if !selectsCmd wr && s.load reset then Function.update written .cmd 0 else written

def stepGenInputs (reset : Bool) (s : UserLogic) : AccStepGen.Inputs where
  reset := reset
  dtVal := s.reg .nextDt
  stepsVal := s.reg .nextSteps
  load := s.load reset

def profileInputs (reset : Bool) (s : UserLogic) : AccProfileGen.Inputs where
  reset := reset
  accStep := s.accStepGen.stepStb reset
  load := s.load reset
  setX := s.setX
  setV := s.setV
  setA := s.setA
  setJ := s.setJ
  xVal := s.reg .nextXh ++ s.reg .nextXl
  vVal := s.reg .nextV
  aVal := s.reg .nextA
  jVal := s.reg .nextJ
  stepBit := (s.reg .stepBit).setWidth 6

def motorInputs (reset : Bool) (s : UserLogic) : MotorStepGen.Inputs where
  reset := reset
  preN := s.reg .preN
  pulseN := s.reg .pulseN
  postN := s.reg .postN
  stepStb := s.accProfileGen.step
  stepDir := s.accProfileGen.dir

def selectsMissed : Option BusWrite → Bool
  | some w => decide (w.sel = .stat .missedSteps)
  | none => false

/-- The counter of missed strobes: any write to it clears it, whatever the
data and the byte enables are. -/
def clockMissed (reset : Bool) (wr : Option BusWrite) (s : UserLogic) : BitVec 32 :=
  if reset then 0
  else if selectsMissed wr then 0
  else if s.motorStepGen.missed then s.statMissedSteps + 1 else s.statMissedSteps

/-- One rising edge of `Bus2IP_Clk`, with at most one write cycle on the bus. -/
def clock (reset : Bool) (wr : Option BusWrite) (s : UserLogic) : UserLogic where
  reg := clockReg reset wr s
  accStepGen := s.accStepGen.clock (s.stepGenInputs reset)
  accProfileGen := s.accProfileGen.clock (s.profileInputs reset)
  motorStepGen := s.motorStepGen.clock (s.motorInputs reset)
  statMissedSteps := clockMissed reset wr s

/-- `SLAVE_REG_READ_PROC`. The end-stop and bounce words are declared but
never driven; they read as their power-up zero. -/
def read (sel : Sel) (s : UserLogic) : BitVec 32 :=
  match sel with
  | .reg r => s.reg r
  | .stat .xl => s.accProfileGen.x.extractLsb' 0 32
  | .stat .xh => s.accProfileGen.x.extractLsb' 32 32
  | .stat .v => s.accProfileGen.v
  | .stat .a => s.accProfileGen.a
  | .stat .j => s.accProfileGen.j
  | .stat .dt => s.accStepGen.dt
  | .stat .steps => s.accStepGen.steps
  | .stat .status => (BitVec.ofBool s.stopped).setWidth 32
  | .stat .missedSteps => s.statMissedSteps
  | .stat _ => 0

/-- The state one clock of `Bus2IP_Reset` leaves behind, from any state. -/
def initial : UserLogic where
  reg := fun _ => 0
  accStepGen := { dtLimit := 0, stepsLimit := 0, steps := 0, dt := 0, stopped := true }
  accProfileGen := { x := 0, v := 0, a := 0, j := 0, step := false, dir := false }
  motorStepGen := { cnt := 0, step := false, dir := false, missed := false }
  statMissedSteps := 0

theorem clock_reset (wr : Option BusWrite) (s : UserLogic) : clock true wr s = initial := by
  simp [clock, initial, clockReg, clockMissed, AccStepGen.clock, AccProfileGen.clock,
    MotorStepGen.clock, stepGenInputs, profileInputs, motorInputs]

/-- A clock without a write keeps the registers, up to the cleared command. -/
theorem reg_clock_none (s : UserLogic) (r : Reg) :
    (clock false none s).reg r = if r = .cmd ∧ s.load false = true then 0 else s.reg r := by
  cases hl : s.load false
  · simp [clock, clockReg, hl]
  · simp [clock, clockReg, selectsCmd, hl, Function.update_apply]

/-- A write changes the register it selects, and a load clears the command
register unless the write selects that one. -/
theorem reg_clock_some (s : UserLogic) (w : BusWrite) (r : Reg) :
    (clock false (some w) s).reg r =
      if w.sel = .reg r then writeLanes w.be w.data (s.reg r)
      else if r = .cmd ∧ s.load false = true then 0 else s.reg r := by
  obtain ⟨q | t, data, be⟩ := w
  · by_cases hq : q = r
    · subst hq
      cases hl : s.load false
      · simp [clock, clockReg, writeReg, hl]
      · by_cases hc : q = .cmd
        · simp [clock, clockReg, selectsCmd, writeReg, hc]
        · simp [clock, clockReg, selectsCmd, writeReg, hl, hc]
    · cases hl : s.load false
      · simp [clock, clockReg, writeReg, hl, hq, Ne.symm hq]
      · by_cases hc : q = .cmd
        · subst hc
          simp [clock, clockReg, selectsCmd, writeReg, hq, Ne.symm hq]
        · simp [clock, clockReg, selectsCmd, writeReg, hl, hc, hq, Ne.symm hq,
            Function.update_apply]
  · cases hl : s.load false
    · simp [clock, clockReg, writeReg, hl]
    · simp [clock, clockReg, selectsCmd, writeReg, hl, Function.update_apply]

/-- A full-word write sets its register and, unless that is the command
register, leaves the self-clearing of the command in place. -/
theorem reg_clock_full (s : UserLogic) (q r : Reg) (d : BitVec 32) :
    (clock false (some (.full (.reg q) d)) s).reg r =
      if r = q then d else if r = .cmd ∧ s.load false = true then 0 else s.reg r := by
  rw [reg_clock_some]
  simp only [BusWrite.full, Sel.reg.injEq, write_lanes_full, eq_comm (a := q)]

theorem reg_clock_stat (s : UserLogic) (t : Stat) (r : Reg) (d : BitVec 32) :
    (clock false (some (.full (.stat t) d)) s).reg r =
      if r = .cmd ∧ s.load false = true then 0 else s.reg r := by
  rw [reg_clock_some]
  simp [BusWrite.full]

theorem step_gen_of_load (s : UserLogic) (wr : Option BusWrite) (hl : s.load false = true) :
    (clock false wr s).accStepGen =
      { dtLimit := s.reg .nextDt, stepsLimit := s.reg .nextSteps, steps := 0, dt := 0,
        stopped := false } := by
  simp [clock, AccStepGen.clock, stepGenInputs, hl]

theorem stopped_of_no_load (s : UserLogic) (wr : Option BusWrite) (hl : s.load false = false) :
    (clock false wr s).stopped = (s.stopped || s.accStepGen.done false) := by
  cases hs : s.accStepGen.stopped <;>
    simp [clock, AccStepGen.clock, stepGenInputs, stopped, AccStepGen.done, hl, hs]

/-- Without a load the profile advances on a strobe and `x` adds `v`. -/
theorem profile_of_no_load (s : UserLogic) (wr : Option BusWrite) (hl : s.load false = false) :
    (clock false wr s).accProfileGen.x = s.accProfileGen.xAcc ∧
    (clock false wr s).accProfileGen.v =
      (if s.accStepGen.stepStb false then s.accProfileGen.v + s.accProfileGen.a
        else s.accProfileGen.v) ∧
    (clock false wr s).accProfileGen.a =
      (if s.accStepGen.stepStb false then s.accProfileGen.a + s.accProfileGen.j
        else s.accProfileGen.a) ∧
    (clock false wr s).accProfileGen.j = s.accProfileGen.j := by
  simp [clock, AccProfileGen.clock, profileInputs, hl]

/-- A load replaces what its flags name and keeps the rest: a strobe on the
same clock is dropped. -/
theorem profile_of_load (s : UserLogic) (wr : Option BusWrite) (hl : s.load false = true) :
    (clock false wr s).accProfileGen.x =
      (if s.setX then s.reg .nextXh ++ s.reg .nextXl else s.accProfileGen.xAcc) ∧
    (clock false wr s).accProfileGen.v = (if s.setV then s.reg .nextV else s.accProfileGen.v) ∧
    (clock false wr s).accProfileGen.a = (if s.setA then s.reg .nextA else s.accProfileGen.a) ∧
    (clock false wr s).accProfileGen.j = (if s.setJ then s.reg .nextJ else s.accProfileGen.j) := by
  simp [clock, AccProfileGen.clock, profileInputs, hl]

end UserLogic

end Vp2Motion.Hdl
