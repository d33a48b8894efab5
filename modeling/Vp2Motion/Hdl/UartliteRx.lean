import Vp2Motion.Hdl.ProcCommon

namespace Vp2Motion.Hdl

/-- The registers of `uartlite_rx` with `C_USE_PARITY = 0`. `fifo_Din(1)` is the most
significant bit of `fifoDin`. -/
structure UartliteRx (n : DataBits) (δ φ : Type) where
  rx1 : Bool
  rx2 : Bool
  previousRx : Bool
  startEdgeDetected : Bool
  running : Bool
  midStartSrl : δ
  delaySrl : δ
  stopBitPosition : Bool
  fifoDin : BitVec n.bits
  fifoWrite : Bool
  fifo : φ

namespace UartliteRx
variable {n : DataBits} {δ φ : Type} (p : ProcCommon n δ φ)

/-- The inputs of a clock without a reset. -/
structure Drive where
  en16xBaud : Bool
  rx : Bool
  readRxFifo : Bool
  resetRxFifo : Bool

structure Inputs extends Drive where
  reset : Bool

def midStartBit (s : UartliteRx n δ φ) : Bool := p.shreg.dout 6 s.midStartSrl
def samplePoint (s : UartliteRx n δ φ) : Bool := p.shreg.dout 15 s.delaySrl

def recycle (s : UartliteRx n δ φ) : Bool :=
  !s.stopBitPosition && (s.midStartBit p || s.samplePoint p)

/-- The marker that `mid_Start_Bit` puts in. -/
def startMark (n : DataBits) : BitVec n.bits := BitVec.twoPow n.bits (n.bits - 1)

def serialToPar (s : UartliteRx n δ φ) : BitVec n.bits :=
  if s.stopBitPosition || !s.samplePoint p then s.fifoDin
  else s.fifoDin >>> 1 ||| (if s.rx2 then startMark n else 0)

def rxData (s : UartliteRx n δ φ) : BitVec n.bits := p.fifo.dataOut s.fifo
def rxDataEmpty (s : UartliteRx n δ φ) : Bool := p.fifo.fifoEmpty s.fifo
def rxBufferFull (s : UartliteRx n δ φ) : Bool := p.fifo.fifoFull s.fifo

def rxFrameError (d : Drive) (s : UartliteRx n δ φ) : Bool :=
  s.stopBitPosition && s.samplePoint p && d.en16xBaud && !s.rx2

def rxOverrunError (s : UartliteRx n δ φ) : Bool := s.rxBufferFull p && s.fifoWrite

/-- One rising edge. -/
def clock (i : Inputs) (s : UartliteRx n δ φ) : UartliteRx n δ φ where
  rx1 := if i.reset then true else i.rx
  rx2 := if i.reset then true else s.rx1
  previousRx := if i.reset then false else if i.en16xBaud then s.rx2 else s.previousRx
  startEdgeDetected :=
    if i.reset then false
    else if i.en16xBaud then !s.running && (s.previousRx && !s.rx2)
    else s.startEdgeDetected
  running :=
    if i.reset then false
    else if i.en16xBaud then
      if s.startEdgeDetected then true
      else if s.samplePoint p && s.stopBitPosition then false else s.running
    else s.running
  midStartSrl := p.shreg.clock i.en16xBaud s.startEdgeDetected s.midStartSrl
  delaySrl := p.shreg.clock i.en16xBaud (s.recycle p) s.delaySrl
  stopBitPosition :=
    if i.reset then false
    else if i.en16xBaud then
      if !s.stopBitPosition then s.samplePoint p && s.fifoDin.getLsbD 0
      else if s.samplePoint p then false else s.stopBitPosition
    else s.stopBitPosition
  fifoDin :=
    if s.midStartBit p then startMark n
    else if i.en16xBaud then s.serialToPar p else s.fifoDin
  fifoWrite :=
    if i.reset then false else s.stopBitPosition && s.rx2 && s.samplePoint p && i.en16xBaud
  fifo := p.fifo.clock i.resetRxFifo (s.fifoWrite && !s.rxBufferFull p) s.fifoDin
    (i.readRxFifo && !s.rxDataEmpty p) s.fifo

/-- An edge without a reset. -/
def step (d : Drive) (s : UartliteRx n δ φ) : UartliteRx n δ φ := s.clock p ⟨d, false⟩

end UartliteRx

/-- `baudrate`: `Count` and the registered `EN_16x_Baud`. -/
structure Baudrate where
  count : ℕ
  en16xBaud : Bool

namespace Baudrate

def clock (ratio : ℕ) (s : Baudrate) : Baudrate :=
  if s.count = 0 then ⟨ratio - 1, true⟩ else ⟨s.count - 1, false⟩

end Baudrate

end Vp2Motion.Hdl
