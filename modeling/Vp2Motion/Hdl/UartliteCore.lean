import Vp2Motion.Hdl.UartliteRx

namespace Vp2Motion.Hdl

/-- `uartlite_tx` over any components. -/
structure UartliteTxI (n : DataBits) (δ φ : Type) where
  div16 : δ
  txDataEnable : Bool
  txStart : Bool
  txDataBits : Bool
  muxSel : BitVec 3
  fifoRead : Bool
  serialData : Bool
  tx : Bool
  txActive : Bool
  fifo : φ

namespace UartliteTxI
variable {n : DataBits} {δ φ : Type} (p : ProcCommon n δ φ)

structure Inputs (n : DataBits) where
  reset : Bool
  en16xBaud : Bool
  writeTxFifo : Bool
  resetTxFifo : Bool
  txData : BitVec n.bits

def muxSelIsZero (s : UartliteTxI n δ φ) : Bool := s.muxSel == 0

/-- Without parity `tx_Run` is `tx_DataBits`. -/
def txRun (s : UartliteTxI n δ φ) : Bool := s.txDataBits

def txBufferEmpty (s : UartliteTxI n δ φ) : Bool := p.fifo.fifoEmpty s.fifo
def txBufferFull (s : UartliteTxI n δ φ) : Bool := p.fifo.fifoFull s.fifo

def muxOut (s : UartliteTxI n δ φ) : Bool := UartliteTx.mux s.muxSel (p.fifo.dataOut s.fifo)

/-- One rising edge. -/
def clock (i : Inputs n) (s : UartliteTxI n δ φ) : UartliteTxI n δ φ where
  div16 := p.shreg.clock i.en16xBaud (p.shreg.dout 15 s.div16) s.div16
  txDataEnable :=
    if s.txDataEnable then false
    else if i.en16xBaud then p.shreg.dout 15 s.div16 else s.txDataEnable
  txStart :=
    if i.reset then false
    else !s.txRun && (s.txStart || (!s.txBufferEmpty p && s.txDataEnable))
  txDataBits :=
    if i.reset then false
    else !s.fifoRead && (s.txDataBits || (s.txStart && s.txDataEnable))
  muxSel :=
    if i.reset then UartliteTx.muxSelInit n
    else if s.txDataEnable then
      if s.muxSelIsZero then UartliteTx.muxSelInit n
      else if s.txDataBits then s.muxSel - 1 else s.muxSel
    else s.muxSel
  fifoRead := if i.reset then false else s.txDataEnable && s.muxSelIsZero
  serialData := if i.reset then false else s.muxOut p
  tx := if i.reset then true else (!s.txRun || s.serialData) && !s.txStart
  txActive := if i.reset then false else s.txRun || s.txStart
  fifo := p.fifo.clock i.resetTxFifo (i.writeTxFifo && !s.txBufferFull p) i.txData
    (s.fifoRead && !s.txBufferEmpty p) s.fifo

end UartliteTxI

/-- The constant `RATIO`. -/
def baudRatio (splbClkFreqHz baudrate : ℕ) : ℕ := splbClkFreqHz / (16 * baudrate)

/-- The registers. `overrunError` and `frameError` are bits 2 and 1 of `status_Reg`. -/
structure UartliteCore (n : DataBits) (δ φ : Type) where
  baud : Baudrate
  rx : UartliteRx n δ φ
  tx : UartliteTxI n δ φ
  clrStatus : Bool
  overrunError : Bool
  frameError : Bool
  enableInterrupts : Bool
  resetRxFifo : Bool
  resetTxFifo : Bool
  txBufferEmptyPre : Bool
  interrupt : Bool

namespace UartliteCore
variable {n : DataBits} {δ φ : Type} (p : ProcCommon n δ φ)

/-- Bit 0 of the vectors is their leftmost one. -/
structure Inputs where
  reset : Bool
  bus2ipData : BitVec 8
  bus2ipRdce : BitVec 4
  bus2ipWrce : BitVec 4
  rx : Bool

namespace Inputs

def readsData (i : Inputs) : Bool := i.bus2ipRdce.getMsbD 0
def writesData (i : Inputs) : Bool := i.bus2ipWrce.getMsbD 1
def readsStatus (i : Inputs) : Bool := i.bus2ipRdce.getMsbD 2
def writesControl (i : Inputs) : Bool := i.bus2ipWrce.getMsbD 3

end Inputs

/-- What `uartlite_rx` and `uartlite_tx` are driven with. -/
def rxDrive (i : Inputs) (s : UartliteCore n δ φ) : UartliteRx.Drive where
  en16xBaud := s.baud.en16xBaud
  rx := i.rx
  readRxFifo := i.readsData
  resetRxFifo := s.resetRxFifo

def txInputs (i : Inputs) (s : UartliteCore n δ φ) : UartliteTxI.Inputs n where
  reset := i.reset
  en16xBaud := s.baud.en16xBaud
  writeTxFifo := i.writesData
  resetTxFifo := s.resetTxFifo
  txData := i.bus2ipData.setWidth n.bits

/-- `status_Reg`; its bit 0 would be the parity error. -/
def statusReg (s : UartliteCore n δ φ) : BitVec 8 :=
  BitVec.ofBoolListLE [!s.rx.rxDataEmpty p, s.rx.rxBufferFull p, s.tx.txBufferEmpty p,
    s.tx.txBufferFull p, s.enableInterrupts, s.overrunError, s.frameError, false]

/-- `SIn_DBus`. -/
def sInDBus (i : Inputs) (s : UartliteCore n δ φ) : BitVec 8 :=
  if i.readsStatus then s.statusReg p else (s.rx.rxData p).setWidth 8

def ip2busRdack (i : Inputs) : Bool := i.bus2ipRdce != 0
def ip2busWrack (i : Inputs) : Bool := i.bus2ipWrce != 0

def ip2busError (i : Inputs) (s : UartliteCore n δ φ) : Bool :=
  i.readsData && s.rx.rxDataEmpty p || i.writesData && s.tx.txBufferFull p

/-- One rising edge. -/
def clock (ratio : ℕ) (i : Inputs) (s : UartliteCore n δ φ) : UartliteCore n δ φ where
  baud := s.baud.clock ratio
  rx := s.rx.clock p ⟨s.rxDrive i, i.reset⟩
  tx := s.tx.clock p (s.txInputs i)
  clrStatus := if i.reset then false else i.readsStatus
  overrunError :=
    if s.clrStatus then false
    else if s.rx.rxOverrunError p then true else s.overrunError
  frameError :=
    if s.clrStatus then false
    else if s.rx.rxFrameError p (s.rxDrive i) then true else s.frameError
  enableInterrupts :=
    if i.reset then false
    else if i.writesControl then i.bus2ipData.getMsbD 3 else s.enableInterrupts
  resetRxFifo :=
    if i.reset then true else if i.writesControl then i.bus2ipData.getMsbD 6 else false
  resetTxFifo :=
    if i.reset then true else if i.writesControl then i.bus2ipData.getMsbD 7 else false
  txBufferEmptyPre := if i.writesData then false else s.tx.txBufferEmpty p
  interrupt :=
    if i.reset then false
    else s.enableInterrupts &&
      (!s.rx.rxDataEmpty p || (s.tx.txBufferEmpty p && !s.txBufferEmptyPre))

end UartliteCore

end Vp2Motion.Hdl
