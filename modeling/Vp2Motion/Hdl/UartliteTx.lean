import Mathlib.Data.BitVec

namespace Vp2Motion.Hdl

/-- The generic `C_DATA_BITS`. -/
structure DataBits where
  bits : ℕ
  low : 5 ≤ bits
  high : bits ≤ 8

/-- `srl_fifo_f` with 16 places; the oldest word is at the output. -/
structure SrlFifo (α : Type) where
  words : List α
  depth : words.length ≤ 16

namespace SrlFifo
variable {α : Type}

def empty : SrlFifo α := ⟨[], Nat.zero_le 16⟩

def pop (f : SrlFifo α) : SrlFifo α :=
  ⟨f.words.tail, (List.length_tail ▸ Nat.sub_le ..).trans f.depth⟩

def push (x : α) (f : SrlFifo α) : SrlFifo α :=
  if h : f.words.length < 16 then ⟨f.words ++ [x], List.length_append.trans_le h⟩ else f

theorem push_words {f : SrlFifo α} (h : f.words.length < 16) (x : α) :
    (f.push x).words = f.words ++ [x] := by
  rw [push, dif_pos h]

def clock (reset write read : Bool) (dataIn : α) (f : SrlFifo α) : SrlFifo α :=
  if reset then empty
  else
    let f := if read then f.pop else f
    if write then f.push dataIn else f

end SrlFifo

/-- The registers of `uartlite_tx` with `C_USE_PARITY = 0`. `dynshreg_i_f` is `div16`, with
stage `k` in bit `k`. -/
structure UartliteTx (n : DataBits) where
  div16 : BitVec 16
  txDataEnable : Bool
  txStart : Bool
  txDataBits : Bool
  muxSel : BitVec 3
  fifoRead : Bool
  serialData : Bool
  tx : Bool
  txActive : Bool
  fifo : SrlFifo (BitVec n.bits)

namespace UartliteTx
variable {n : DataBits}

/-- The inputs of a clock without a reset. `stale` is what the FIFO shows at its
output while it is empty. -/
structure Drive (n : DataBits) where
  en16xBaud : Bool
  writeTxFifo : Bool
  txData : BitVec n.bits
  stale : BitVec n.bits

structure Inputs (n : DataBits) extends Drive n where
  reset : Bool
  resetTxFifo : Bool

def muxSelInit (n : DataBits) : BitVec 3 := BitVec.ofNat 3 (n.bits - 1)

def muxSelIsZero (s : UartliteTx n) : Bool := s.muxSel == 0

/-- Without parity `tx_Run` is `tx_DataBits`. -/
def txRun (s : UartliteTx n) : Bool := s.txDataBits

def fifoDataEmpty (s : UartliteTx n) : Bool := s.fifo.words.isEmpty
def fifoDataPresent (s : UartliteTx n) : Bool := !s.fifoDataEmpty
def txBufferFull (s : UartliteTx n) : Bool := s.fifo.words.length == 16

/-- The multiplexer over `data_to_transfer`. Bit 0 of the vectors of the source is
their leftmost one. -/
def mux (muxSel : BitVec 3) (dataToTransfer : BitVec n.bits) : Bool :=
  let data := fun k => dataToTransfer.getMsbD k
  let sel := fun k => muxSel.getMsbD k
  let mux01 := if sel 2 then data 1 else data 0
  let mux23 := if sel 2 then data 3 else data 2
  let mux45 := if n.bits = 5 then data 4 else if sel 2 then data 5 else data 4
  let mux67 :=
    if n.bits = 5 ∨ n.bits = 6 then false
    else if n.bits = 7 then data 6
    else if sel 2 then data 7 else data 6
  let mux0123 := if sel 1 then mux23 else mux01
  let mux4567 := if sel 1 then mux67 else mux45
  if sel 0 then mux4567 else mux0123

def muxOut (stale : BitVec n.bits) (s : UartliteTx n) : Bool :=
  mux s.muxSel (s.fifo.words.headD stale)

/-- One rising edge. -/
def clock (i : Inputs n) (s : UartliteTx n) : UartliteTx n where
  div16 := if i.en16xBaud then s.div16.rotateLeft 1 else s.div16
  txDataEnable :=
    if s.txDataEnable then false
    else if i.en16xBaud then s.div16.getLsbD 15 else s.txDataEnable
  txStart :=
    if i.reset then false
    else !s.txRun && (s.txStart || (s.fifoDataPresent && s.txDataEnable))
  txDataBits :=
    if i.reset then false
    else !s.fifoRead && (s.txDataBits || (s.txStart && s.txDataEnable))
  muxSel :=
    if i.reset then muxSelInit n
    else if s.txDataEnable then
      if s.muxSelIsZero then muxSelInit n
      else if s.txDataBits then s.muxSel - 1 else s.muxSel
    else s.muxSel
  fifoRead := if i.reset then false else s.txDataEnable && s.muxSelIsZero
  serialData := if i.reset then false else s.muxOut i.stale
  tx := if i.reset then true else (!s.txRun || s.serialData) && !s.txStart
  txActive := if i.reset then false else s.txRun || s.txStart
  fifo := s.fifo.clock i.resetTxFifo (i.writeTxFifo && !s.txBufferFull)
    (s.fifoRead && !s.fifoDataEmpty) i.txData

/-- An edge without a reset. -/
def step (d : Drive n) (s : UartliteTx n) : UartliteTx n :=
  s.clock ⟨d, false, false⟩

end UartliteTx

end Vp2Motion.Hdl
