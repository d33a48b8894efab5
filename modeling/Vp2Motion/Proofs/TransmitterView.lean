import Vp2Motion.Hdl.UartliteCore
import Vp2Motion.Proofs.Transmitter

namespace Vp2Motion.Proofs.TransmitterView
open Hdl

variable {n : DataBits} {δ φ : Type} {p : ProcCommon n δ φ} {contents : φ → List (BitVec n.bits)}

def listOf (hc : p.Contract contents) (f : φ) : SrlFifo (BitVec n.bits) :=
  ⟨contents f, hc.fifo.depth f⟩

/-- The transmitter over any components, as the one whose FIFO is a list. -/
def view (hc : p.Contract contents) (s : UartliteTxI n δ φ) : UartliteTx n where
  div16 := p.shreg.stages s.div16
  txDataEnable := s.txDataEnable
  txStart := s.txStart
  txDataBits := s.txDataBits
  muxSel := s.muxSel
  fifoRead := s.fifoRead
  serialData := s.serialData
  tx := s.tx
  txActive := s.txActive
  fifo := listOf hc s.fifo

def viewInputs (p : ProcCommon n δ φ) (i : UartliteTxI.Inputs n) (s : UartliteTxI n δ φ) :
    UartliteTx.Inputs n where
  en16xBaud := i.en16xBaud
  writeTxFifo := i.writeTxFifo
  txData := i.txData
  stale := p.fifo.dataOut s.fifo
  reset := i.reset
  resetTxFifo := i.resetTxFifo

theorem rotate_shift (srl : BitVec 16) : shiftIn (srl.getLsbD 15) srl = srl.rotateLeft 1 := by
  apply BitVec.eq_of_getLsbD_eq
  intro k hk
  rw [shift_in_get _ _ k hk, BitVec.getLsbD_rotateLeft]
  by_cases hzero : k = 0
  · simp [hzero]
  · have hpos : ¬k < 1 := by omega
    simp [hzero, hk, hpos]

theorem fifo_ext {f g : SrlFifo (BitVec n.bits)} (h : f.words = g.words) : f = g := by
  obtain ⟨words, depth⟩ := f
  cases h
  rfl

/-- The output of the FIFO, whatever it shows when it is empty. -/
theorem data_out_head (hc : p.Contract contents) (f : φ) :
    (contents f).headD (p.fifo.dataOut f) = p.fifo.dataOut f := by
  cases hwords : contents f with
  | nil => rfl
  | cons w ws => exact (hc.fifo.data_out f w ws hwords).symm

/-- Both FIFOs keep the contract. -/
theorem list_clock (hc : p.Contract contents) (reset write read : Bool) (x : BitVec n.bits)
    (f : φ) :
    listOf hc (p.fifo.clock reset (write && !p.fifo.fifoFull f) x
        (read && !p.fifo.fifoEmpty f) f) =
      (listOf hc f).clock reset (write && !(contents f).length == 16)
        (read && !(contents f).isEmpty) x := by
  apply fifo_ext
  cases reset with
  | true => exact hc.fifo.reset ..
  | false =>
    have hlist := (listed_contract n).fifo.guarded write read x (listOf hc f)
    have hany := hc.fifo.guarded write read x f
    rw [hc.fifo.full_eq] at hany
    exact (congrArg contents (by rw [hc.fifo.full_eq])).trans (hany.trans hlist.symm)

/-- An edge of the one is an edge of the other. -/
theorem view_clock (hc : p.Contract contents) (i : UartliteTxI.Inputs n)
    (s : UartliteTxI n δ φ) :
    view hc (s.clock p i) = (view hc s).clock (viewInputs p i s) := by
  have hlast : p.shreg.dout 15 s.div16 = (p.shreg.stages s.div16).getLsbD 15 :=
    (p.shreg.stages_get _ (by decide)).symm
  have hdiv : p.shreg.stages (s.clock p i).div16 =
      if i.en16xBaud then (p.shreg.stages s.div16).rotateLeft 1
      else p.shreg.stages s.div16 := by
    rw [← rotate_shift, ← hlast]
    exact hc.shreg.stages_clock ..
  have hempty := hc.fifo.empty_eq s.fifo
  have hmux : s.muxOut p = (view hc s).muxOut (p.fifo.dataOut s.fifo) :=
    congrArg (UartliteTx.mux s.muxSel) (data_out_head hc s.fifo).symm
  have hfifo : listOf hc (s.clock p i).fifo = (listOf hc s.fifo).clock i.resetTxFifo
      (i.writeTxFifo && !(contents s.fifo).length == 16)
      (s.fifoRead && !(contents s.fifo).isEmpty) i.txData := list_clock hc ..
  rw [view, hdiv, hfifo, UartliteTx.clock]
  simp only [UartliteTxI.clock, UartliteTxI.txBufferEmpty, hlast, hempty, hmux]
  rfl

/-- Clearing an empty FIFO only keeps a word out. -/
theorem cleared_empty {d : UartliteTx.Drive n} {t : UartliteTx n} (h : t.fifo.words = []) :
    t.clock ⟨d, false, true⟩ = t.step { d with writeTxFifo := false } := by
  have hfifo : t.fifo = .empty := fifo_ext h
  rw [UartliteTx.step, UartliteTx.clock, UartliteTx.clock, UartliteTx.fifoDataEmpty, h, hfifo]
  simp [SrlFifo.clock]

end Vp2Motion.Proofs.TransmitterView
