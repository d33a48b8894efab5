import Vp2Motion.Proofs.Receiver
import Vp2Motion.Proofs.TransmitterView

namespace Vp2Motion.Proofs.SerialCore
open Hdl Hdl.UartliteCore Clocked Receiver TransmitterView

variable {n : DataBits} {δ φ : Type} {p : ProcCommon n δ φ} {ratio : ℕ}
  {s : UartliteCore n δ φ}

/-- The divider once it has been through zero. -/
structure Steady (ratio : ℕ) (b : Baudrate) : Prop where
  below : b.count < ratio
  enabled : b.en16xBaud = decide (b.count + 1 = ratio)

/-- One clock is enough. -/
theorem steady_clock {b : Baudrate} (h : b.count < ratio) : Steady ratio (b.clock ratio) := by
  unfold Baudrate.clock
  split
  · exact ⟨by simp; omega, by simp; omega⟩
  · exact ⟨by simp; omega, by simp; omega⟩

/-- The clock of the first tick. -/
def firstTick (ratio : ℕ) (b : Baudrate) : ℕ := (b.count + 1) % ratio

theorem first_tick_lt {b : Baudrate} (h : Steady ratio b) : firstTick ratio b < ratio :=
  Nat.mod_lt _ (Nat.zero_lt_of_lt h.below)

theorem steady_at {r : Run (clock p ratio)} (h : Steady ratio (r.state 0).baud) (c : ℕ) :
    Steady ratio (r.state c).baud ∧
      ((r.state c).baud.count + c) % ratio = (r.state 0).baud.count := by
  induction c with
  | zero => exact ⟨h, Nat.mod_eq_of_lt h.below⟩
  | succ c ih =>
    obtain ⟨hsteady, hcount⟩ := ih
    have hnext : (r.state (c + 1)).baud = (r.state c).baud.clock ratio := by
      rw [r.next]
      rfl
    rw [hnext]
    have hbelow := hsteady.below
    refine ⟨steady_clock hbelow, ?_⟩
    rw [← hcount, Baudrate.clock]
    split
    · rename_i hzero
      rw [hzero, Nat.zero_add, show ratio - 1 + (c + 1) = c + ratio by omega, Nat.add_mod_right]
    · congr 1
      change (r.state c).baud.count - 1 + (c + 1) = _
      omega

/-- `EN_16x_Baud` comes every `ratio` clocks. -/
theorem enabled_iff {r : Run (clock p ratio)} (h : Steady ratio (r.state 0).baud)
    (c : ℕ) : (r.state c).baud.en16xBaud = true ↔
      c % ratio = firstTick ratio (r.state 0).baud := by
  obtain ⟨hsteady, hcount⟩ := steady_at h c
  have hbelow := hsteady.below
  rw [hsteady.enabled, decide_eq_true_iff, firstTick, ← hcount, Nat.mod_add_mod]
  constructor
  · intro hlast
    rw [show (r.state c).baud.count + c + 1 = c + ratio by omega, Nat.add_mod_right]
  · intro hmod
    have hdvd : ratio ∣ (r.state c).baud.count + c + 1 - c :=
      (Nat.modEq_iff_dvd' (by omega)).mp hmod
    have hle := Nat.le_of_dvd (by omega) hdvd
    omega

section Ticks
variable {e : ℕ}

theorem tick_mod (he : e < ratio) (t : ℕ) : (e + t * ratio) % ratio = e := by
  rw [Nat.add_mul_mod_self_right, Nat.mod_eq_of_lt he]

theorem tick_eq (he : e < ratio) (hc : c % ratio = e) (hlow : c ≤ e + t * ratio)
    (hhigh : e + t * ratio < c + ratio) : e + t * ratio = c := by
  have hdvd : ratio ∣ e + t * ratio - c :=
    (Nat.modEq_iff_dvd' hlow).mp (hc.trans (tick_mod he t).symm)
  have hsame := Nat.eq_zero_of_dvd_of_lt hdvd (by omega)
  omega

/-- The next tick is less than `ratio` clocks away. -/
theorem next_tick (he : e < ratio) (c : ℕ) :
    c ≤ e + Nat.count (fun k => k % ratio = e) c * ratio ∧
      e + Nat.count (fun k => k % ratio = e) c * ratio < c + ratio := by
  induction c with
  | zero => exact ⟨Nat.zero_le _, by rw [Nat.count_zero]; omega⟩
  | succ c ih =>
    obtain ⟨hlow, hhigh⟩ := ih
    rw [Nat.count_succ]
    generalize Nat.count (fun k => k % ratio = e) c = t at hlow hhigh
    split
    · rename_i htick
      have hsame := tick_eq he htick hlow hhigh
      rw [Nat.succ_mul]
      omega
    · rename_i htick
      have hne : c ≠ e + t * ratio := fun hsame => htick (hsame ▸ tick_mod he t)
      change c + 1 ≤ e + t * ratio ∧ e + t * ratio < c + 1 + ratio
      omega

theorem tick_at (he : e < ratio) (hc : c % ratio = e) :
    e + Nat.count (fun k => k % ratio = e) c * ratio = c :=
  tick_eq he hc (next_tick he c).1 (next_tick he c).2

end Ticks

/-- The registers that no reset sets: the counter is within its range, and a single 1 goes
round in the divider by 16, as its initial value has it. -/
structure Prepared (p : ProcCommon n δ φ) (ratio : ℕ) (s : UartliteCore n δ φ) : Prop where
  below : s.baud.count < ratio
  single : ∃ k < 16, p.shreg.stages s.tx.div16 = BitVec.twoPow 16 k

theorem Prepared.clock (hp : p.shreg.Contract) (h : Prepared p ratio s) (i : Inputs) :
    Prepared p ratio (s.clock p ratio i) := by
  obtain ⟨k, hk, hone⟩ := h.single
  refine ⟨(steady_clock h.below).below, ?_⟩
  have hlast : p.shreg.dout 15 s.tx.div16 = (p.shreg.stages s.tx.div16).getLsbD 15 :=
    (p.shreg.stages_get _ (by decide)).symm
  have hdiv : p.shreg.stages (s.clock p ratio i).tx.div16 =
      if s.baud.en16xBaud then (p.shreg.stages s.tx.div16).rotateLeft 1
      else p.shreg.stages s.tx.div16 := by
    rw [← rotate_shift, ← hlast]
    exact hp.stages_clock ..
  rw [hdiv, hone, Transmitter.rotate_two_pow hk]
  split
  · exact ⟨(k + 1) % 16, Nat.mod_lt _ (by decide), rfl⟩
  · exact ⟨k, hk, rfl⟩

/-- The run begins when a reset of two clocks or more is over; `s` is the state two clocks
before. From then on the host has no FIFO cleared, and accesses one register at a time. -/
structure Started (p : ProcCommon n δ φ) (ratio : ℕ) (s : UartliteCore n δ φ)
    (r : Run (clock p ratio)) : Prop where
  prepared : Prepared p ratio s
  reset : ∃ i i' : Inputs, i.reset = true ∧ i'.reset = true ∧
    r.state 0 = (s.clock p ratio i).clock p ratio i'
  released : ∀ c, (r.input c).reset = false
  spared : ∀ c, (r.input c).writesControl = true →
    (r.input c).bus2ipData.getMsbD 6 = false ∧ (r.input c).bus2ipData.getMsbD 7 = false
  single : ∀ c, (r.input c).readsData = true →
    (r.input c).readsStatus = false ∧ (r.input c).writesData = false

theorem quiet_reset (hp : p.shreg.Contract) {rx : UartliteRx n δ φ} (h : Quiet p before rx)
    {i : UartliteRx.Inputs} (hreset : i.reset = true) : Quiet p false (rx.clock p i) := by
  have hrecycle : rx.recycle p = false := by
    rw [UartliteRx.recycle, h.mid_start, h.sample_point, Bool.or_self, Bool.and_false]
  have hmid : p.shreg.stages (rx.clock p i).midStartSrl =
      if i.en16xBaud then shiftIn rx.startEdgeDetected (p.shreg.stages rx.midStartSrl)
      else p.shreg.stages rx.midStartSrl := hp.stages_clock ..
  have hdelay : p.shreg.stages (rx.clock p i).delaySrl =
      if i.en16xBaud then shiftIn (rx.recycle p) (p.shreg.stages rx.delaySrl)
      else p.shreg.stages rx.delaySrl := hp.stages_clock ..
  rw [h.startEdge, h.midStart, shift_zero, ite_self] at hmid
  rw [hrecycle, h.delay, shift_zero, ite_self] at hdelay
  exact ⟨if_pos hreset, if_pos hreset, if_pos hreset, hmid, hdelay, if_pos hreset⟩

namespace Started
variable {r : Run (clock p ratio)} {contents : φ → List (BitVec n.bits)}

theorem steady (h : Started p ratio s r) : Steady ratio (r.state 0).baud := by
  obtain ⟨i, i', -, -, hstart⟩ := h.reset
  rw [hstart]
  exact steady_clock (steady_clock h.prepared.below).below

/-- The transmitter is at rest, and its FIFO is empty. -/
theorem tx_released (hc : p.Contract contents) (h : Started p ratio s r) :
    ∃ v, view hc (r.state 0).tx = Transmitter.released v := by
  obtain ⟨i, i', hreset, hreset', hstart⟩ := h.reset
  obtain ⟨k, hk, hone⟩ := (h.prepared.clock hc.shreg i).single
  have htx : (r.state 0).tx = (s.clock p ratio i).tx.clock p ((s.clock p ratio i).txInputs i') :=
    congrArg UartliteCore.tx hstart
  have hfifo : (s.clock p ratio i).resetTxFifo = true := if_pos hreset
  obtain ⟨d, hd⟩ : ∃ d, viewInputs p ((s.clock p ratio i).txInputs i') (s.clock p ratio i).tx =
      ⟨d, true, true⟩ := ⟨_, by rw [viewInputs, txInputs, hreset', hfifo]⟩
  rw [htx, view_clock, hd]
  exact Transmitter.reset_releases _ hone hk

/-- So is the receiver, if the reset came between two frames. -/
theorem rx_quiet (hc : p.Contract contents) (h : Started p ratio s r)
    (hquiet : Quiet p before s.rx) : Quiet p false (r.state 0).rx := by
  obtain ⟨i, i', hreset, hreset', hstart⟩ := h.reset
  rw [hstart]
  exact quiet_reset hc.shreg (quiet_reset hc.shreg hquiet hreset) hreset'

theorem rx_high (h : Started p ratio s r) :
    (r.state 0).rx.rx1 = true ∧ (r.state 0).rx.rx2 = true := by
  obtain ⟨i, i', -, hreset', hstart⟩ := h.reset
  rw [hstart]
  exact ⟨if_pos hreset', if_pos hreset'⟩

theorem rx_empty (hc : p.Contract contents) (h : Started p ratio s r) :
    contents (r.state 0).rx.fifo = [] ∧ (r.state 0).rx.fifoWrite = false := by
  obtain ⟨i, i', hreset, hreset', hstart⟩ := h.reset
  have hfifo : (s.clock p ratio i).resetRxFifo = true := if_pos hreset
  rw [hstart]
  refine ⟨?_, if_pos hreset'⟩
  change contents (p.fifo.clock (s.clock p ratio i).resetRxFifo _ _ _ _) = []
  rw [hfifo, hc.fifo.reset]

/-- Both FIFOs are still cleared on the first clock, and never after. -/
theorem fifo_resets (h : Started p ratio s r) (hc : 0 < c) :
    (r.state c).resetRxFifo = false ∧ (r.state c).resetTxFifo = false := by
  obtain ⟨c, rfl⟩ : ∃ m, c = m + 1 := ⟨c - 1, by omega⟩
  have hspared := h.spared c
  rw [r.next]
  simp only [clock, h.released c, Bool.false_eq_true, ↓reduceIte]
  split
  · rename_i hwrites
    exact hspared hwrites
  · exact ⟨rfl, rfl⟩

def rxRun (h : Started p ratio s r) : Run (UartliteRx.step p) where
  state c := (r.state c).rx
  input c := (r.state c).rxDrive (r.input c)
  next c := by
    rw [r.next, clock, h.released c]
    rfl

theorem rx_spared (hc : p.Contract contents) (h : Started p ratio s r) (c : ℕ) :
    Spared contents (h.rxRun.input c) (h.rxRun.state c) := by
  intro hreset
  cases c with
  | zero => exact h.rx_empty hc
  | succ c =>
    have hoff : (h.rxRun.input (c + 1)).resetRxFifo = false :=
      (h.fifo_resets (Nat.succ_pos c)).1
    rw [hoff] at hreset
    cases hreset

end Started

/-- A word that is written while the FIFO is cleared is not taken. -/
def txDrive (p : ProcCommon n δ φ) (i : Inputs) (s : UartliteCore n δ φ) :
    UartliteTx.Drive n where
  en16xBaud := s.baud.en16xBaud
  writeTxFifo := i.writesData && !s.resetTxFifo
  txData := i.bus2ipData.setWidth n.bits
  stale := p.fifo.dataOut s.tx.fifo

namespace Started
variable {r : Run (clock p ratio)} {contents : φ → List (BitVec n.bits)}

theorem tx_next (hc : p.Contract contents) (h : Started p ratio s r) (c : ℕ) :
    view hc (r.state (c + 1)).tx =
      (view hc (r.state c).tx).step (txDrive p (r.input c) (r.state c)) := by
  have hnext : (r.state (c + 1)).tx =
      (r.state c).tx.clock p ((r.state c).txInputs (r.input c)) :=
    congrArg UartliteCore.tx (r.next c)
  rw [hnext, view_clock, viewInputs, txInputs, h.released c, txDrive]
  cases hreset : (r.state c).resetTxFifo with
  | false =>
    rw [Bool.not_false, Bool.and_true]
    rfl
  | true =>
    have hfirst : c = 0 := by
      by_contra hlater
      have hoff := (h.fifo_resets (Nat.pos_of_ne_zero hlater)).2
      rw [hreset] at hoff
      cases hoff
    obtain ⟨v, hv⟩ := h.tx_released hc
    have hnil : (view hc (r.state c).tx).fifo.words = [] := by
      rw [hfirst, hv]
      rfl
    rw [Bool.not_true, Bool.and_false, cleared_empty hnil]

def txRun (hc : p.Contract contents) (h : Started p ratio s r) :
    Run (UartliteTx.step (n := n)) where
  state c := view hc (r.state c).tx
  input c := txDrive p (r.input c) (r.state c)
  next c := h.tx_next hc c

end Started

/-- The byte that the host reads on a clock, when the port acknowledges it without an error. -/
def byteRead (p : ProcCommon n δ φ) (i : Inputs) (s : UartliteCore n δ φ) : List (BitVec 8) :=
  if i.readsData && ip2busRdack i && !s.ip2busError p i then [s.sInDBus p i] else []

/-- The word that it writes. -/
def wordWritten (p : ProcCommon n δ φ) (i : Inputs) (s : UartliteCore n δ φ) :
    List (BitVec n.bits) :=
  if i.writesData && ip2busWrack i && !s.ip2busError p i && !s.resetTxFifo then
    [i.bus2ipData.setWidth n.bits]
  else []

section Host
variable {r : Run (clock p ratio)} {contents : φ → List (BitVec n.bits)}

/-- What the host has read before clock `c`. -/
def bytesRead (r : Run (clock p ratio)) : ℕ → List (BitVec 8)
  | 0 => []
  | c + 1 => bytesRead r c ++ byteRead p (r.input c) (r.state c)

/-- What it has written; what the port refuses, or clears at once after a reset, does not
count. -/
def wordsWritten (r : Run (clock p ratio)) : ℕ → List (BitVec n.bits)
  | 0 => []
  | c + 1 => wordsWritten r c ++ wordWritten p (r.input c) (r.state c)

/-- A word on the bus. -/
def busByte (w : BitVec n.bits) : BitVec 8 := w.setWidth 8

/-- Every access to a register is acknowledged. -/
theorem acknowledged {ce : BitVec 4} (h : ce.getMsbD k = true) : (ce != 0) = true := by
  rw [bne_iff_ne]
  rintro rfl
  simp at h

theorem byte_read_eq {i : Inputs}
    (hsingle : i.readsData = true → i.readsStatus = false ∧ i.writesData = false) :
    byteRead p i s = (readNow p (s.rxDrive i) s.rx).map busByte := by
  rw [byteRead, readNow, rxDrive]
  cases hread : i.readsData with
  | false => rfl
  | true =>
    obtain ⟨hstatus, hwrite⟩ := hsingle hread
    have hack : ip2busRdack i = true := acknowledged hread
    rw [hack, ip2busError, hread, hwrite, sInDBus, hstatus]
    cases s.rx.rxDataEmpty p <;> rfl

theorem bytes_read_eq (h : Started p ratio s r) (c : ℕ) :
    bytesRead r c = (readOut h.rxRun c).map busByte := by
  induction c with
  | zero => rfl
  | succ c ih =>
    rw [bytesRead, readOut, List.map_append, ih, byte_read_eq (h.single c)]
    rfl

/-- With the words that wait in the FIFO, it is what the receiver has kept. -/
theorem bytes_kept (hc : p.Contract contents) (h : Started p ratio s r) (c : ℕ) :
    bytesRead r c ++ (contents (r.state c).rx.fifo).map busByte =
      (kept h.rxRun c).map busByte := by
  have hkept := kept_eq hc.fifo fun k (_ : k < c) => h.rx_spared hc k
  have hempty : contents (h.rxRun.state 0).fifo = [] := (h.rx_empty hc).1
  rw [hempty, List.nil_append] at hkept
  rw [bytes_read_eq h, ← List.map_append, ← hkept]
  rfl

theorem bytes_unread (hsilent : ∀ k < c, (r.input k).readsData = false) : bytesRead r c = [] := by
  induction c with
  | zero => rfl
  | succ c ih =>
    rw [bytesRead, ih fun k hk => hsilent k (Nat.lt_succ_of_lt hk), byteRead,
      hsilent c (Nat.lt_succ_self c)]
    rfl

/-- A byte that has waited for the host is there when it reads. -/
theorem read_waiting (hc : p.Contract contents) (h : Started p ratio s r)
    (hsilent : ∀ k < c, (r.input k).readsData = false) (hread : (r.input c).readsData = true)
    (hbyte : bytesRead r c ++ (contents (r.state c).rx.fifo).map busByte = [b]) :
    bytesRead r (c + 1) = [b] := by
  rw [bytes_unread hsilent, List.nil_append] at hbyte
  rw [bytesRead, bytes_unread hsilent, List.nil_append, byte_read_eq (h.single c), ← hbyte]
  have hfirst := read_first hc.fifo ((r.state c).rxDrive (r.input c)) (r.state c).rx
  have hnow : ((r.state c).rxDrive (r.input c)).readRxFifo = true := hread
  rw [hnow, if_pos rfl] at hfirst
  have hlength := congrArg List.length hbyte
  rw [List.length_map, List.length_singleton] at hlength
  have htail : (contents (r.state c).rx.fifo).tail = [] := by
    apply List.eq_nil_of_length_eq_zero
    rw [List.length_tail, hlength]
  rw [htail, List.append_nil] at hfirst
  rw [hfirst]

theorem status_frame_error (p : ProcCommon n δ φ) (s : UartliteCore n δ φ) :
    (s.statusReg p).getMsbD 1 = s.frameError := by
  rw [BitVec.getMsbD, decide_eq_true (by decide), Bool.true_and]
  exact BitVec.getLsbD_ofBoolListLE

/-- As long as the receiver finds no frame error, the bit in the status register stays as it was
or is cleared. -/
theorem frame_error_stays
    (hnone : ∀ k < c, (r.state k).rx.rxFrameError p ((r.state k).rxDrive (r.input k)) = false)
    (hc : ((r.state c).statusReg p).getMsbD 1 = true) :
    ((r.state 0).statusReg p).getMsbD 1 = true := by
  rw [status_frame_error] at hc ⊢
  induction c with
  | zero => exact hc
  | succ c ih =>
    refine ih (fun k hk => hnone k (Nat.lt_succ_of_lt hk)) ?_
    rw [r.next, clock, hnone c (Nat.lt_succ_self c)] at hc
    cases hclear : (r.state c).clrStatus with
    | false => simpa [hclear] using hc
    | true => simp [hclear] at hc

end Host

/-- The initial values, with a tick on every clock. -/
def initialPort (n : DataBits) : UartliteCore n (BitVec 16) (SrlFifo (BitVec n.bits)) where
  baud := ⟨0, false⟩
  rx := restingRx n
  tx :=
    { div16 := 0x8000
      txDataEnable := false
      txStart := false
      txDataBits := false
      muxSel := 0
      fifoRead := false
      serialData := false
      tx := false
      txActive := false
      fifo := .empty }
  clrStatus := false
  overrunError := false
  frameError := false
  enableInterrupts := false
  resetRxFifo := false
  resetTxFifo := false
  txBufferEmptyPre := false
  interrupt := false

/-- The bus is idle but for a write of `data`, if any, or a read. -/
def portInputs (reset rx : Bool) (data : Option (BitVec 8)) (read : Bool) : Inputs where
  reset := reset
  bus2ipData := data.getD 0
  bus2ipRdce := if read then 0x8 else 0
  bus2ipWrce := if data.isSome then 0x4 else 0
  rx := rx

/-- Two clocks of reset, and what follows. -/
def portRun (n : DataBits) (rx : ℕ → Bool) (data : ℕ → Option (BitVec 8)) (read : ℕ → Bool) :
    Run (clock (listed n) 1) :=
  let held := fun s => clock (listed n) 1 (portInputs true true none false) s
  Run.ofInputs (clock (listed n) 1) (held (held (initialPort n))) fun c =>
    portInputs false (rx c) (data c) (read c)

section Port
variable {n : DataBits} {rx : ℕ → Bool} {data : ℕ → Option (BitVec 8)} {read : ℕ → Bool} {c : ℕ}

theorem port_reads : ((portRun n rx data read).input c).readsData = read c := by
  change (if read c then 0x8 else 0 : BitVec 4).getMsbD 0 = read c
  cases read c with
  | false => exact (by decide : (0 : BitVec 4).getMsbD 0 = false)
  | true => exact (by decide : (0x8 : BitVec 4).getMsbD 0 = true)

theorem port_writes : ((portRun n rx data read).input c).writesData = (data c).isSome := by
  change (if (data c).isSome then 0x4 else 0 : BitVec 4).getMsbD 1 = (data c).isSome
  cases (data c).isSome with
  | false => exact (by decide : (0 : BitVec 4).getMsbD 1 = false)
  | true => exact (by decide : (0x4 : BitVec 4).getMsbD 1 = true)

theorem port_keeps : ((portRun n rx data read).input c).readsStatus = false ∧
    ((portRun n rx data read).input c).writesControl = false := by
  change (if read c then 0x8 else 0 : BitVec 4).getMsbD 2 = false ∧
    (if (data c).isSome then 0x4 else 0 : BitVec 4).getMsbD 3 = false
  constructor
  · split <;> decide
  · split <;> decide

theorem port_started (hone : ∀ c, read c = true → data c = none) :
    Started (listed n) 1 (initialPort n) (portRun n rx data read) where
  prepared := ⟨Nat.zero_lt_one, 15, by decide, listed_stages n _⟩
  reset := ⟨_, _, rfl, rfl, rfl⟩
  released _ := rfl
  spared c hwrites := by
    rw [port_keeps.2] at hwrites
    cases hwrites
  single c hreads := by
    rw [port_reads] at hreads
    rw [port_writes, hone c hreads]
    exact ⟨port_keeps.1, rfl⟩

end Port

end Vp2Motion.Proofs.SerialCore
