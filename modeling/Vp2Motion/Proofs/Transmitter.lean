import Mathlib.Data.Nat.Count
import Vp2Motion.Clocked.Run
import Vp2Motion.Hdl.UartliteTx

namespace Vp2Motion.Proofs.Transmitter
open Hdl Hdl.UartliteTx Clocked

/-- `turn` is the clock on which the start bit gives way to the data, `last` the one on
which the byte is taken out of the FIFO. -/
inductive Stage where
  | idle
  | start
  | turn
  | data (j : ℕ)
  | last

namespace Stage

/-- `strobe` is `tx_Data_Enable`, `present` tells whether there is a byte to send. -/
@[simp] def next (n : DataBits) (strobe present : Bool) : Stage → Stage
  | idle => if strobe && present then start else idle
  | start => if strobe then turn else start
  | turn => data 0
  | data j => if strobe then if j + 1 = n.bits then last else data (j + 1) else data j
  | last => idle

@[simp] def starts : Stage → Bool
  | start => true
  | turn => true
  | _ => false

@[simp] def sends : Stage → Bool
  | turn => true
  | data _ => true
  | last => true
  | _ => false

@[simp] def reads : Stage → Bool
  | last => true
  | _ => false

/-- How many data bits have gone before the one that is selected. -/
@[simp] def sent : Stage → ℕ
  | data j => j
  | _ => 0

/-- How many strobes it has taken to get here. -/
@[simp] def progress (n : DataBits) : Stage → ℕ
  | idle => 0
  | start => 1
  | turn => 2
  | data j => j + 2
  | last => n.bits + 2

variable {n : DataBits} {stage : Stage}

/-- `TX_START_DFF`, in terms of stages. The other flip-flops follow. -/
theorem next_starts : (stage.next n strobe present).starts =
    (!stage.sends && (stage.starts || (present && strobe))) := by
  cases stage with
  | idle => cases strobe <;> cases present <;> rfl
  | start => cases strobe <;> rfl
  | turn => rfl
  | data j =>
    cases strobe with
    | false => rfl
    | true => by_cases hj : j + 1 = n.bits <;> simp [hj]
  | last => rfl

theorem next_sends : (stage.next n strobe present).sends =
    (!stage.reads && (stage.sends || (stage.starts && strobe))) := by
  cases stage with
  | idle => cases strobe <;> cases present <;> rfl
  | start => cases strobe <;> rfl
  | turn => rfl
  | data j =>
    cases strobe with
    | false => rfl
    | true => by_cases hj : j + 1 = n.bits <;> simp [hj]
  | last => rfl

theorem next_reads : (stage.next n strobe present).reads =
    (strobe && decide (stage.sent + 1 = n.bits)) := by
  have hlow := n.low
  have hone : 1 ≠ n.bits := by omega
  cases stage with
  | idle => cases strobe <;> cases present <;> simp [hone]
  | start => cases strobe <;> simp [hone]
  | turn => simp [hone]
  | data j =>
    cases strobe with
    | false => rfl
    | true => by_cases hj : j + 1 = n.bits <;> simp [hj]
  | last => simp [hone]

theorem next_within (h : stage.sent < n.bits) :
    (stage.next n strobe present).sent < n.bits := by
  have hlow := n.low
  have hpos : 0 < n.bits := by omega
  cases stage with
  | idle => cases strobe <;> cases present <;> exact hpos
  | start => cases strobe <;> exact hpos
  | turn => exact hpos
  | data j =>
    cases strobe with
    | false => exact h
    | true =>
      by_cases hj : j + 1 = n.bits
      · simpa [hj] using hpos
      · have hj' : j < n.bits := h
        simp [hj]
        omega
  | last => exact hpos

/-- The two stages of one clock are entered with a strobe. -/
theorem next_settled (h : stage.next n strobe present = turn ∨ stage.next n strobe present = last) :
    strobe = true := by
  cases strobe with
  | true => rfl
  | false => cases stage <;> simp at h

end Stage

variable {n : DataBits} {s : UartliteTx n} {stage : Stage}

/-- The registers of the transmitter in a stage. -/
structure InStage (stage : Stage) (s : UartliteTx n) : Prop where
  txStart : s.txStart = stage.starts
  txDataBits : s.txDataBits = stage.sends
  fifoRead : s.fifoRead = stage.reads
  muxSel : s.muxSel = BitVec.ofNat 3 (n.bits - 1 - stage.sent)
  within : stage.sent < n.bits
  settled : stage = .turn ∨ stage = .last → s.txDataEnable = false

theorem select_zero_iff (n : DataBits) (h : j < n.bits) :
    (BitVec.ofNat 3 (n.bits - 1 - j) == 0) = decide (j + 1 = n.bits) := by
  have hhigh := n.high
  rw [Bool.eq_iff_iff, beq_iff_eq, decide_eq_true_eq, ← BitVec.toNat_inj, BitVec.toNat_ofNat]
  change (n.bits - 1 - j) % 2 ^ 3 = 0 ↔ _
  omega

theorem select_pred (n : DataBits) (h : j + 1 < n.bits) :
    BitVec.ofNat 3 (n.bits - 1 - j) - 1 = BitVec.ofNat 3 (n.bits - 1 - (j + 1)) := by
  have hhigh := n.high
  have hone : (1 : BitVec 3) = BitVec.ofNat 3 1 := rfl
  rw [hone, BitVec.ofNat_sub_ofNat_of_le _ _ (by omega) (by omega)]
  congr 1

theorem InStage.zero (h : InStage stage s) :
    s.muxSelIsZero = decide (stage.sent + 1 = n.bits) := by
  rw [muxSelIsZero, h.muxSel, select_zero_iff n h.within]

section Step
variable (d : Drive n) (s : UartliteTx n)

@[simp] theorem step_tx_start : (step d s).txStart =
    (!s.txDataBits && (s.txStart || (s.fifoDataPresent && s.txDataEnable))) := rfl

@[simp] theorem step_tx_data_bits : (step d s).txDataBits =
    (!s.fifoRead && (s.txDataBits || (s.txStart && s.txDataEnable))) := rfl

theorem step_mux_sel : (step d s).muxSel =
    if s.txDataEnable then
      if s.muxSelIsZero then muxSelInit n else if s.txDataBits then s.muxSel - 1 else s.muxSel
    else s.muxSel := rfl

@[simp] theorem step_fifo_read : (step d s).fifoRead = (s.txDataEnable && s.muxSelIsZero) := rfl

@[simp] theorem step_tx : (step d s).tx = ((!s.txDataBits || s.serialData) && !s.txStart) := rfl

@[simp] theorem step_tx_active : (step d s).txActive = (s.txDataBits || s.txStart) := rfl

theorem step_strobe (h : s.txDataEnable = true) : (step d s).txDataEnable = false := by
  simp [step, clock, h]

end Step

/-- The counter stays at its first value as long as no data bit is sent. -/
theorem mux_sel_rests (d : Drive n) (hmux : s.muxSel = BitVec.ofNat 3 (n.bits - 1))
    (h : s.txDataEnable = true → s.txDataBits = false) :
    (step d s).muxSel = BitVec.ofNat 3 (n.bits - 1) := by
  rw [step_mux_sel]
  split
  · rename_i hs
    rw [h hs]
    split
    · rfl
    · exact hmux
  · exact hmux

theorem InStage.mux_sel_step (h : InStage stage s) (d : Drive n) :
    (UartliteTx.step d s).muxSel =
      BitVec.ofNat 3 (n.bits - 1 - (stage.next n s.txDataEnable s.fifoDataPresent).sent) := by
  have hmux := h.muxSel
  have hdata := h.txDataBits
  cases stage with
  | idle =>
    have hsent : (Stage.next n s.txDataEnable s.fifoDataPresent .idle).sent = 0 := by
      cases s.txDataEnable <;> cases s.fifoDataPresent <;> rfl
    rw [hsent]
    exact mux_sel_rests d hmux fun _ => hdata
  | start =>
    have hsent : (Stage.next n s.txDataEnable s.fifoDataPresent .start).sent = 0 := by
      cases s.txDataEnable <;> rfl
    rw [hsent]
    exact mux_sel_rests d hmux fun _ => hdata
  | turn => exact mux_sel_rests d hmux fun hs => absurd (h.settled (.inl rfl)) (by simp [hs])
  | data j =>
    have hj : j < n.bits := h.within
    rw [step_mux_sel, h.zero, hdata]
    cases s.txDataEnable with
    | false => exact hmux
    | true =>
      by_cases hlast : j + 1 = n.bits
      · simp [hlast, muxSelInit]
      · have hpred := select_pred n (show j + 1 < n.bits by omega)
        simpa [hlast, hmux] using hpred
  | last => exact mux_sel_rests d hmux fun hs => absurd (h.settled (.inr rfl)) (by simp [hs])

/-- The registers follow the stages. -/
theorem InStage.step (h : InStage stage s) (d : Drive n) :
    InStage (stage.next n s.txDataEnable s.fifoDataPresent) (UartliteTx.step d s) where
  txStart := by rw [step_tx_start, h.txStart, h.txDataBits, Stage.next_starts]
  txDataBits := by rw [step_tx_data_bits, h.fifoRead, h.txDataBits, h.txStart, Stage.next_sends]
  fifoRead := by rw [step_fifo_read, h.zero, Stage.next_reads]
  muxSel := h.mux_sel_step d
  within := Stage.next_within h.within
  settled hnext := step_strobe d s (Stage.next_settled hnext)

theorem present_iff (s : UartliteTx n) : s.fifoDataPresent = true ↔ s.fifo.words ≠ [] := by
  simp [fifoDataPresent, fifoDataEmpty]

/-- What is left of the bytes when one has been read. -/
def kept (s : UartliteTx n) : List (BitVec n.bits) :=
  if s.fifoRead then s.fifo.words.tail else s.fifo.words

theorem step_words (d : Drive n) (s : UartliteTx n) :
    (step d s).fifo.words =
      if d.writeTxFifo && !s.txBufferFull then kept s ++ [d.txData] else kept s := by
  have hpop : (if s.fifoRead && !s.fifoDataEmpty then s.fifo.pop else s.fifo).words = kept s := by
    rw [kept, fifoDataEmpty]
    cases hwords : s.fifo.words with
    | nil => simp [hwords]
    | cons x xs => cases s.fifoRead <;> simp [SrlFifo.pop, hwords]
  have hdepth := s.fifo.depth
  simp only [step, clock, SrlFifo.clock, Bool.false_eq_true, ↓reduceIte]
  split
  · rename_i hwrite
    have hfull : s.fifo.words.length ≠ 16 := by
      intro hlen
      simp [txBufferFull, hlen] at hwrite
    have hroom : (kept s).length < 16 := by
      rw [kept]
      split
      · rw [List.length_tail]
        omega
      · omega
    rw [SrlFifo.push_words (by rwa [hpop]), hpop]
  · exact hpop

/-- A byte that is written is there on the next clock, or others are. -/
theorem written_present (d : Drive n) (s : UartliteTx n) (h : d.writeTxFifo = true) :
    (step d s).fifoDataPresent = true := by
  rw [present_iff, step_words]
  cases hfull : s.txBufferFull with
  | false => simp [h]
  | true =>
    have hlen : s.fifo.words.length = 16 := by simpa [txBufferFull] using hfull
    have hkept : (kept s).length ≠ 0 := by
      rw [kept]
      split
      · rw [List.length_tail]
        omega
      · omega
    simpa [h, List.length_eq_zero_iff] using hkept

/-- Bytes stay until one is read. -/
theorem present_stays (d : Drive n) (hread : s.fifoRead = false)
    (h : s.fifoDataPresent = true) : (step d s).fifoDataPresent = true := by
  have hkept : kept s = s.fifo.words := by simp [kept, hread]
  rw [present_iff] at h ⊢
  rw [step_words, hkept]
  split
  · simp
  · exact h

theorem present_cases (d : Drive n) (h : (step d s).fifoDataPresent = true) :
    s.fifoDataPresent = true ∨ d.writeTxFifo = true := by
  cases hwrite : d.writeTxFifo with
  | true => exact .inr rfl
  | false =>
    refine .inl ?_
    rw [present_iff] at h ⊢
    intro hnil
    apply h
    simp [step_words, hwrite, kept, hnil]

/-- The divider when the reset ends: so many pulses of `EN_16x_Baud` come before the
next that strobes, and whether `tx_Data_Enable` is 1. -/
structure Divider where
  phase : ℕ
  low : phase < 16
  strobe : Bool
  fresh : strobe = true → phase = 15

/-- On which clocks `tx_Data_Enable` is 1: right after every 16th pulse. -/
def strobe (v : Divider) (en : ℕ → Bool) : ℕ → Bool
  | 0 => v.strobe
  | c + 1 => en c && Nat.count (fun k => en k = true) c % 16 == v.phase

/-- Two strobes never follow each other at once. -/
theorem strobe_pause {v : Divider} {en : ℕ → Bool} (h : strobe v en c = true) :
    Nat.count (fun k => en k = true) c % 16 ≠ v.phase := by
  cases c with
  | zero =>
    rw [v.fresh h]
    simp
  | succ c =>
    have hlow := v.low
    simp only [strobe, Bool.and_eq_true, beq_iff_eq] at h
    rw [Nat.count_succ, if_pos h.1]
    omega

theorem rotate_two_pow (hk : k < 16) :
    (BitVec.twoPow 16 k).rotateLeft 1 = BitVec.twoPow 16 ((k + 1) % 16) := by
  have hall : ∀ j : Fin 16,
      (BitVec.twoPow 16 j.val).rotateLeft 1 = BitVec.twoPow 16 ((j.val + 1) % 16) := by decide
  exact hall ⟨k, hk⟩

theorem two_pow_last (hk : k < 16) : (BitVec.twoPow 16 k).getLsbD 15 = (k == 15) := by
  have hall : ∀ j : Fin 16, (BitVec.twoPow 16 j.val).getLsbD 15 = (j.val == 15) := by decide
  exact hall ⟨k, hk⟩

/-- The registers after a reset of the transmitter and its FIFO. -/
def released (v : Divider) : UartliteTx n where
  div16 := BitVec.twoPow 16 (15 - v.phase)
  txDataEnable := v.strobe
  txStart := false
  txDataBits := false
  muxSel := muxSelInit n
  fifoRead := false
  serialData := false
  tx := true
  txActive := false
  fifo := .empty

/-- Whenever a reset comes: the single 1 in the divider only moves on. -/
theorem reset_releases (d : Drive n) (hdiv : s.div16 = BitVec.twoPow 16 k) (hk : k < 16) :
    ∃ v, clock ⟨d, true, true⟩ s = released v := by
  have hmoved : (clock ⟨d, true, true⟩ s).div16 =
      BitVec.twoPow 16 (if d.en16xBaud then (k + 1) % 16 else k) := by
    simp only [clock, hdiv]
    split
    · exact rotate_two_pow hk
    · rfl
  have hfresh : (clock ⟨d, true, true⟩ s).txDataEnable = true →
      (if d.en16xBaud then (k + 1) % 16 else k) = 0 := by
    intro hstrobe
    simp only [clock, hdiv, two_pow_last hk] at hstrobe
    split at hstrobe
    · cases hstrobe
    · split at hstrobe
      · rename_i hen
        rw [if_pos hen]
        simp at hstrobe
        omega
      · contradiction
  generalize hpos : (if d.en16xBaud then (k + 1) % 16 else k) = p at hmoved hfresh
  have hp : p < 16 := by
    rw [← hpos]
    split <;> omega
  refine ⟨⟨15 - p, by omega, (clock ⟨d, true, true⟩ s).txDataEnable, ?_⟩, ?_⟩
  · intro hstrobe
    rw [hfresh hstrobe]
  · have hback : 15 - (15 - p) = p := by omega
    rw [released, hback, ← hmoved]
    rfl

/-- The transmitter from the end of a reset on. -/
def transmit (v : Divider) (inputs : ℕ → Drive n) : ℕ → UartliteTx n :=
  trace step (released v) inputs

/-- Every run goes on like this after a reset of the transmitter and its FIFO. -/
theorem transmit_after_reset {inputs : ℕ → Drive n} (r : Run (clock (n := n)))
    (hdiv : (r.state 0).div16 = BitVec.twoPow 16 k) (hk : k < 16)
    (hreset : r.input 0 = ⟨d, true, true⟩)
    (hafter : ∀ c, r.input (c + 1) = ⟨inputs c, false, false⟩) :
    ∃ v, ∀ c, r.state (c + 1) = transmit v inputs c := by
  obtain ⟨v, hv⟩ := reset_releases d hdiv hk
  refine ⟨v, fun c => ?_⟩
  induction c with
  | zero =>
    rw [r.next, hreset, hv]
    rfl
  | succ c ih =>
    rw [r.next, hafter, ih]
    rfl

/-- `EN_16x_Baud` of an input stream. -/
def enables (inputs : ℕ → Drive n) (c : ℕ) : Bool := (inputs c).en16xBaud

variable {v : Divider} {inputs : ℕ → Drive n}

theorem divider_eq (v : Divider) (inputs : ℕ → Drive n) (c : ℕ) :
    (transmit v inputs c).div16 = BitVec.twoPow 16
      ((15 - v.phase + Nat.count (fun k => enables inputs k = true) c) % 16) := by
  induction c with
  | zero =>
    rw [Nat.count_zero, Nat.add_zero, Nat.mod_eq_of_lt (by omega)]
    rfl
  | succ c ih =>
    change (if (inputs c).en16xBaud then (transmit v inputs c).div16.rotateLeft 1
      else (transmit v inputs c).div16) = _
    rw [ih, Nat.count_succ, rotate_two_pow (Nat.mod_lt _ (by omega))]
    cases hen : (inputs c).en16xBaud with
    | false => simp [enables, hen]
    | true =>
      simp only [enables, hen, ↓reduceIte]
      congr 1
      omega

/-- The strobes depend on `EN_16x_Baud` alone. -/
theorem strobe_eq (v : Divider) (inputs : ℕ → Drive n) (c : ℕ) :
    (transmit v inputs c).txDataEnable = strobe v (enables inputs) c := by
  induction c with
  | zero => rfl
  | succ c ih =>
    have hlow := v.low
    change (if (transmit v inputs c).txDataEnable then false
      else if (inputs c).en16xBaud then (transmit v inputs c).div16.getLsbD 15
      else (transmit v inputs c).txDataEnable) = _
    rw [ih, divider_eq, two_pow_last (Nat.mod_lt _ (by omega))]
    cases hs : strobe v (enables inputs) c with
    | true =>
      have hpause := strobe_pause hs
      simp [strobe, hpause]
    | false =>
      cases hen : (inputs c).en16xBaud with
      | false => simp [strobe, enables, hen]
      | true =>
        simp only [strobe, enables, hen, Bool.true_and, Bool.false_eq_true, ↓reduceIte]
        rw [Bool.eq_iff_iff, beq_iff_eq, beq_iff_eq]
        omega

end Vp2Motion.Proofs.Transmitter
