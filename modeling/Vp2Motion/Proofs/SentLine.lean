import Mathlib.Tactic.IntervalCases
import Vp2Motion.Proofs.DriverEnable
import Vp2Motion.Proofs.Receiver

namespace Vp2Motion.Proofs.SentLine
open Hdl Hdl.UartliteTx Clocked Serial Transmitter DriverEnable
open Receiver (wordOf sentWords)

variable {n : DataBits} {v : Divider} {inputs : ℕ → Drive n} {period s c : ℕ}
  {w : BitVec n.bits}

/-- The multiplexer takes the bit that `mux_sel` numbers from the left. -/
theorem mux_out_msb {t : UartliteTx n} (hk : k < n.bits)
    (hsel : t.muxSel = BitVec.ofNat 3 k) (stale : BitVec n.bits) :
    t.muxOut stale = (t.fifo.words.headD stale).getMsbD k := by
  have hhigh := n.high
  have hlt : k < 8 := by omega
  rw [muxOut, mux, hsel]
  interval_cases k
  · rfl
  · rfl
  · rfl
  · rfl
  · simp
  · simp [show n.bits ≠ 5 by omega]
  · simp [show n.bits ≠ 5 by omega, show n.bits ≠ 6 by omega]
  · simp [show n.bits ≠ 5 by omega, show n.bits ≠ 6 by omega, show n.bits ≠ 7 by omega]

/-- The bits of a word, the least significant first. -/
def bitsOf (w : BitVec n.bits) : List Bool := (List.range n.bits).map w.getLsbD

theorem bits_length (w : BitVec n.bits) : (bitsOf w).length = n.bits := by simp [bitsOf]

theorem bits_get (w : BitVec n.bits) (hj : j < n.bits) : (bitsOf w).getD j true = w.getLsbD j := by
  rw [List.getD_eq_getElem _ _ (by rwa [bits_length])]
  simp [bitsOf]

theorem mux_out_bit {t : UartliteTx n} {stage : Stage} (h : InStage stage t)
    (hhead : t.fifo.words.head? = some w) (stale : BitVec n.bits) :
    t.muxOut stale = (bitsOf w).getD stage.sent true := by
  have hwithin := h.within
  have hw : t.fifo.words.headD stale = w := by
    rw [List.headD_eq_head?_getD, hhead]
    rfl
  rw [mux_out_msb (by omega) h.muxSel, hw, bits_get w hwithin, BitVec.getMsbD,
    decide_eq_true (by omega), Bool.true_and]
  congr 1
  omega

theorem word_bits (w : BitVec n.bits) : wordOf n (bitsOf w) = w := by
  apply BitVec.eq_of_getLsbD_eq
  intro i hi
  rw [wordOf, BitVec.getLsbD_setWidth, BitVec.getLsbD_ofBoolListLE, decide_eq_true hi,
    Bool.true_and, List.getD_eq_getElem _ _ (by rwa [bits_length])]
  simp [bitsOf]

/-- At which clocks a stage is, when the strobe that began the frame was on clock `s`. -/
def At (n : DataBits) (period s : ℕ) : Stage → ℕ → Prop
  | .idle, c => s + (n.bits + 1) * period + 1 < c
  | .start, c => s < c ∧ c ≤ s + period
  | .turn, c => c = s + period + 1
  | .data j, c => s + (j + 1) * period + (if j = 0 then 1 else 0) < c ∧ c ≤ s + (j + 2) * period
  | .last, c => c = s + (n.bits + 1) * period + 1

theorem strobe_between (hlow : s + a * period < c) (hhigh : c ≤ s + (a + 1) * period) :
    c % period = s % period ↔ c = s + (a + 1) * period := by
  constructor
  · intro hmod
    obtain ⟨k, hk⟩ := (Nat.modEq_iff_dvd' (show s ≤ c by omega)).mp hmod.symm
    rw [Nat.mul_comm] at hk
    have hlt : a < k := Nat.lt_of_mul_lt_mul_right (show a * period < k * period by omega)
    have hle := Nat.mul_le_mul_right period (show a + 1 ≤ k from hlt)
    omega
  · intro hc
    rw [hc, Nat.add_mul_mod_self_right]

/-- The clocks of the next stage, unless a new frame begins. -/
theorem At.next {stage : Stage} {b present : Bool} (h : At n period s stage c)
    (hlong : 2 < period) (hb : b = true ↔ c % period = s % period)
    (hstay : stage = .idle → (b && present) = false) :
    At n period s (stage.next n b present) (c + 1) := by
  cases stage with
  | idle =>
    rw [Stage.next, hstay rfl]
    exact Nat.lt_succ_of_lt h
  | start =>
    obtain ⟨hlow, hhigh⟩ := h
    have hend := strobe_between (show s + 0 * period < c by omega)
      (show c ≤ s + (0 + 1) * period by omega)
    rw [← hb] at hend
    rw [Stage.next]
    cases b with
    | true =>
      have hc := hend.mp rfl
      change c + 1 = s + period + 1
      omega
    | false =>
      have hc : c ≠ s + (0 + 1) * period := fun hc => by cases hend.mpr hc
      change s < c + 1 ∧ c + 1 ≤ s + period
      omega
  | turn =>
    have hc : c = s + period + 1 := h
    change s + (0 + 1) * period + 1 < c + 1 ∧ c + 1 ≤ s + (0 + 2) * period
    omega
  | data j =>
    obtain ⟨hlow, hhigh⟩ := h
    have hend := strobe_between (show s + (j + 1) * period < c by omega) hhigh
    rw [← hb] at hend
    rw [Stage.next]
    cases b with
    | true =>
      have hc := hend.mp rfl
      rw [if_pos rfl]
      split
      · rename_i hj
        subst hc
        change s + (j + 1 + 1) * period + 1 = s + (n.bits + 1) * period + 1
        rw [hj]
      · have hmul : (j + 1 + 2) * period = (j + 1 + 1) * period + period := by ring
        change s + (j + 1 + 1) * period + (if j + 1 = 0 then 1 else 0) < c + 1 ∧
          c + 1 ≤ s + (j + 1 + 2) * period
        rw [if_neg (by omega)]
        omega
    | false =>
      have hc : c ≠ s + (j + 1 + 1) * period := fun hc => by cases hend.mpr hc
      change s + (j + 1) * period + _ < c + 1 ∧ c + 1 ≤ s + (j + 1 + 1) * period
      change c ≤ s + (j + 1 + 1) * period at hhigh
      omega
  | last =>
    have hc : c = s + (n.bits + 1) * period + 1 := h
    change s + (n.bits + 1) * period + 1 < c + 1
    omega

/-- The bit that goes out two clocks after it was selected. -/
theorem At.selected {stage : Stage} (h : At n period s stage c) (hlong : 2 < period)
    (hdata : stage = .turn ∨ ∃ j, stage = .data j) :
    (c + 1 - s - 2) / period = stage.sent + 1 := by
  obtain rfl | ⟨j, rfl⟩ := hdata
  · have hc : c = s + period + 1 := h
    exact Nat.div_eq_of_lt_le (by simp; omega) (by simp; omega)
  · obtain ⟨hlow, hhigh⟩ := h
    have hmul : (j + 1 + 1) * period = (j + 2) * period := rfl
    refine Nat.div_eq_of_lt_le ?_ ?_
    · change (j + 1) * period ≤ _
      omega
    · change _ < (j + 1 + 1) * period
      omega

/-- The frame of the word `w`, begun with the strobe on clock `s`, is sent or was the last. -/
structure Now (v : Divider) (inputs : ℕ → Drive n) (period s : ℕ) (w : BitVec n.bits)
    (c : ℕ) : Prop where
  clocks : At n period s (stageAt v inputs c) c
  head : stageAt v inputs c ≠ .idle → (transmit v inputs c).fifo.words.head? = some w
  serial : (stageAt v inputs c).sends = true → (stageAt v inputs c).starts = false →
    (transmit v inputs c).serialData = (false :: bitsOf w).getD ((c - s - 2) / period) true

/-- A new frame begins with the next clock. -/
def Begins (v : Divider) (inputs : ℕ → Drive n) (c : ℕ) : Prop :=
  stageAt v inputs c = .idle ∧ strobe v (enables inputs) c = true ∧
    (transmit v inputs c).fifoDataPresent = true

theorem level_eq (v : Divider) (inputs : ℕ → Drive n) (c : ℕ) :
    (transmit v inputs (c + 1)).tx = ((!(stageAt v inputs c).sends ||
      (transmit v inputs c).serialData) && !(stageAt v inputs c).starts) := by
  have hstage := in_stage v inputs c
  rw [transmit_succ, step_tx, hstage.txDataBits, hstage.txStart]

/-- `TX` is at the level of the frame. -/
theorem Now.level (h : Now v inputs period s w c) (hlong : 2 < period) :
    (transmit v inputs (c + 1)).tx = lineAt period 1 [⟨s + 2, bitsOf w⟩] (c + 1) := by
  obtain ⟨hclocks, -, hserial⟩ := h
  have hlen := bits_length w
  have hline : lineAt period 1 [⟨s + 2, bitsOf w⟩] (c + 1) =
      if c + 1 < s + 2 then true
      else if c + 1 < s + 2 + (n.bits + 2) * period then
        (false :: bitsOf w).getD ((c - s - 2) / period) true
      else true := by
    rw [lineAt, lineAt, hlen, show c + 1 - (s + 2) - 1 = c - s - 2 by omega]
  rw [level_eq, hline]
  cases hstage : stageAt v inputs c with
  | idle =>
    rw [hstage] at hclocks
    have hc : s + (n.bits + 1) * period + 1 < c := hclocks
    have hbehind : (false :: bitsOf w).getD ((c - s - 2) / period) true = true := by
      have hge : n.bits + 1 ≤ (c - s - 2) / period :=
        (Nat.le_div_iff_mul_le (by omega)).mpr (by omega)
      exact List.getD_eq_default _ _ (by rw [List.length_cons, hlen]; exact hge)
    rw [hbehind]
    simp
  | start =>
    rw [hstage] at hclocks
    obtain ⟨hlow, hhigh⟩ := hclocks
    have hend : period ≤ (n.bits + 2) * period := Nat.le_mul_of_pos_left _ (by omega)
    rw [if_neg (by omega), if_pos (by omega), Nat.div_eq_of_lt (by omega)]
    simp
  | turn =>
    rw [hstage] at hclocks
    have hc : c = s + period + 1 := hclocks
    have hend : 2 * period ≤ (n.bits + 2) * period := Nat.mul_le_mul_right _ (by omega)
    rw [if_neg (by omega), if_pos (by omega), Nat.div_eq_of_lt (by omega)]
    simp
  | data j =>
    rw [hstage] at hclocks hserial
    obtain ⟨hlow, hhigh⟩ := hclocks
    have hj : j < n.bits := by
      have hwithin := (in_stage v inputs c).within
      rwa [hstage] at hwithin
    have hend : (j + 3) * period ≤ (n.bits + 2) * period := Nat.mul_le_mul_right _ (by omega)
    have hmul : (j + 3) * period = (j + 2) * period + period := by ring
    rw [if_neg (by omega), if_pos (by omega), hserial rfl rfl]
    simp
  | last =>
    rw [hstage] at hclocks hserial
    have hc : c = s + (n.bits + 1) * period + 1 := hclocks
    have hmul : (n.bits + 2) * period = (n.bits + 1) * period + period := by ring
    rw [if_neg (by omega), if_pos (by omega), hserial rfl rfl]
    simp

/-- The strobes come every `period` clocks. -/
structure Regular (v : Divider) (inputs : ℕ → Drive n) (period phase : ℕ) : Prop where
  long : 2 < period
  within : phase < period
  strobes : ∀ c, 0 < c → (strobe v (enables inputs) c = true ↔ c % period = phase)

theorem At.after {stage : Stage} (h : At n period s stage c) : s < c := by
  cases stage with
  | idle =>
    have hc : s + (n.bits + 1) * period + 1 < c := h
    omega
  | start => exact h.1
  | turn =>
    have hc : c = s + period + 1 := h
    omega
  | data j =>
    have hc := h.1
    omega
  | last =>
    have hc : c = s + (n.bits + 1) * period + 1 := h
    omega

theorem next_data {stage : Stage} {b present : Bool}
    (hsends : (stage.next n b present).sends = true)
    (hstarts : (stage.next n b present).starts = false) :
    stage = .turn ∨ ∃ j, stage = .data j := by
  cases stage with
  | idle => cases b <;> cases present <;> cases hsends
  | start =>
    cases b with
    | false => cases hsends
    | true => cases hstarts
  | turn => exact .inl rfl
  | data j => exact .inr ⟨j, rfl⟩
  | last => cases hsends

theorem next_idle {stage : Stage} {b present : Bool} (h : stage.next n b present = .idle) :
    stage = .last ∨ stage = .idle := by
  cases stage with
  | idle => exact .inr rfl
  | start => cases b <;> cases h
  | turn => cases h
  | data j =>
    cases b with
    | false => cases h
    | true =>
      rw [Stage.next, if_pos rfl] at h
      split at h <;> cases h
  | last => exact .inl rfl

theorem not_begins (h : ¬Begins v inputs c) (hidle : stageAt v inputs c = .idle) :
    (strobe v (enables inputs) c && (transmit v inputs c).fifoDataPresent) = false := by
  rw [Bool.eq_false_iff]
  intro hand
  rw [Bool.and_eq_true] at hand
  exact h ⟨hidle, hand⟩

theorem idle_next (h : ¬Begins v inputs c) (hidle : stageAt v inputs c = .idle) :
    stageAt v inputs (c + 1) = .idle := by
  rw [stageAt, hidle, Stage.next, not_begins h hidle]
  rfl

/-- A stage other than idle is entered from another such, unless a frame begins. -/
theorem busy_before (h : ¬Begins v inputs c) (hnext : stageAt v inputs (c + 1) ≠ .idle) :
    stageAt v inputs c ≠ .idle ∧ (transmit v inputs c).fifoRead = false := by
  have hread := (in_stage v inputs c).fifoRead
  cases hstage : stageAt v inputs c with
  | idle => exact absurd (idle_next h hstage) hnext
  | last =>
    rw [stageAt, hstage] at hnext
    exact absurd rfl hnext
  | _ =>
    rw [hstage] at hread
    refine ⟨?_, hread⟩
    intro hidle
    cases hidle

theorem head_stays (hread : (transmit v inputs c).fifoRead = false)
    (hhead : (transmit v inputs c).fifo.words.head? = some w) :
    (transmit v inputs (c + 1)).fifo.words.head? = some w := by
  have hkept : kept (transmit v inputs c) = (transmit v inputs c).fifo.words := by
    simp [kept, hread]
  rw [transmit_succ, step_words, hkept]
  split
  · rw [List.head?_append, hhead]
    rfl
  · exact hhead

/-- A frame goes on, and after it the line is idle. -/
theorem Now.next (hreg : Regular v inputs period (s % period)) (h : Now v inputs period s w c)
    (hstay : ¬Begins v inputs c) : Now v inputs period s w (c + 1) where
  clocks := by
    rw [stageAt]
    exact h.clocks.next hreg.long (hreg.strobes c (Nat.zero_lt_of_lt h.clocks.after))
      (not_begins hstay)
  head := by
    intro hbusy
    obtain ⟨hbefore, hread⟩ := busy_before hstay hbusy
    exact head_stays hread (h.head hbefore)
  serial := by
    intro hsends hstarts
    have hstage := in_stage v inputs c
    rw [stageAt] at hsends hstarts
    have hdata := next_data hsends hstarts
    have hbusy : stageAt v inputs c ≠ .idle := by
      intro hidle
      rw [hidle] at hdata
      obtain hturn | ⟨j, hj⟩ := hdata
      · cases hturn
      · cases hj
    rw [h.clocks.selected hreg.long hdata, List.getD_cons_succ]
    exact mux_out_bit hstage (h.head hbusy) _

theorem Now.begin (hlong : 2 < period) (h : Begins v inputs c)
    (hhead : (transmit v inputs c).fifo.words.head? = some w) :
    Now v inputs period c w (c + 1) := by
  obtain ⟨hidle, hstrobe, hpresent⟩ := h
  have hstage : stageAt v inputs (c + 1) = .start := by
    rw [stageAt, hidle, hstrobe, hpresent]
    rfl
  have hread : (transmit v inputs c).fifoRead = false := by
    rw [(in_stage v inputs c).fifoRead, hidle]
    rfl
  refine ⟨?_, fun _ => head_stays hread hhead, ?_⟩
  · rw [hstage]
    exact ⟨Nat.lt_succ_self c, by omega⟩
  · rw [hstage]
    intro hsends
    cases hsends

/-- What a clock puts into the FIFO. -/
def newWord (d : Drive n) (t : UartliteTx n) : List (BitVec n.bits) :=
  if d.writeTxFifo && !t.txBufferFull then [d.txData] else []

/-- The words in the FIFO that are not on the line yet. -/
def waiting (t : UartliteTx n) : List (BitVec n.bits) :=
  if t.txStart || t.txDataBits then t.fifo.words.tail else t.fifo.words

/-- The words that the FIFO had room for, of those written before clock `c`. -/
def accepted (r : Run (step (n := n))) : ℕ → List (BitVec n.bits)
  | 0 => []
  | c + 1 => accepted r c ++ newWord (r.input c) (r.state c)

/-- The frame whose start bit goes out two clocks after clock `c`, if any. -/
def begun (c : ℕ) (t : UartliteTx n) : List Sent :=
  if !t.txStart && !t.txDataBits && t.txDataEnable && t.fifoDataPresent then
    (t.fifo.words.take 1).map fun w => ⟨c + 2, bitsOf w⟩
  else []

def framesAt (r : Run (step (n := n))) : ℕ → List Sent
  | 0 => []
  | c + 1 => framesAt r c ++ begun c (r.state c)

/-- The run from the end of a reset on. -/
def sendRun (v : Divider) (inputs : ℕ → Drive n) : Run (step (n := n)) :=
  Run.ofInputs step (released v) inputs

theorem step_new (d : Drive n) (t : UartliteTx n) :
    (step d t).fifo.words = kept t ++ newWord d t := by
  rw [step_words, newWord]
  split
  · rfl
  · rw [List.append_nil]

theorem waiting_idle (h : stageAt v inputs c = .idle) :
    waiting (transmit v inputs c) = (transmit v inputs c).fifo.words := by
  have hstage := in_stage v inputs c
  rw [waiting, hstage.txStart, hstage.txDataBits, h]
  rfl

theorem waiting_busy (h : stageAt v inputs c ≠ .idle) :
    waiting (transmit v inputs c) = (transmit v inputs c).fifo.words.tail := by
  have hstage := in_stage v inputs c
  rw [waiting, hstage.txStart, hstage.txDataBits]
  cases hs : stageAt v inputs c with
  | idle => exact absurd hs h
  | _ => rfl

/-- Between two begins the words only come in. -/
theorem waiting_next (hstay : ¬Begins v inputs c)
    (hhead : stageAt v inputs c ≠ .idle → ∃ w, (transmit v inputs c).fifo.words.head? = some w) :
    waiting (transmit v inputs (c + 1)) =
      waiting (transmit v inputs c) ++ newWord (inputs c) (transmit v inputs c) := by
  have hread := (in_stage v inputs c).fifoRead
  by_cases hnext : stageAt v inputs (c + 1) = .idle
  · rw [waiting_idle hnext, transmit_succ, step_new, kept, hread]
    rw [stageAt] at hnext
    obtain hlast | hidle := next_idle hnext
    · have hbusy : stageAt v inputs c ≠ .idle := by
        intro hidle
        rw [hlast] at hidle
        cases hidle
      rw [waiting_busy hbusy, hlast]
      rfl
    · rw [waiting_idle hidle, hidle]
      rfl
  · obtain ⟨hbusy, hkeep⟩ := busy_before hstay hnext
    obtain ⟨w, hw⟩ := hhead hbusy
    obtain ⟨ws, hws⟩ := List.head?_eq_some_iff.mp hw
    rw [waiting_busy hnext, waiting_busy hbusy, transmit_succ, step_new, kept, hkeep, hws]
    rfl

/-- A begin takes the first of them to the line. -/
theorem waiting_begin (h : Begins v inputs c) :
    ∃ w, (transmit v inputs c).fifo.words.head? = some w ∧
      begun c (transmit v inputs c) = [⟨c + 2, bitsOf w⟩] ∧
      waiting (transmit v inputs c) ++ newWord (inputs c) (transmit v inputs c) =
        w :: waiting (transmit v inputs (c + 1)) := by
  obtain ⟨hidle, hstrobe, hpresent⟩ := h
  have hstage := in_stage v inputs c
  have hbusy : stageAt v inputs (c + 1) ≠ .idle := by
    rw [stageAt, hidle, hstrobe, hpresent]
    intro hstart
    cases hstart
  cases hwords : (transmit v inputs c).fifo.words with
  | nil => exact absurd hwords ((present_iff _).mp hpresent)
  | cons w ws =>
    refine ⟨w, rfl, ?_, ?_⟩
    · rw [begun, hstage.txStart, hstage.txDataBits, hidle, strobe_eq, hstrobe, hpresent, hwords]
      rfl
    · rw [waiting_idle hidle, waiting_busy hbusy, transmit_succ, step_new, kept, hstage.fifoRead,
        hidle, hwords]
      rfl

theorem begun_none (h : ¬Begins v inputs c) : begun c (transmit v inputs c) = [] := by
  have hstage := in_stage v inputs c
  rw [begun, hstage.txStart, hstage.txDataBits, strobe_eq]
  cases hs : stageAt v inputs c with
  | idle =>
    have hoff : (!Stage.idle.starts && !Stage.idle.sends && strobe v (enables inputs) c &&
        (transmit v inputs c).fifoDataPresent) = false := not_begins h hs
    rw [hoff]
    rfl
  | _ => rfl

variable {phase t : ℕ}

/-- The frames on the line before clock `c`, when nothing is written before clock `t`. -/
structure Sends (v : Divider) (inputs : ℕ → Drive n) (period phase t c : ℕ) : Prop where
  spaced : Spaced n.bits period t (framesAt (sendRun v inputs) c)
  line : ∀ τ ≤ c, (transmit v inputs τ).tx =
    lineAt period 1 (framesAt (sendRun v inputs) c) τ
  words : accepted (sendRun v inputs) c =
    sentWords n (framesAt (sendRun v inputs) c) ++ waiting (transmit v inputs c)
  now : framesAt (sendRun v inputs) c = [] ∧ stageAt v inputs c = .idle ∨
    ∃ before s w, framesAt (sendRun v inputs) c = before ++ [⟨s + 2, bitsOf w⟩] ∧
      s % period = phase ∧ Spaced n.bits period t before ∧
      endTime n.bits period t before ≤ s + 2 ∧ Now v inputs period s w c

namespace Sends

theorem level (h : Sends v inputs period phase t c) (hlong : 2 < period) :
    (transmit v inputs (c + 1)).tx =
      lineAt period 1 (framesAt (sendRun v inputs) c) (c + 1) := by
  obtain ⟨hnil, hidle⟩ | ⟨before, s, w, hframes, -, hspaced, hover, hnow⟩ := h.now
  · rw [hnil, level_eq, hidle]
    rfl
  · have hafter := hnow.clocks.after
    rw [hframes, line_append_from hspaced (by omega), hnow.level hlong]

theorem line_next (h : Sends v inputs period phase t c) (hlong : 2 < period) (hτ : τ ≤ c + 1) :
    (transmit v inputs τ).tx = lineAt period 1 (framesAt (sendRun v inputs) c) τ := by
  obtain hlast | hbefore := Nat.eq_or_lt_of_le hτ
  · rw [hlast]
    exact h.level hlong
  · exact h.line τ (Nat.le_of_lt_succ hbefore)

theorem head_some (h : Sends v inputs period phase t c) (hbusy : stageAt v inputs c ≠ .idle) :
    ∃ w, (transmit v inputs c).fifo.words.head? = some w := by
  obtain ⟨-, hidle⟩ | ⟨_, _, w, -, -, -, -, hnow⟩ := h.now
  · exact absurd hidle hbusy
  · exact ⟨w, hnow.head hbusy⟩

/-- The last frame is over when the next begins. -/
theorem over_begin (h : Sends v inputs period phase t c) (hreg : Regular v inputs period phase)
    (hquiet : ∀ k < t, (inputs k).writeTxFifo = false) (hbegin : Begins v inputs c) :
    c % period = phase ∧ endTime n.bits period t (framesAt (sendRun v inputs) c) ≤ c + 2 := by
  obtain ⟨hidle, hstrobe, hpresent⟩ := hbegin
  obtain ⟨k, hk, hwrite⟩ := written_before v inputs c hpresent
  have hphase := (hreg.strobes c (by omega)).mp hstrobe
  refine ⟨hphase, ?_⟩
  obtain ⟨hnil, -⟩ | ⟨before, s, w, hframes, hs, -, -, hnow⟩ := h.now
  · have ht : t ≤ k := by
      by_contra hlt
      rw [hquiet k (by omega)] at hwrite
      cases hwrite
    rw [hnil, endTime]
    omega
  · have hclocks := hnow.clocks
    rw [hidle] at hclocks
    have hc : s + (n.bits + 1) * period + 1 < c := hclocks
    obtain ⟨m, hm⟩ := (Nat.modEq_iff_dvd' (show s ≤ c by omega)).mp (hs.trans hphase.symm)
    rw [Nat.mul_comm] at hm
    have hlt : n.bits + 1 < m :=
      Nat.lt_of_mul_lt_mul_right (show (n.bits + 1) * period < m * period by omega)
    have hle := Nat.mul_le_mul_right period (show n.bits + 2 ≤ m from hlt)
    rw [hframes, end_time_append]
    change s + 2 + (n.bits + 2) * period ≤ c + 2
    omega

theorem next (h : Sends v inputs period phase t c) (hreg : Regular v inputs period phase)
    (hquiet : ∀ k < t, (inputs k).writeTxFifo = false) :
    Sends v inputs period phase t (c + 1) := by
  have hsame : framesAt (sendRun v inputs) (c + 1) =
      framesAt (sendRun v inputs) c ++ begun c (transmit v inputs c) := rfl
  have hnew : accepted (sendRun v inputs) (c + 1) =
      accepted (sendRun v inputs) c ++ newWord (inputs c) (transmit v inputs c) := rfl
  by_cases hbegin : Begins v inputs c
  · obtain ⟨w, hhead, hbegun, hwaiting⟩ := waiting_begin hbegin
    obtain ⟨hphase, hover⟩ := h.over_begin hreg hquiet hbegin
    rw [hbegun] at hsame
    refine ⟨?_, ?_, ?_, .inr ⟨_, c, w, hsame, hphase, h.spaced, hover, ?_⟩⟩
    · rw [hsame]
      exact spaced_append h.spaced hover (bits_length w)
    · intro τ hτ
      rw [hsame, line_append_before (show τ < c + 2 by omega)]
      exact h.line_next hreg.long hτ
    · rw [hnew, h.words, List.append_assoc, hwaiting, hsame, sentWords, sentWords, List.map_append,
        List.map_singleton, word_bits, List.append_assoc]
      rfl
    · exact Now.begin hreg.long hbegin hhead
  · rw [begun_none hbegin, List.append_nil] at hsame
    refine ⟨?_, ?_, ?_, ?_⟩
    · rw [hsame]
      exact h.spaced
    · intro τ hτ
      rw [hsame]
      exact h.line_next hreg.long hτ
    · rw [hnew, h.words, List.append_assoc, ← waiting_next hbegin h.head_some, hsame]
    · rw [hsame]
      obtain ⟨hnil, hidle⟩ | ⟨before, s, w, hframes, hs, hspaced, hover, hnow⟩ := h.now
      · exact .inl ⟨hnil, idle_next hbegin hidle⟩
      · subst hs
        exact .inr ⟨before, s, w, hframes, rfl, hspaced, hover, hnow.next hreg hbegin⟩

end Sends

theorem sends_at (hreg : Regular v inputs period phase)
    (hquiet : ∀ k < t, (inputs k).writeTxFifo = false) (c : ℕ) :
    Sends v inputs period phase t c := by
  induction c with
  | zero =>
    refine ⟨trivial, ?_, rfl, .inl ⟨rfl, rfl⟩⟩
    intro τ hτ
    rw [Nat.le_zero.mp hτ]
    rfl
  | succ c ih => exact ih.next hreg hquiet

theorem At.late {stage : Stage} (h : At n period s stage c) (hsent : stage.sent < n.bits)
    (hlong : 2 < period) (hc : s + (n.bits + 2) * period < c) : stage = .idle := by
  have hmul : (n.bits + 2) * period = (n.bits + 1) * period + period := by ring
  cases stage with
  | idle => rfl
  | start =>
    have hhigh := h.2
    omega
  | turn =>
    have hhigh : c = s + period + 1 := h
    have hle := Nat.mul_le_mul_right period (show 1 ≤ n.bits + 1 by omega)
    omega
  | data j =>
    have hhigh := h.2
    have hle := Nat.mul_le_mul_right period (show j + 2 ≤ n.bits + 2 from
      Nat.add_le_add_right (Nat.le_of_lt hsent) 2)
    omega
  | last =>
    have hhigh : c = s + (n.bits + 1) * period + 1 := h
    omega

theorem Now.stays (hreg : Regular v inputs period (s % period)) (h : Now v inputs period s w c)
    (hc : c ≤ m) (hnone : ∀ k, c ≤ k → k < m → ¬Begins v inputs k) :
    Now v inputs period s w m :=
  (sendRun v inputs).indexed (P := fun k _ => Now v inputs period s w k) hc h
    fun k hk hkm hnow => hnow.next hreg (hnone k hk hkm)

theorem idle_stays (h : stageAt v inputs c = .idle) (hc : c ≤ m)
    (hnone : ∀ k, c ≤ k → k < m → ¬Begins v inputs k) : stageAt v inputs m = .idle :=
  (sendRun v inputs).indexed (P := fun k _ => stageAt v inputs k = .idle) hc h
    fun k hk hkm hidle => idle_next (hnone k hk hkm) hidle

/-- Without a begin the frame on the line comes to its end. -/
theorem idle_late (hreg : Regular v inputs period phase) (h : Sends v inputs period phase t c)
    (hnone : ∀ k, c ≤ k → k < m → ¬Begins v inputs k) (hm : c + (n.bits + 2) * period ≤ m) :
    stageAt v inputs m = .idle := by
  obtain ⟨-, hidle⟩ | ⟨_, s, w, -, hs, -, -, hnow⟩ := h.now
  · exact idle_stays hidle (by omega) hnone
  · subst hs
    have hafter := hnow.clocks.after
    exact (hnow.stays hreg (by omega) hnone).clocks.late (in_stage v inputs m).within hreg.long
      (by omega)

theorem exists_phase (hphase : phase < period) (a : ℕ) :
    ∃ k, a ≤ k ∧ k < a + period ∧ k % period = phase := by
  have hdiv := Nat.div_add_mod a period
  have hmod := Nat.mod_lt a (Nat.zero_lt_of_lt hphase)
  by_cases hle : a % period ≤ phase
  · refine ⟨period * (a / period) + phase, by omega, by omega, ?_⟩
    rw [Nat.mul_add_mod, Nat.mod_eq_of_lt hphase]
  · refine ⟨period * (a / period + 1) + phase, ?_, ?_, ?_⟩
    · rw [Nat.mul_succ]
      omega
    · rw [Nat.mul_succ]
      omega
    · rw [Nat.mul_add_mod, Nat.mod_eq_of_lt hphase]

theorem waiting_stays (hreg : Regular v inputs period phase)
    (hquiet : ∀ k < t, (inputs k).writeTxFifo = false)
    (hwaiting : waiting (transmit v inputs c) ≠ []) (hc : c ≤ m)
    (hnone : ∀ k, c ≤ k → k < m → ¬Begins v inputs k) :
    waiting (transmit v inputs m) ≠ [] := by
  refine (sendRun v inputs).indexed (P := fun k _ => waiting (transmit v inputs k) ≠ [])
    hc hwaiting ?_
  intro k hk hkm hbefore
  rw [waiting_next (hnone k hk hkm) (sends_at hreg hquiet k).head_some]
  exact List.append_ne_nil_of_left_ne_nil hbefore _

/-- A word that waits does not wait for more than one frame. -/
theorem begins_within (hreg : Regular v inputs period phase)
    (hquiet : ∀ k < t, (inputs k).writeTxFifo = false)
    (hwaiting : waiting (transmit v inputs c) ≠ []) :
    ∃ k, c ≤ k ∧ k < c + (n.bits + 3) * period ∧ Begins v inputs k := by
  by_contra hno
  have hnone : ∀ k, c ≤ k → k < c + (n.bits + 3) * period → ¬Begins v inputs k :=
    fun k hk hlt hbegin => hno ⟨k, hk, hlt, hbegin⟩
  have hlong := hreg.long
  have hmul : (n.bits + 3) * period = (n.bits + 2) * period + period := by ring
  obtain ⟨k, hlow, hhigh, hphase⟩ := exists_phase hreg.within (c + (n.bits + 2) * period)
  have hbefore : ∀ m, c ≤ m → m < k → ¬Begins v inputs m := fun m hm hlt =>
    hnone m hm (by omega)
  have hidle := idle_late hreg (sends_at hreg hquiet c) hbefore hlow
  have hpresent := waiting_stays hreg hquiet hwaiting (by omega) hbefore
  rw [waiting_idle hidle, ← present_iff] at hpresent
  have hpos : 0 < (n.bits + 2) * period := Nat.mul_pos (by omega) (by omega)
  exact hnone k (by omega) (by omega) ⟨hidle, (hreg.strobes k (by omega)).mpr hphase, hpresent⟩

theorem frames_mono (r : Run (step (n := n))) (hc : c ≤ m) : framesAt r c <+: framesAt r m := by
  induction m, hc using Nat.le_induction with
  | base => exact List.prefix_refl _
  | succ m hm ih => exact ih.trans (List.prefix_append ..)

/-- The last frame is over a frame after it has begun. -/
theorem end_time_frames (r : Run (step (n := n))) (h : framesAt r c ≠ []) :
    endTime n.bits period t (framesAt r c) ≤ c + 1 + (n.bits + 2) * period := by
  induction c with
  | zero => exact absurd rfl h
  | succ c ih =>
    have hbegun : begun c (r.state c) = [] ∨
        ∃ w : BitVec n.bits, begun c (r.state c) = [⟨c + 2, bitsOf w⟩] := by
      rw [begun]
      split
      · cases (r.state c).fifo.words with
        | nil => exact .inl rfl
        | cons w ws => exact .inr ⟨w, rfl⟩
      · exact .inl rfl
    rw [framesAt] at h ⊢
    obtain hnone | ⟨w, hone⟩ := hbegun
    · rw [hnone, List.append_nil] at h ⊢
      have hbefore := ih h
      omega
    · rw [hone, end_time_append]

theorem waiting_length (tx : UartliteTx n) : (waiting tx).length ≤ 16 := by
  have hdepth := tx.fifo.depth
  rw [waiting]
  split
  · rw [List.length_tail]
    omega
  · exact hdepth

theorem accepted_stays (r : Run (step (n := n))) (hc : c ≤ m)
    (hnone : ∀ k, c ≤ k → k < m → (r.input k).writeTxFifo = false) :
    accepted r m = accepted r c := by
  refine r.indexed (P := fun k _ => accepted r k = accepted r c) hc rfl ?_
  intro k hk hkm hsame
  have hnew : newWord (r.input k) (r.state k) = [] := by
    rw [newWord, hnone k hk hkm]
    rfl
  rw [accepted, hnew, List.append_nil, hsame]

theorem frames_grow (hreg : Regular v inputs period phase)
    (hquiet : ∀ k < t, (inputs k).writeTxFifo = false)
    (hwaiting : waiting (transmit v inputs c) ≠ []) :
    (framesAt (sendRun v inputs) c).length <
      (framesAt (sendRun v inputs) (c + (n.bits + 3) * period)).length := by
  obtain ⟨k, hk, hlt, hbegin⟩ := begins_within hreg hquiet hwaiting
  obtain ⟨w, -, hbegun, -⟩ := waiting_begin hbegin
  have hbefore := (frames_mono (sendRun v inputs) hk).length_le
  have hafter := (frames_mono (sendRun v inputs)
    (show k + 1 ≤ c + (n.bits + 3) * period from hlt)).length_le
  have hone : framesAt (sendRun v inputs) (k + 1) =
      framesAt (sendRun v inputs) k ++ [⟨k + 2, bitsOf w⟩] :=
    congrArg (framesAt (sendRun v inputs) k ++ ·) hbegun
  rw [hone, List.length_append, List.length_singleton] at hafter
  omega

end Vp2Motion.Proofs.SentLine
