import Mathlib.Data.List.GetD
import Mathlib.Data.Nat.Nth
import Vp2Motion.Clocked.Run
import Vp2Motion.Hdl.UartliteRx
import Vp2Motion.Serial.Sender

namespace Vp2Motion.Proofs.Receiver
open Hdl Hdl.UartliteRx Serial Clocked

variable {n : DataBits} {δ φ : Type} {p : ProcCommon n δ φ} {s : UartliteRx n δ φ}
  {taken : List Bool}

/-- The middle of each bit, from the tick on which the start edge is seen. -/
def sampling (n : DataBits) : Sampling := ⟨n.bits, 24, 16, by decide, by decide⟩

theorem point_eq (n : DataBits) (j : ℕ) : (sampling n).point j = 24 + 16 * j := rfl

theorem shift_two_pow (k : ℕ) : shiftIn false (BitVec.twoPow 16 k) = BitVec.twoPow 16 (k + 1) := by
  have hzero : (BitVec.ofBool false).setWidth 16 = 0#16 := by decide
  rw [shiftIn, hzero, BitVec.or_zero, BitVec.twoPow, BitVec.twoPow, BitVec.shiftLeft_add]

theorem shift_zero : shiftIn false 0 = 0 := by decide

theorem shift_one : shiftIn true 0 = BitVec.twoPow 16 0 := by decide

theorem shift_out : shiftIn true (BitVec.twoPow 16 15) = BitVec.twoPow 16 0 := by decide

theorem shift_last : shiftIn false (BitVec.twoPow 16 15) = 0 := by decide

theorem two_pow_out (hk : 16 ≤ k) : BitVec.twoPow 16 k = 0 := by
  apply BitVec.eq_of_getLsbD_eq
  intro i hi
  rw [BitVec.getLsbD_twoPow]
  simp
  omega

/-- `fifo_Din` with the bits that have come in behind the marker. -/
def Shifted (taken : List Bool) (din : BitVec n.bits) : Prop :=
  ∀ t < n.bits, din.getLsbD t =
    if n.bits ≤ t + taken.length then taken.getD (t + taken.length - n.bits) false
    else decide (t + taken.length + 1 = n.bits)

theorem start_mark_get (n : DataBits) (t : ℕ) :
    (startMark n).getLsbD t = decide (t + 1 = n.bits) := by
  have hlow := n.low
  rw [startMark, BitVec.getLsbD_twoPow, Bool.eq_iff_iff]
  simp
  omega

theorem mark_shifted (n : DataBits) : Shifted [] (startMark n) := by
  intro t ht
  rw [start_mark_get, List.length_nil, Nat.add_zero, if_neg (by omega)]

/-- A bit goes in at the top. -/
theorem Shifted.push {din : BitVec n.bits} (h : Shifted taken din) (level : Bool) :
    Shifted (taken ++ [level]) (din >>> 1 ||| (if level then startMark n else 0)) := by
  intro t ht
  have hlow := n.low
  have hmark : (if level then startMark n else (0 : BitVec n.bits)).getLsbD t =
      (level && decide (t + 1 = n.bits)) := by
    cases level with
    | true => rw [if_pos rfl, start_mark_get, Bool.true_and]
    | false => simp
  rw [BitVec.getLsbD_or, hmark, BitVec.getLsbD_ushiftRight, List.length_append,
    List.length_singleton]
  by_cases htop : t + 1 = n.bits
  · rw [BitVec.getLsbD_of_ge _ _ (by omega), if_pos (by omega),
      List.getD_append_right _ _ _ _ (by omega),
      show t + (taken.length + 1) - n.bits - taken.length = 0 by omega]
    simp [htop]
  · rw [Nat.add_comm 1 t, h (t + 1) (by omega),
      show t + 1 + taken.length = t + (taken.length + 1) by omega]
    simp only [htop, decide_false, Bool.and_false, Bool.or_false]
    by_cases hin : n.bits ≤ t + (taken.length + 1)
    · rw [if_pos hin, if_pos hin, List.getD_append _ _ _ _ (by omega)]
    · rw [if_neg hin, if_neg hin]

/-- The data bits as a word, the first as its least significant bit. -/
def wordOf (n : DataBits) (data : List Bool) : BitVec n.bits :=
  (BitVec.ofBoolListLE data).setWidth n.bits

def sentWords (n : DataBits) (frames : List Sent) : List (BitVec n.bits) :=
  frames.map fun f => wordOf n f.data

theorem Shifted.word {din : BitVec n.bits} (h : Shifted taken din)
    (hlen : taken.length = n.bits) : din = wordOf n taken := by
  apply BitVec.eq_of_getLsbD_eq
  intro t ht
  rw [h t ht, wordOf, BitVec.getLsbD_setWidth, BitVec.getLsbD_ofBoolListLE, if_pos (by omega),
    hlen, Nat.add_sub_cancel, decide_eq_true ht, Bool.true_and]

/-- Between two frames. -/
structure Quiet (p : ProcCommon n δ φ) (before : Bool) (s : UartliteRx n δ φ) : Prop where
  previous : s.previousRx = before
  startEdge : s.startEdgeDetected = false
  running : s.running = false
  midStart : p.shreg.stages s.midStartSrl = 0
  delay : p.shreg.stages s.delaySrl = 0
  stop : s.stopBitPosition = false

/-- So many ticks after the one on which the start edge was seen. -/
structure InFrame (p : ProcCommon n δ φ) (age : ℕ) (taken : List Bool)
    (s : UartliteRx n δ φ) : Prop where
  inside : age < 24 + 16 * n.bits
  length : taken.length = (age - 8) / 16
  startEdge : s.startEdgeDetected = decide (age = 0)
  running : s.running = decide (age ≠ 0)
  previous : age = 0 → s.previousRx = false
  midStart : p.shreg.stages s.midStartSrl = if age = 0 then 0 else BitVec.twoPow 16 (age - 1)
  delay : p.shreg.stages s.delaySrl =
    if 8 ≤ age then BitVec.twoPow 16 ((age - 8) % 16) else 0
  stop : s.stopBitPosition = decide (taken.length = n.bits)
  shifted : 8 ≤ age → Shifted taken s.fifoDin

/-- The state of the decoder that the registers stand for. -/
def Shows (p : ProcCommon n δ φ) : Decoder → UartliteRx n δ φ → Prop
  | .idle before, s => Quiet p before s
  | .frame age taken, s => InFrame p age taken s

theorem mid_start_get (p : ProcCommon n δ φ) (s : UartliteRx n δ φ) :
    s.midStartBit p = (p.shreg.stages s.midStartSrl).getLsbD 6 :=
  (p.shreg.stages_get _ (by decide)).symm

theorem sample_point_get (p : ProcCommon n δ φ) (s : UartliteRx n δ φ) :
    s.samplePoint p = (p.shreg.stages s.delaySrl).getLsbD 15 :=
  (p.shreg.stages_get _ (by decide)).symm

theorem Quiet.mid_start (h : Quiet p before s) : s.midStartBit p = false := by
  rw [mid_start_get, h.midStart]
  rfl

theorem Quiet.sample_point (h : Quiet p before s) : s.samplePoint p = false := by
  rw [sample_point_get, h.delay]
  rfl

theorem InFrame.mid_start (h : InFrame p age taken s) : s.midStartBit p = decide (age = 7) := by
  rw [mid_start_get, h.midStart]
  split
  · rename_i hzero
    rw [hzero]
    rfl
  · rw [BitVec.getLsbD_twoPow, Bool.eq_iff_iff]
    simp
    omega

theorem InFrame.sample_point (h : InFrame p age taken s) :
    s.samplePoint p = decide (age + 1 = 24 + 16 * taken.length) := by
  have hlength := h.length
  rw [sample_point_get, h.delay]
  split
  · rw [BitVec.getLsbD_twoPow, Bool.eq_iff_iff]
    simp
    omega
  · rw [Bool.eq_iff_iff]
    simp
    omega

theorem mid_step (hp : p.shreg.Contract) (d : Drive) (s : UartliteRx n δ φ) :
    p.shreg.stages (step p d s).midStartSrl =
      if d.en16xBaud then shiftIn s.startEdgeDetected (p.shreg.stages s.midStartSrl)
      else p.shreg.stages s.midStartSrl := hp.stages_clock ..

theorem delay_step (hp : p.shreg.Contract) (d : Drive) (s : UartliteRx n δ φ) :
    p.shreg.stages (step p d s).delaySrl =
      if d.en16xBaud then shiftIn (s.recycle p) (p.shreg.stages s.delaySrl)
      else p.shreg.stages s.delaySrl := hp.stages_clock ..

theorem Quiet.pause (hp : p.shreg.Contract) (h : Quiet p before s) (hen : d.en16xBaud = false) :
    Quiet p before (step p d s) := by
  have hmid' := mid_step hp d s
  have hdelay' := delay_step hp d s
  obtain ⟨hprevious, hedge, hrunning, hmid, hdelay, hstop⟩ := h
  rw [hen] at hmid' hdelay'
  refine ⟨?_, ?_, ?_, hmid'.trans hmid, hdelay'.trans hdelay, ?_⟩
  · simp [step, clock, hen, hprevious]
  · simp [step, clock, hen, hedge]
  · simp [step, clock, hen, hrunning]
  · simp [step, clock, hen, hstop]

theorem InFrame.pause (hp : p.shreg.Contract) (h : InFrame p age taken s)
    (hen : d.en16xBaud = false) : InFrame p age taken (step p d s) := by
  have hmid := h.mid_start
  have hmid' := mid_step hp d s
  have hdelay' := delay_step hp d s
  obtain ⟨hinside, hlength, hedge, hrunning, hprevious, hsrl, hdelay, hstop, hshifted⟩ := h
  rw [hen] at hmid' hdelay'
  refine ⟨hinside, hlength, ?_, ?_, ?_, hmid'.trans hsrl, hdelay'.trans hdelay, ?_, ?_⟩
  · simp [step, clock, hen, hedge]
  · simp [step, clock, hen, hrunning]
  · intro hzero
    simp [step, clock, hen, hprevious hzero]
  · simp [step, clock, hen, hstop]
  · intro hage
    have hseven : ¬age = 7 := by omega
    simpa [step, clock, hen, hmid, hseven] using hshifted hage

theorem Quiet.tick (hp : p.shreg.Contract) (h : Quiet p before s) (hen : d.en16xBaud = true) :
    Shows p ((Decoder.idle before).tick (sampling n) s.rx2).1 (step p d s) := by
  have hlow := n.low
  have hsample := h.sample_point
  have hmid := h.mid_start
  obtain ⟨hprevious, hedge, hrunning, hsrl, hdelay, hstop⟩ := h
  have hrecycle : s.recycle p = false := by simp [recycle, hmid, hsample]
  have hsrl' : p.shreg.stages (step p d s).midStartSrl = 0 := by
    rw [mid_step hp, if_pos hen, hedge, hsrl, shift_zero]
  have hdelay' : p.shreg.stages (step p d s).delaySrl = 0 := by
    rw [delay_step hp, if_pos hen, hrecycle, hdelay, shift_zero]
  have hstop' : (step p d s).stopBitPosition = false := by simp [step, clock, hen, hstop, hsample]
  have hrunning' : (step p d s).running = false := by
    simp [step, clock, hen, hedge, hsample, hrunning]
  rw [Decoder.tick]
  by_cases hfall : (before && !s.rx2) = true
  · rw [if_pos hfall]
    have hedge' : (step p d s).startEdgeDetected = true := by
      simpa [step, clock, hen, hrunning, hprevious] using hfall
    have hlevel : s.rx2 = false := by
      rw [Bool.and_eq_true, Bool.not_eq_true'] at hfall
      exact hfall.2
    refine ⟨by omega, rfl, hedge', hrunning', ?_, hsrl', hdelay', ?_, ?_⟩
    · intro _
      simp [step, clock, hen, hlevel]
    · rw [hstop', eq_comm, decide_eq_false_iff_not, List.length_nil]
      omega
    · intro hage
      omega
  · rw [if_neg hfall]
    refine ⟨?_, ?_, hrunning', hsrl', hdelay', hstop'⟩
    · simp [step, clock, hen]
    · simpa [step, clock, hen, hrunning, hprevious] using hfall

/-- The registers that every tick within a frame moves alike. -/
theorem InFrame.advance (hp : p.shreg.Contract) (h : InFrame p age taken s)
    (hen : d.en16xBaud = true) : (step p d s).startEdgeDetected = false ∧
      p.shreg.stages (step p d s).midStartSrl = BitVec.twoPow 16 age := by
  obtain ⟨-, -, hedge, hrunning, hprevious, hsrl, -, -, -⟩ := h
  rw [mid_step hp, if_pos hen, hedge, hsrl]
  by_cases hzero : age = 0
  · have hlevel := hprevious hzero
    constructor
    · simp [step, clock, hen, hlevel]
    · rw [decide_eq_true hzero, if_pos hzero, hzero, shift_one]
  · constructor
    · simp [step, clock, hen, hrunning, hzero]
    · rw [decide_eq_false hzero, if_neg hzero, shift_two_pow]
      congr 1
      omega

theorem InFrame.running_step (h : InFrame p age taken s) (hen : d.en16xBaud = true)
    (hlast : ¬(age + 1 = 24 + 16 * taken.length ∧ taken.length = n.bits)) :
    (step p d s).running = true := by
  have hsample := h.sample_point
  obtain ⟨-, -, hedge, hrunning, -, -, -, hstop, -⟩ := h
  by_cases hzero : age = 0
  · simp [step, clock, hen, hedge, hzero]
  · simp [step, clock, hen, hedge, hrunning, hzero, hsample, hstop]
    exact not_and_or.mp hlast

/-- A tick on which nothing is sampled. -/
theorem InFrame.wait (hp : p.shreg.Contract) (h : InFrame p age taken s)
    (hen : d.en16xBaud = true) (hpoint : age + 1 ≠ 24 + 16 * taken.length) :
    InFrame p (age + 1) taken (step p d s) := by
  have hsample := h.sample_point
  have hmid := h.mid_start
  have hrunning' := h.running_step hen fun hlast => hpoint hlast.1
  obtain ⟨hedge', hsrl'⟩ := h.advance hp hen
  obtain ⟨hinside, hlength, -, -, -, -, hdelay, hstop, hshifted⟩ := h
  rw [decide_eq_false hpoint] at hsample
  have hrecycle : s.recycle p = (!decide (taken.length = n.bits) && decide (age = 7)) := by
    simp [recycle, hmid, hsample, hstop]
  have hlow := n.low
  refine ⟨by omega, by omega, ?_, ?_, fun hzero => by omega, ?_, ?_, ?_, ?_⟩
  · rw [hedge', decide_eq_false (by omega)]
  · rw [hrunning', decide_eq_true (by omega)]
  · rw [hsrl', if_neg (by omega), Nat.add_sub_cancel]
  · rw [delay_step hp, if_pos hen, hrecycle, hdelay]
    by_cases hseven : age = 7
    · have hempty : taken.length ≠ n.bits := by omega
      subst hseven
      rw [decide_eq_false hempty]
      exact shift_one
    · rw [decide_eq_false hseven, Bool.and_false]
      by_cases hage : 8 ≤ age
      · rw [if_pos hage, if_pos (by omega), shift_two_pow]
        congr 1
        omega
      · rw [if_neg hage, if_neg (by omega), shift_zero]
  · simp only [step, clock, hen, hstop, hsample, Bool.false_and, Bool.false_eq_true, ↓reduceIte]
    by_cases hfull : taken.length = n.bits <;> simp [hfull]
  · intro hage
    by_cases hseven : age = 7
    · have hnil : taken = [] := List.eq_nil_of_length_eq_zero (by omega)
      subst hnil
      simpa [step, clock, hmid, hseven] using mark_shifted n
    · simpa [step, clock, hen, hmid, hseven, serialToPar, hsample] using hshifted (by omega)

/-- A tick that takes a data bit. -/
theorem InFrame.sample (hp : p.shreg.Contract) (h : InFrame p age taken s)
    (hen : d.en16xBaud = true) (hpoint : age + 1 = 24 + 16 * taken.length)
    (hmore : taken.length ≠ n.bits) :
    InFrame p (age + 1) (taken ++ [s.rx2]) (step p d s) := by
  have hsample := h.sample_point
  have hmid := h.mid_start
  have hrunning' := h.running_step hen fun hlast => hmore hlast.2
  obtain ⟨hedge', hsrl'⟩ := h.advance hp hen
  obtain ⟨hinside, hlength, -, -, -, -, hdelay, hstop, hshifted⟩ := h
  rw [decide_eq_true hpoint] at hsample
  rw [decide_eq_false hmore] at hstop
  rw [decide_eq_false (by omega)] at hmid
  have hbound : taken.length < n.bits := by omega
  have hrecycle : s.recycle p = true := by simp [recycle, hsample, hstop]
  have hlast : (age - 8) % 16 = 15 := by omega
  have hlength' : (taken ++ [s.rx2]).length = taken.length + 1 := by simp
  refine ⟨by omega, by rw [hlength']; omega, ?_, ?_, fun hzero => by omega, ?_, ?_, ?_, ?_⟩
  · rw [hedge', decide_eq_false (by omega)]
  · rw [hrunning', decide_eq_true (by omega)]
  · rw [hsrl', if_neg (by omega), Nat.add_sub_cancel]
  · rw [delay_step hp, if_pos hen, hrecycle, hdelay, if_pos (by omega), hlast,
      if_pos (by omega), shift_out]
    congr 1
    omega
  · have hmark := hshifted (by omega) 0 (by omega)
    rw [if_neg (by omega), Nat.zero_add] at hmark
    rw [hlength']
    simp [step, clock, hen, hstop, hsample, hmark]
  · intro _
    have hdin : (step p d s).fifoDin =
        s.fifoDin >>> 1 ||| (if s.rx2 then startMark n else 0) := by
      simp [step, clock, hen, hmid, serialToPar, hsample, hstop]
    rw [hdin]
    exact (hshifted (by omega)).push s.rx2

/-- The tick on the stop bit. -/
theorem InFrame.finish (hp : p.shreg.Contract) (h : InFrame p age taken s)
    (hen : d.en16xBaud = true) (hpoint : age + 1 = 24 + 16 * taken.length)
    (hfull : taken.length = n.bits) : Quiet p s.rx2 (step p d s) := by
  have hlow := n.low
  have hsample := h.sample_point
  obtain ⟨hedge', hsrl'⟩ := h.advance hp hen
  obtain ⟨hinside, hlength, hedge, -, -, -, hdelay, hstop, -⟩ := h
  rw [decide_eq_true hpoint] at hsample
  rw [decide_eq_true hfull] at hstop
  rw [decide_eq_false (by omega)] at hedge
  have hrecycle : s.recycle p = false := by simp [recycle, hstop]
  have hlast : (age - 8) % 16 = 15 := by omega
  refine ⟨?_, hedge', ?_, ?_, ?_, ?_⟩
  · simp [step, clock, hen]
  · simp [step, clock, hen, hedge, hsample, hstop]
  · rw [hsrl']
    exact two_pow_out (by omega)
  · rw [delay_step hp, if_pos hen, hrecycle, hdelay, if_pos (by omega), hlast, shift_last]
  · simp [step, clock, hen, hstop, hsample]

/-- What a clock makes of the decoder. -/
def follow (d : Drive) (s : UartliteRx n δ φ) (dec : Decoder) : Decoder × Option Event :=
  if d.en16xBaud then dec.tick (sampling n) s.rx2 else (dec, none)

theorem shows_step (hp : p.shreg.Contract) (h : Shows p dec s) (d : Drive) :
    Shows p (follow d s dec).1 (step p d s) := by
  unfold follow
  cases hen : d.en16xBaud with
  | false =>
    cases dec with
    | idle before => exact Quiet.pause hp h hen
    | frame age taken => exact InFrame.pause hp h hen
  | true =>
    cases dec with
    | idle before => exact Quiet.tick hp h hen
    | frame age taken =>
      rw [if_pos rfl, Decoder.tick, point_eq]
      split
      · rename_i hpoint
        split
        · rename_i hfull
          exact InFrame.finish hp h hen hpoint hfull
        · rename_i hmore
          exact InFrame.sample hp h hen hpoint hmore
      · rename_i hpoint
        exact InFrame.wait hp h hen hpoint

/-- The words that are written to the FIFO, one at most. -/
def pending (s : UartliteRx n δ φ) : List (BitVec n.bits) :=
  if s.fifoWrite then [s.fifoDin] else []

/-- The words among what the decoder has brought. -/
def words (n : DataBits) (events : List Event) : List (BitVec n.bits) :=
  events.filterMap fun e => match e with
    | .word data => some (wordOf n data)
    | .broken => none

theorem words_append (events events' : List Event) :
    words n (events ++ events') = words n events ++ words n events' := List.filterMap_append

/-- A word is written on the clock after its stop bit. -/
theorem pending_step (h : Shows p dec s) (d : Drive) :
    pending (step p d s) = words n (follow d s dec).2.toList := by
  have hwrite : (step p d s).fifoWrite =
      (s.stopBitPosition && s.rx2 && s.samplePoint p && d.en16xBaud) := rfl
  unfold pending follow
  cases hen : d.en16xBaud with
  | false =>
    rw [hwrite, hen, Bool.and_false]
    rfl
  | true =>
    rw [hwrite, hen, Bool.and_true]
    cases dec with
    | idle before =>
      rw [Quiet.stop h]
      rfl
    | frame age taken =>
      have hsample := InFrame.sample_point h
      have hstop := InFrame.stop h
      have hmid := InFrame.mid_start h
      rw [if_pos rfl, Decoder.tick, point_eq, hsample, hstop]
      by_cases hpoint : age + 1 = 24 + 16 * taken.length
      · rw [if_pos hpoint]
        by_cases hfull : taken.length = n.bits
        · rw [if_pos (show taken.length = (sampling n).bits from hfull), decide_eq_true hpoint,
            decide_eq_true hfull]
          cases hlevel : s.rx2 with
          | false => rfl
          | true =>
            have hdin : (step p d s).fifoDin = s.fifoDin := by
              rw [decide_eq_false (show ¬age = 7 by omega)] at hmid
              rw [decide_eq_true hfull] at hstop
              simp [step, clock, hmid, serialToPar, hstop]
            rw [hdin, (InFrame.shifted h (by omega)).word hfull]
            rfl
        · rw [if_neg (show ¬taken.length = (sampling n).bits from hfull), decide_eq_false hfull]
          rfl
      · rw [if_neg hpoint, decide_eq_false hpoint, Bool.and_false]
        rfl

theorem frame_error_iff (h : Shows p dec s) (d : Drive) :
    rxFrameError p d s = true ↔ (follow d s dec).2 = some .broken := by
  unfold rxFrameError follow
  cases hen : d.en16xBaud with
  | false => simp
  | true =>
    cases dec with
    | idle before =>
      rw [Quiet.stop h]
      simp [Decoder.tick]
    | frame age taken =>
      rw [InFrame.sample_point h, InFrame.stop h, if_pos rfl, Decoder.tick, point_eq]
      by_cases hpoint : age + 1 = 24 + 16 * taken.length
      · rw [if_pos hpoint]
        by_cases hfull : taken.length = n.bits
        · rw [if_pos (show taken.length = (sampling n).bits from hfull), decide_eq_true hpoint,
            decide_eq_true hfull]
          cases s.rx2 <;> simp
        · rw [if_neg (show ¬taken.length = (sampling n).bits from hfull), decide_eq_false hfull]
          simp
      · rw [if_neg hpoint, decide_eq_false hpoint]
        simp

variable {contents : φ → List (BitVec n.bits)}

/-- The word that the host takes out, if any. -/
def readNow (p : ProcCommon n δ φ) (d : Drive) (s : UartliteRx n δ φ) : List (BitVec n.bits) :=
  if d.readRxFifo && !s.rxDataEmpty p then [s.rxData p] else []

/-- The words written on this clock that the FIFO has room for. -/
def accepted (p : ProcCommon n δ φ) (s : UartliteRx n δ φ) : List (BitVec n.bits) :=
  if s.rxOverrunError p then [] else pending s

theorem accepted_eq (p : ProcCommon n δ φ) (s : UartliteRx n δ φ) :
    accepted p s = if s.fifoWrite && !p.fifo.fifoFull s.fifo then [s.fifoDin] else [] := by
  rw [accepted, rxOverrunError, rxBufferFull, pending]
  cases s.fifoWrite <;> cases p.fifo.fifoFull s.fifo <;> rfl

theorem read_first (hf : p.fifo.Contract contents) (d : Drive) (s : UartliteRx n δ φ) :
    readNow p d s ++ (if d.readRxFifo then (contents s.fifo).tail else contents s.fifo) =
      contents s.fifo := by
  rw [readNow, rxDataEmpty, hf.empty_eq, rxData]
  cases d.readRxFifo with
  | false => rfl
  | true =>
    cases hwords : contents s.fifo with
    | nil => rfl
    | cons w ws =>
      rw [hf.data_out s.fifo w ws hwords]
      rfl

/-- Nothing that could get lost is in the receiver when its FIFO is cleared. -/
def Spared (contents : φ → List (BitVec n.bits)) (d : Drive) (s : UartliteRx n δ φ) : Prop :=
  d.resetRxFifo = true → contents s.fifo = [] ∧ s.fifoWrite = false

/-- Nothing else goes into the FIFO, and nothing in it is lost. -/
theorem fifo_step (hf : p.fifo.Contract contents) (hspared : Spared contents d s) :
    readNow p d s ++ contents (step p d s).fifo = contents s.fifo ++ accepted p s := by
  have hread := read_first hf d s
  have hfifo : (step p d s).fifo = p.fifo.clock d.resetRxFifo
      (s.fifoWrite && !p.fifo.fifoFull s.fifo) s.fifoDin
      (d.readRxFifo && !p.fifo.fifoEmpty s.fifo) s.fifo := rfl
  rw [hfifo, accepted_eq]
  cases hreset : d.resetRxFifo with
  | false => rw [hf.guarded, ← List.append_assoc, hread]
  | true =>
    obtain ⟨hnil, hwrite⟩ := hspared hreset
    rw [hnil] at hread ⊢
    rw [hf.reset, hwrite]
    cases hnow : readNow p d s with
    | nil => rfl
    | cons w ws =>
      rw [hnow] at hread
      cases hread

variable {line : ℕ → Bool} {r : Run (step p)}

/-- How many ticks there have been. -/
def ticks (r : Run (step p)) (c : ℕ) : ℕ :=
  Nat.count (fun k => (r.input k).en16xBaud = true) c

/-- `RX` two clocks before, or what the registers start with. -/
def synced (r : Run (step p)) : ℕ → Bool
  | 0 => (r.state 0).rx2
  | 1 => (r.state 0).rx1
  | c + 2 => (r.input c).rx

theorem synced_eq (r : Run (step p)) (c : ℕ) : (r.state c).rx2 = synced r c := by
  match c with
  | 0 => rfl
  | 1 =>
    rw [r.next 0]
    rfl
  | c + 2 =>
    rw [r.next (c + 1), r.next c]
    rfl

/-- `line` is that level at each tick. -/
def Hears (r : Run (step p)) (line : ℕ → Bool) : Prop :=
  ∀ c, (r.input c).en16xBaud = true → line (ticks r c) = synced r c

/-- `RX` two clocks before the tick number `i`. -/
noncomputable def heard (r : Run (step p)) (i : ℕ) : Bool :=
  synced r (Nat.nth (fun c => (r.input c).en16xBaud = true) i)

theorem hears_heard (r : Run (step p)) : Hears r (heard r) := by
  intro c hen
  rw [heard, ticks, Nat.nth_count hen]

/-- What has been written before clock `c`. -/
def written (r : Run (step p)) : ℕ → List (BitVec n.bits)
  | 0 => []
  | c + 1 => written r c ++ pending (r.state c)

/-- The part of it that was not reported as an overrun. -/
def kept (r : Run (step p)) : ℕ → List (BitVec n.bits)
  | 0 => []
  | c + 1 => kept r c ++ accepted p (r.state c)

/-- What the host has taken out. -/
def readOut (r : Run (step p)) : ℕ → List (BitVec n.bits)
  | 0 => []
  | c + 1 => readOut r c ++ readNow p (r.input c) (r.state c)

theorem follow_heard (hline : Hears r line) (c : ℕ) :
    follow (r.input c) (r.state c) (Decoder.after (sampling n) line dec (ticks r c)) =
      (Decoder.after (sampling n) line dec (ticks r (c + 1)),
        if (r.input c).en16xBaud then Decoder.event (sampling n) line dec (ticks r c)
        else none) := by
  rw [follow, ticks, ticks, Nat.count_succ]
  cases hen : (r.input c).en16xBaud with
  | false => rfl
  | true =>
    have hlevel := hline c hen
    rw [if_pos rfl, if_pos rfl, if_pos rfl, synced_eq, ← hlevel]
    rfl

theorem events_heard (r : Run (step p)) (c : ℕ) :
    Decoder.events (sampling n) line dec (ticks r (c + 1)) =
      Decoder.events (sampling n) line dec (ticks r c) ++
        (if (r.input c).en16xBaud then Decoder.event (sampling n) line dec (ticks r c)
          else none).toList := by
  rw [ticks, ticks, Nat.count_succ]
  cases hen : (r.input c).en16xBaud with
  | false => simp
  | true => rfl

theorem run_shows (hp : p.shreg.Contract) (hstart : Shows p dec (r.state 0))
    (hline : Hears r line) (c : ℕ) :
    Shows p (Decoder.after (sampling n) line dec (ticks r c)) (r.state c) := by
  induction c with
  | zero => exact hstart
  | succ c ih =>
    have hstep := shows_step hp ih (r.input c)
    rw [follow_heard hline] at hstep
    rw [r.next]
    exact hstep

theorem frame_error_at (hp : p.shreg.Contract) (hstart : Shows p dec (r.state 0))
    (hline : Hears r line) (c : ℕ) :
    rxFrameError p (r.input c) (r.state c) = true ↔ (r.input c).en16xBaud = true ∧
      Decoder.event (sampling n) line dec (ticks r c) = some .broken := by
  rw [frame_error_iff (run_shows hp hstart hline c), follow_heard hline]
  cases (r.input c).en16xBaud <;> simp

theorem written_eq (hp : p.shreg.Contract) (hstart : Shows p dec (r.state 0))
    (hline : Hears r line) (c : ℕ) :
    written r c ++ pending (r.state c) = pending (r.state 0) ++
      words n (Decoder.events (sampling n) line dec (ticks r c)) := by
  induction c with
  | zero => exact (List.append_nil _).symm
  | succ c ih =>
    have hpending := pending_step (run_shows hp hstart hline c) (r.input c)
    rw [follow_heard hline] at hpending
    rw [written, r.next, hpending, ih, List.append_assoc, ← words_append, events_heard]

theorem kept_eq (hf : p.fifo.Contract contents)
    (hspared : ∀ k < c, Spared contents (r.input k) (r.state k)) :
    readOut r c ++ contents (r.state c).fifo = contents (r.state 0).fifo ++ kept r c := by
  induction c with
  | zero => exact (List.append_nil _).symm
  | succ c ih =>
    have hfifo := fifo_step hf (hspared c (Nat.lt_succ_self c))
    rw [readOut, r.next, List.append_assoc, hfifo, ← List.append_assoc,
      ih fun k hk => hspared k (Nat.lt_succ_of_lt hk), kept, List.append_assoc]

theorem kept_written (h : ∀ k < c, (r.state k).rxOverrunError p = false) :
    kept r c = written r c := by
  induction c with
  | zero => rfl
  | succ c ih =>
    rw [kept, written, ih fun k hk => h k (Nat.lt_succ_of_lt hk), accepted,
      h c (Nat.lt_succ_self c)]
    rfl

theorem kept_length (r : Run (step p)) (c : ℕ) : (kept r c).length ≤ (written r c).length := by
  induction c with
  | zero => exact Nat.le_refl _
  | succ c ih =>
    rw [kept, written, List.length_append, List.length_append, accepted]
    split
    · rw [List.length_nil]
      omega
    · omega

theorem written_mono (r : Run (step p)) (h : k ≤ c) : written r k <+: written r c := by
  induction c, h using Nat.le_induction with
  | base => exact List.prefix_refl _
  | succ c hc ih => exact ih.trans (List.prefix_append ..)

/-- The FIFO has room for 16 words that nobody reads. -/
theorem no_overrun (hf : p.fifo.Contract contents) (hempty : contents (r.state 0).fifo = [])
    (hspared : ∀ k < c, Spared contents (r.input k) (r.state k))
    (hfew : (written r c).length ≤ 16) (hk : k < c) :
    (r.state k).rxOverrunError p = false := by
  rw [Bool.eq_false_iff]
  intro hover
  rw [rxOverrunError, Bool.and_eq_true, rxBufferFull, hf.full_eq, beq_iff_eq] at hover
  obtain ⟨hfull, hwrite⟩ := hover
  have hlater := (written_mono r (show k + 1 ≤ c from hk)).length_le
  have hkept := kept_length r k
  have hread := congrArg List.length
    (kept_eq hf fun j hj => hspared j (Nat.lt_trans hj hk))
  rw [hempty, List.nil_append, List.length_append, hfull] at hread
  rw [written, pending, hwrite, if_pos rfl, List.length_append, List.length_singleton] at hlater
  omega

/-- Whatever comes in on `RX`, the words of its frames are written in order and no others are.
The host gets those that were not reported as an overrun, also when it reads on the very clock
that reports one. A frame error is reported exactly on the tick that finds a frame without its
stop bit. -/
theorem receives_decoded (hc : p.Contract contents) (hstart : Shows p dec (r.state 0)) (c : ℕ) :
    written r c ++ pending (r.state c) = pending (r.state 0) ++
        words n (Decoder.events (sampling n) (heard r) dec (ticks r c)) ∧
      ((∀ k < c, (r.input k).resetRxFifo = false) →
        readOut r c ++ contents (r.state c).fifo = contents (r.state 0).fifo ++ kept r c) ∧
      (rxFrameError p (r.input c) (r.state c) = true ↔ (r.input c).en16xBaud = true ∧
        Decoder.event (sampling n) (heard r) dec (ticks r c) = some .broken) := by
  refine ⟨written_eq hc.shreg hstart (hears_heard r) c, ?_,
    frame_error_at hc.shreg hstart (hears_heard r) c⟩
  intro hkept
  refine kept_eq hc.fifo fun k hk hreset => ?_
  rw [hkept k hk] at hreset
  cases hreset

/-- A receiver with nothing in it. -/
def restingRx (n : DataBits) : UartliteRx n (BitVec 16) (SrlFifo (BitVec n.bits)) where
  rx1 := true
  rx2 := true
  previousRx := true
  startEdgeDetected := false
  running := false
  midStartSrl := 0
  delaySrl := 0
  stopBitPosition := false
  fifoDin := 0
  fifoWrite := false
  fifo := .empty

theorem resting_quiet (n : DataBits) : Quiet (listed n) true (restingRx n) :=
  ⟨rfl, rfl, rfl, listed_stages n 0, listed_stages n 0, rfl⟩

/-- A tick on every clock, a frame at 16 ticks a bit, and a host that reads once. -/
def frameRun (n : DataBits) (data : List Bool) : Run (step (listed n)) :=
  Run.ofInputs (step (listed n)) (restingRx n) fun c =>
    ⟨true, lineAt 16 0 [⟨8, data⟩] c, decide (c = 250), false⟩

theorem frame_run_ticks (n : DataBits) (data : List Bool) (c : ℕ) :
    ticks (frameRun n data) c = c := Nat.count_iff_forall.mpr fun _ _ => rfl

theorem frame_run_hears (n : DataBits) (data : List Bool) :
    Hears (frameRun n data) fun i => lineAt 16 0 [⟨10, data⟩] (0 + i * 1) := by
  intro c _
  change lineAt 16 0 [⟨10, data⟩] (0 + ticks (frameRun n data) c * 1) = _
  rw [frame_run_ticks, Nat.mul_one, Nat.zero_add]
  match c with
  | 0 => rfl
  | 1 => rfl
  | c + 2 => exact line_delayed 2 [⟨8, data⟩] c

theorem frame_run_heard (n : DataBits) (data : List Bool) (i : ℕ) :
    heard (frameRun n data) i = lineAt 16 0 [⟨10, data⟩] (0 + i * 1) := by
  have hheard := hears_heard (frameRun n data) i rfl
  have hline := frame_run_hears n data i rfl
  rw [frame_run_ticks] at hheard hline
  exact hheard.trans hline.symm

theorem frame_run_spared (n : DataBits) (data : List Bool) (k : ℕ) :
    Spared SrlFifo.words ((frameRun n data).input k) ((frameRun n data).state k) := by
  intro hreset
  cases hreset

theorem frame_run_unread (n : DataBits) (data : List Bool) (hc : c ≤ 250) :
    readOut (frameRun n data) c = [] := by
  induction c with
  | zero => rfl
  | succ c ih =>
    have hnow : ((frameRun n data).input c).readRxFifo = false := decide_eq_false (by omega)
    rw [readOut, ih (by omega), readNow, hnow]
    rfl

def byte55 : List Bool := [true, false, true, false, true, false, true, false]

theorem frame_received : ∃ n : DataBits, n.bits = 8 ∧
    (readOut (frameRun n byte55) 251).map BitVec.toNat = [0x55] := by
  obtain ⟨n, hn⟩ : ∃ n : DataBits, n.bits = 8 := ⟨⟨8, by decide, by decide⟩, rfl⟩
  refine ⟨n, hn, ?_⟩
  have hcontract := listed_contract n
  have hquiet : Shows (listed n) (.idle true) ((frameRun n byte55).state 0) := resting_quiet n
  have htolerates : Tolerates (sampling n) 16 0 1 := by
    refine ⟨Nat.one_pos, fun j _ => ?_, fun j _ => ?_⟩
    · rw [point_eq]
      omega
    · rw [point_eq]
      omega
  have hevents : Decoder.events (sampling n) (heard (frameRun n byte55)) (.idle true) 249 =
      [.word byte55] := by
    rw [(Decoder.after_congr fun i _ => frame_run_heard n byte55 i).2]
    refine decodes_sent (t := 10) htolerates ⟨Nat.le_refl 10, hn.symm, trivial⟩ (by decide) ?_
    change 10 + (n.bits + 2) * 16 ≤ 0 + 249 * 1
    rw [hn]
    decide
  have hwritten : written (frameRun n byte55) 250 = [wordOf n byte55] := by
    have hdecoded := (receives_decoded hcontract hquiet 249).1
    rw [frame_run_ticks, hevents] at hdecoded
    exact hdecoded
  have hroom : ∀ k < 250, ((frameRun n byte55).state k).rxOverrunError (listed n) = false :=
    fun k hk => no_overrun hcontract.fifo rfl (fun j _ => frame_run_spared n byte55 j)
      (by rw [hwritten]; exact (by decide : 1 ≤ 16)) hk
  have hempty : SrlFifo.words ((frameRun n byte55).state 0).fifo = [] := rfl
  have hfifo := (receives_decoded hcontract hquiet 250).2.1 fun _ _ => rfl
  rw [frame_run_unread n byte55 (Nat.le_refl 250), kept_written hroom, hwritten, hempty,
    List.nil_append, List.nil_append] at hfifo
  have hread : readNow (listed n) ((frameRun n byte55).input 250)
      ((frameRun n byte55).state 250) = [wordOf n byte55] := by
    have hfirst := read_first hcontract.fifo ((frameRun n byte55).input 250)
      ((frameRun n byte55).state 250)
    have hnow : ((frameRun n byte55).input 250).readRxFifo = true := rfl
    rw [hnow, if_pos rfl, hfifo] at hfirst
    exact (List.append_nil _).symm.trans hfirst
  rw [readOut, frame_run_unread n byte55 (Nat.le_refl 250), hread, List.nil_append,
    List.map_singleton, wordOf, BitVec.toNat_setWidth, hn]
  rfl

end Vp2Motion.Proofs.Receiver
