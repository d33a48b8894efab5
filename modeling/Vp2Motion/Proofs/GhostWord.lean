import Vp2Motion.Proofs.Receiver

namespace Vp2Motion.Proofs.GhostWord
open Hdl Hdl.UartliteRx Clocked Receiver

variable {n : DataBits} {δ φ : Type} {p : ProcCommon n δ φ} {s : UartliteRx n δ φ} {k : ℕ}

/-- The 1 of the delay line is in stage `k`, and none is on its way there. A reset leaves both
shift registers as they are. -/
structure Circling (p : ProcCommon n δ φ) (k : ℕ) (s : UartliteRx n δ φ) : Prop where
  low : k < 16
  delay : p.shreg.stages s.delaySrl = BitVec.twoPow 16 k
  noMid : ∀ j ≤ 6, (p.shreg.stages s.midStartSrl).getLsbD j = false
  startEdge : s.startEdgeDetected = false

theorem Circling.mid_start (h : Circling p k s) : s.midStartBit p = false := by
  rw [mid_start_get]
  exact h.noMid 6 (Nat.le_refl 6)

theorem Circling.sample_point (h : Circling p k s) : s.samplePoint p = decide (k = 15) := by
  have hlow := h.low
  rw [sample_point_get, h.delay, BitVec.getLsbD_twoPow, Bool.eq_iff_iff]
  simp
  omega

theorem Circling.recycle_eq (h : Circling p k s) :
    s.recycle p = (!s.stopBitPosition && decide (k = 15)) := by
  rw [recycle, h.mid_start, h.sample_point, Bool.false_or]

theorem shift_cleared {srl : BitVec 16} (h : ∀ j ≤ m, srl.getLsbD j = false) (hj : j ≤ m + 1) :
    (shiftIn false srl).getLsbD j = false := by
  have hzero : (BitVec.ofBool false).setWidth 16 = 0#16 := by decide
  rw [shiftIn, hzero, BitVec.or_zero, BitVec.getLsbD_shiftLeft, h (j - 1) (by omega),
    Bool.and_false]

theorem Circling.no_mid_clock (hp : p.shreg.Contract) (h : Circling p k s) (i : Inputs)
    (hj : j ≤ 6) : (p.shreg.stages (clock p i s).midStartSrl).getLsbD j = false := by
  have hshift : p.shreg.stages (clock p i s).midStartSrl =
      if i.en16xBaud then shiftIn s.startEdgeDetected (p.shreg.stages s.midStartSrl)
      else p.shreg.stages s.midStartSrl := hp.stages_clock ..
  rw [hshift]
  split
  · rw [h.startEdge]
    exact shift_cleared h.noMid (by omega)
  · exact h.noMid j hj

/-- The 1 goes round as long as the stop bit is not expected, with a reset or without. -/
theorem Circling.clock (hp : p.shreg.Contract) (h : Circling p k s) (i : Inputs)
    (hstay : ¬(i.en16xBaud = true ∧ k = 15 ∧ s.stopBitPosition = true))
    (hedge : (UartliteRx.clock p i s).startEdgeDetected = false) :
    Circling p (if i.en16xBaud then (k + 1) % 16 else k) (UartliteRx.clock p i s) := by
  have hlow := h.low
  have hshift : p.shreg.stages (UartliteRx.clock p i s).delaySrl =
      if i.en16xBaud then shiftIn (s.recycle p) (p.shreg.stages s.delaySrl)
      else p.shreg.stages s.delaySrl := hp.stages_clock ..
  refine ⟨?_, ?_, fun j hj => h.no_mid_clock hp i hj, hedge⟩
  · split
    · exact Nat.mod_lt _ (by decide)
    · exact hlow
  · rw [hshift, h.recycle_eq, h.delay]
    cases hen : i.en16xBaud with
    | false => rfl
    | true =>
      rw [if_pos rfl, if_pos rfl]
      by_cases hlast : k = 15
      · have hstop : s.stopBitPosition = false := by
          rw [Bool.eq_false_iff]
          intro hstop
          exact hstay ⟨hen, hlast, hstop⟩
        rw [hstop, hlast]
        exact shift_out
      · rw [decide_eq_false hlast, Bool.and_false, shift_two_pow, Nat.mod_eq_of_lt (by omega)]

/-- A reset on the way from the middle of the start bit to the stop bit. -/
theorem circling_of_frame (h : InFrame p age taken s) (hage : 8 ≤ age) :
    Circling p ((age - 8) % 16) s := by
  refine ⟨Nat.mod_lt _ (by decide), ?_, ?_, ?_⟩
  · rw [h.delay, if_pos hage]
  · intro j hj
    rw [h.midStart, if_neg (by omega), BitVec.getLsbD_twoPow, Bool.eq_false_iff]
    simp
    omega
  · rw [h.startEdge, decide_eq_false (by omega)]

/-- No frame is received, but the 1 goes round. The `i` bits that came in last are 1. -/
structure Haunted (p : ProcCommon n δ φ) (i k : ℕ) (s : UartliteRx n δ φ) : Prop
    extends Circling p k s where
  rx1 : s.rx1 = true
  rx2 : s.rx2 = true
  running : s.running = false
  stop : s.stopBitPosition = false
  noWrite : s.fifoWrite = false
  ones : ∀ t < n.bits, n.bits ≤ t + i → s.fifoDin.getLsbD t = true

theorem reset_haunted (hp : p.shreg.Contract) (h : Circling p k s) {i : Inputs}
    (hreset : i.reset = true)
    (hstay : ¬(i.en16xBaud = true ∧ k = 15 ∧ s.stopBitPosition = true)) :
    ∃ k, Haunted p 0 k (clock p i s) := by
  have hedge : (clock p i s).startEdgeDetected = false := if_pos hreset
  refine ⟨_, h.clock hp i hstay hedge, if_pos hreset, if_pos hreset, if_pos hreset,
    if_pos hreset, if_pos hreset, ?_⟩
  intro t ht hle
  omega

/-- The stop bit is expected. -/
structure Ending (p : ProcCommon n δ φ) (k : ℕ) (s : UartliteRx n δ φ) : Prop
    extends Circling p k s where
  rx1 : s.rx1 = true
  rx2 : s.rx2 = true
  stop : s.stopBitPosition = true
  noWrite : s.fifoWrite = false
  cleared : ∀ j ≤ k, (p.shreg.stages s.midStartSrl).getLsbD j = false

structure Silent (p : ProcCommon n δ φ) (s : UartliteRx n δ φ) : Prop
    extends Quiet p true s where
  rx1 : s.rx1 = true
  rx2 : s.rx2 = true

section Step
variable {d : Drive} {i : ℕ}

theorem no_edge (hedge : s.startEdgeDetected = false) (hrx2 : s.rx2 = true) (d : Drive) :
    (step p d s).startEdgeDetected = false := by
  cases hen : d.en16xBaud <;> simp [step, clock, hen, hedge, hrx2]

theorem Haunted.pause (hp : p.shreg.Contract) (h : Haunted p i k s) (hrx : d.rx = true)
    (hen : d.en16xBaud = false) :
    Haunted p i k (step p d s) := by
  have hcircling := h.toCircling.clock hp ⟨d, false⟩ (by simp [hen])
    (no_edge h.startEdge h.rx2 d)
  have hmid := h.mid_start
  simp only [hen, Bool.false_eq_true, ↓reduceIte] at hcircling
  obtain ⟨-, hrx1, -, hrunning, hstop, hwrite, hones⟩ := h
  refine ⟨hcircling, ?_, ?_, ?_, ?_, ?_, ?_⟩
  · simpa [step, clock] using hrx
  · simpa [step, clock] using hrx1
  · simpa [step, clock, hen] using hrunning
  · simpa [step, clock, hen] using hstop
  · simp [step, clock, hen]
  · intro t ht hle
    simpa [step, clock, hen, hmid] using hones t ht hle

/-- A tick between two samples. -/
theorem Haunted.wait (hp : p.shreg.Contract) (h : Haunted p i k s) (hrx : d.rx = true)
    (hen : d.en16xBaud = true) (hk : k ≠ 15) : Haunted p i (k + 1) (step p d s) := by
  have hlow := h.low
  have hcircling := h.toCircling.clock hp ⟨d, false⟩ (by simp [hk])
    (no_edge h.startEdge h.rx2 d)
  have hmid := h.mid_start
  have hsample := h.sample_point
  rw [decide_eq_false hk] at hsample
  rw [if_pos hen, Nat.mod_eq_of_lt (by omega)] at hcircling
  have hedge := h.startEdge
  obtain ⟨-, hrx1, -, hrunning, hstop, hwrite, hones⟩ := h
  refine ⟨hcircling, ?_, ?_, ?_, ?_, ?_, ?_⟩
  · simpa [step, clock] using hrx
  · simpa [step, clock] using hrx1
  · simp [step, clock, hen, hedge, hsample, hrunning]
  · simp [step, clock, hen, hstop, hsample]
  · simp [step, clock, hstop]
  · intro t ht hle
    simpa [step, clock, hen, hmid, serialToPar, hsample] using hones t ht hle

/-- What a sample shifts in. -/
theorem Haunted.shifted (h : Haunted p i 15 s) (hen : d.en16xBaud = true) :
    (step p d s).fifoDin = s.fifoDin >>> 1 ||| startMark n := by
  simp [step, clock, hen, h.mid_start, serialToPar, h.sample_point, h.stop, h.rx2]

theorem Haunted.more_ones (h : Haunted p i 15 s) (hen : d.en16xBaud = true) (ht : t < n.bits)
    (hle : n.bits ≤ t + (i + 1)) : (step p d s).fifoDin.getLsbD t = true := by
  rw [h.shifted hen, BitVec.getLsbD_or, start_mark_get]
  by_cases htop : t + 1 = n.bits
  · rw [decide_eq_true htop, Bool.or_true]
  · rw [BitVec.getLsbD_ushiftRight, Nat.add_comm 1 t, h.ones (t + 1) (by omega) (by omega),
      Bool.true_or]

/-- A sample that does not find a 1 at the end of the register. -/
theorem Haunted.sample (hp : p.shreg.Contract) (h : Haunted p i 15 s) (hrx : d.rx = true)
    (hen : d.en16xBaud = true) (hend : s.fifoDin.getLsbD 0 = false) :
    i < n.bits ∧ Haunted p (i + 1) 0 (step p d s) := by
  have hlow := n.low
  have hfew : i < n.bits := by
    by_contra hmany
    rw [h.ones 0 (by omega) (by omega)] at hend
    cases hend
  have hcircling := h.toCircling.clock hp ⟨d, false⟩ (by simp [h.stop])
    (no_edge h.startEdge h.rx2 d)
  rw [if_pos hen] at hcircling
  have hones := fun t ht hle => h.more_ones hen (t := t) ht hle
  have hsample := h.sample_point
  have hedge := h.startEdge
  obtain ⟨-, hrx1, -, hrunning, hstop, hwrite, -⟩ := h
  refine ⟨hfew, hcircling, ?_, ?_, ?_, ?_, ?_, hones⟩
  · simpa [step, clock] using hrx
  · simpa [step, clock] using hrx1
  · simp [step, clock, hen, hedge, hstop, hrunning]
  · simp [step, clock, hen, hstop, hend]
  · simp [step, clock, hstop]

/-- A sample that does. -/
theorem Haunted.expect (hp : p.shreg.Contract) (h : Haunted p i 15 s) (hrx : d.rx = true)
    (hen : d.en16xBaud = true) (hend : s.fifoDin.getLsbD 0 = true) : Ending p 0 (step p d s) := by
  have hcircling := h.toCircling.clock hp ⟨d, false⟩ (by simp [h.stop])
    (no_edge h.startEdge h.rx2 d)
  rw [if_pos hen] at hcircling
  have hsample := h.sample_point
  obtain ⟨-, hrx1, -, hrunning, hstop, hwrite, -⟩ := h
  refine ⟨hcircling, ?_, ?_, ?_, ?_, fun j hj => hcircling.noMid j (by omega)⟩
  · simpa [step, clock] using hrx
  · simpa [step, clock] using hrx1
  · simp [step, clock, hen, hstop, hend, hsample]
  · simp [step, clock, hstop]

theorem Ending.pause (hp : p.shreg.Contract) (h : Ending p k s) (hrx : d.rx = true)
    (hen : d.en16xBaud = false) :
    Ending p k (step p d s) := by
  have hcircling := h.toCircling.clock hp ⟨d, false⟩ (by simp [hen])
    (no_edge h.startEdge h.rx2 d)
  simp only [hen, Bool.false_eq_true, ↓reduceIte] at hcircling
  have hmid' := mid_step hp d s
  obtain ⟨-, hrx1, -, hstop, hwrite, hcleared⟩ := h
  refine ⟨hcircling, ?_, ?_, ?_, ?_, ?_⟩
  · simpa [step, clock] using hrx
  · simpa [step, clock] using hrx1
  · simpa [step, clock, hen] using hstop
  · simp [step, clock, hen]
  · intro j hj
    rw [hmid', hen]
    exact hcleared j hj

theorem Ending.mid_shift (hp : p.shreg.Contract) (h : Ending p k s) (hen : d.en16xBaud = true) :
    p.shreg.stages (step p d s).midStartSrl = shiftIn false (p.shreg.stages s.midStartSrl) := by
  rw [mid_step hp, if_pos hen, h.startEdge]

theorem Ending.wait (hp : p.shreg.Contract) (h : Ending p k s) (hrx : d.rx = true)
    (hen : d.en16xBaud = true) (hk : k ≠ 15) : Ending p (k + 1) (step p d s) := by
  have hlow := h.low
  have hcircling := h.toCircling.clock hp ⟨d, false⟩ (by simp [hk])
    (no_edge h.startEdge h.rx2 d)
  have hsample := h.sample_point
  rw [decide_eq_false hk] at hsample
  rw [if_pos hen, Nat.mod_eq_of_lt (by omega)] at hcircling
  have hshift := h.mid_shift hp hen
  obtain ⟨-, hrx1, -, hstop, hwrite, hcleared⟩ := h
  refine ⟨hcircling, ?_, ?_, ?_, ?_, ?_⟩
  · simpa [step, clock] using hrx
  · simpa [step, clock] using hrx1
  · simp [step, clock, hen, hstop, hsample]
  · simp [step, clock, hsample]
  · intro j hj
    rw [hshift]
    exact shift_cleared hcleared hj

/-- The word is written, and the receiver is at rest. -/
theorem Ending.finish (hp : p.shreg.Contract) (h : Ending p 15 s) (hrx : d.rx = true)
    (hen : d.en16xBaud = true) :
    Silent p (step p d s) ∧ (step p d s).fifoWrite = true := by
  have hshift := h.mid_shift hp hen
  have hsample : s.samplePoint p = true := h.sample_point
  have hrecycle := h.recycle_eq
  have hstart := h.startEdge
  have hedge : (step p d s).startEdgeDetected = false := no_edge h.startEdge h.rx2 d
  obtain ⟨⟨-, hdelay, -, -⟩, hrx1, hrx2, hstop, -, hcleared⟩ := h
  rw [hstop] at hrecycle
  refine ⟨⟨⟨?_, hedge, ?_, ?_, ?_, ?_⟩, ?_, ?_⟩, ?_⟩
  · simpa [step, clock, hen] using hrx2
  · simp [step, clock, hen, hstart, hsample, hstop]
  · rw [hshift]
    apply BitVec.eq_of_getLsbD_eq
    intro j hj
    rw [shift_cleared hcleared (by omega)]
    simp
  · rw [delay_step hp, if_pos hen, hrecycle, hdelay]
    exact shift_last
  · simp [step, clock, hen, hstop, hsample]
  · simpa [step, clock] using hrx
  · simpa [step, clock] using hrx1
  · simp [step, clock, hen, hstop, hsample, hrx2]

theorem Silent.step (hp : p.shreg.Contract) (h : Silent p s) (hrx : d.rx = true) :
    Silent p (UartliteRx.step p d s) ∧ (UartliteRx.step p d s).fifoWrite = false := by
  have hquiet : Quiet p true (UartliteRx.step p d s) := by
    cases hen : d.en16xBaud with
    | false => exact h.toQuiet.pause hp hen
    | true =>
      have htick := h.toQuiet.tick hp hen
      rw [h.rx2] at htick
      exact htick
  have hstop := h.stop
  have hrx1 := h.rx1
  refine ⟨⟨hquiet, ?_, ?_⟩, ?_⟩
  · simpa [UartliteRx.step, clock] using hrx
  · simpa [UartliteRx.step, clock] using hrx1
  · simp [UartliteRx.step, clock, hstop]

end Step

/-- Within so many ticks the ghost has come and gone. -/
def lastTick (n : DataBits) : ℕ := 16 * (n.bits + 2)

/-- How far the ghost has got before clock `c`. -/
inductive Phase (r : Run (step p)) (c : ℕ) : Prop where
  | haunted (i k : ℕ) (h : Haunted p i k (r.state c)) (hnone : written r c = [])
      (hticks : ticks r c + (16 - k) + 16 * (n.bits - i) + 16 ≤ lastTick n)
  | ending (k : ℕ) (h : Ending p k (r.state c)) (hnone : written r c = [])
      (hticks : ticks r c + (16 - k) ≤ lastTick n)
  | gone (w : BitVec n.bits) (h : Silent p (r.state c))
      (hone : written r c ++ pending (r.state c) = [w])

theorem written_none {r : Run (step p)} (hnone : written r c = [])
    (hwrite : (r.state c).fifoWrite = false) : written r (c + 1) = [] := by
  rw [written, hnone, pending, hwrite]
  rfl

theorem ticks_succ (r : Run (step p)) (c : ℕ) :
    ticks r (c + 1) = ticks r c + if (r.input c).en16xBaud then 1 else 0 := Nat.count_succ ..

theorem Phase.next {r : Run (step p)} (hp : p.shreg.Contract) (hrx : (r.input c).rx = true)
    (h : Phase r c) : Phase r (c + 1) := by
  have hticks := ticks_succ r c
  cases h with
  | haunted i k h hnone hbound =>
    have hnone' := written_none hnone h.noWrite
    have hlow := h.low
    cases hen : (r.input c).en16xBaud with
    | false =>
      rw [hen] at hticks
      exact .haunted i k (r.next c ▸ h.pause hp hrx hen) hnone' (by rw [hticks]; exact hbound)
    | true =>
      rw [hen, if_pos rfl] at hticks
      by_cases hk : k = 15
      · subst hk
        cases hend : (r.state c).fifoDin.getLsbD 0 with
        | false =>
          obtain ⟨hfew, hnext⟩ := h.sample hp hrx hen hend
          exact .haunted (i + 1) 0 (r.next c ▸ hnext) hnone' (by omega)
        | true => exact .ending 0 (r.next c ▸ h.expect hp hrx hen hend) hnone' (by omega)
      · exact .haunted i (k + 1) (r.next c ▸ h.wait hp hrx hen hk) hnone' (by omega)
  | ending k h hnone hbound =>
    have hnone' := written_none hnone h.noWrite
    have hlow := h.low
    cases hen : (r.input c).en16xBaud with
    | false =>
      rw [hen] at hticks
      exact .ending k (r.next c ▸ h.pause hp hrx hen) hnone' (by rw [hticks]; exact hbound)
    | true =>
      rw [hen, if_pos rfl] at hticks
      by_cases hk : k = 15
      · subst hk
        obtain ⟨hsilent, hwrite⟩ := h.finish hp hrx hen
        rw [← r.next] at hsilent hwrite
        refine .gone (r.state (c + 1)).fifoDin hsilent ?_
        rw [hnone', pending, hwrite]
        rfl
      · exact .ending (k + 1) (r.next c ▸ h.wait hp hrx hen hk) hnone' (by omega)
  | gone w h hone =>
    obtain ⟨hsilent, hwrite⟩ := h.step hp hrx
    rw [← r.next] at hsilent hwrite
    refine .gone w hsilent ?_
    rw [written, hone, pending, hwrite]
    rfl

theorem phase_at {r : Run (step p)} (hp : p.shreg.Contract) (h : Haunted p 0 k (r.state 0))
    (hrx : ∀ c, (r.input c).rx = true) (c : ℕ) : Phase r c := by
  induction c with
  | zero =>
    refine .haunted 0 k h rfl ?_
    rw [ticks, Nat.count_zero, lastTick]
    omega
  | succ c ih => exact ih.next hp (hrx c)

theorem ghost_written {r : Run (step p)} (hp : p.shreg.Contract) (h : Haunted p 0 k (r.state 0))
    (hrx : ∀ c, (r.input c).rx = true) (hc : lastTick n ≤ ticks r c) :
    ∃ w, written r c ++ pending (r.state c) = [w] := by
  cases phase_at hp h hrx c with
  | haunted i k h hnone hbound =>
    have hlow := h.low
    omega
  | ending k h hnone hbound =>
    have hlow := h.low
    omega
  | gone w h hone => exact ⟨w, hone⟩

/-- The run from the end of the reset on. -/
def afterReset (r : Run (clock p)) (T : ℕ) (h : ∀ c ≥ T, (r.input c).reset = false) :
    Run (step p) where
  state c := r.state (T + c)
  input c := (r.input (T + c)).toDrive
  next c := by
    rw [← Nat.add_assoc, r.next, step, ← h (T + c) (Nat.le_add_right T c)]

theorem haunted_after {r : Run (clock p)} (hp : p.shreg.Contract)
    (hframe : InFrame p age taken (r.state 0)) (hage : 8 ≤ age)
    (hinside : ¬((r.input 0).en16xBaud = true ∧ age + 1 = 24 + 16 * n.bits))
    (hreset : ∀ c < T, (r.input c).reset = true) (hm : 0 < m) (hmT : m ≤ T) :
    ∃ k, Haunted p 0 k (r.state m) := by
  induction m, hm using Nat.le_induction with
  | base =>
    change ∃ k, Haunted p 0 k (r.state (0 + 1))
    rw [r.next]
    refine reset_haunted hp (circling_of_frame hframe hage) (hreset 0 (by omega)) ?_
    intro hand
    obtain ⟨hen, hk, hstop⟩ := hand
    rw [hframe.stop, decide_eq_true_iff, hframe.length] at hstop
    exact hinside ⟨hen, by omega⟩
  | succ m hm ih =>
    obtain ⟨k, hk⟩ := ih (by omega)
    rw [r.next]
    refine reset_haunted hp hk.toCircling (hreset m (by omega)) ?_
    intro hand
    rw [hk.stop] at hand
    cases hand.2.2

/-- A reset that comes after the middle of the start bit does not end the reception: on an idle
line exactly one word is written, although the frame was interrupted. -/
theorem reset_leaves_word {r : Run (clock p)} (hp : p.shreg.Contract)
    (hframe : InFrame p age taken (r.state 0)) (hage : 8 ≤ age)
    (hinside : ¬((r.input 0).en16xBaud = true ∧ age + 1 = 24 + 16 * n.bits))
    (hT : 0 < T) (hreset : ∀ c < T, (r.input c).reset = true)
    (hafter : ∀ c ≥ T, (r.input c).reset = false)
    (hhigh : ∀ c ≥ T, (r.input c).rx = true)
    (hc : lastTick n ≤ ticks (afterReset r T hafter) c) :
    ∃ w, written (afterReset r T hafter) c ++ pending (r.state (T + c)) = [w] := by
  obtain ⟨k, hk⟩ := haunted_after hp hframe hage hinside hreset hT (Nat.le_refl T)
  exact ghost_written hp hk (fun c => hhigh (T + c) (Nat.le_add_right T c)) hc

/-- The receiver in the middle of a start bit. -/
def midFrame (n : DataBits) : UartliteRx n (BitVec 16) (SrlFifo (BitVec n.bits)) where
  rx1 := false
  rx2 := false
  previousRx := false
  startEdgeDetected := false
  running := true
  midStartSrl := BitVec.twoPow 16 7
  delaySrl := BitVec.twoPow 16 0
  stopBitPosition := false
  fifoDin := startMark n
  fifoWrite := false
  fifo := .empty

theorem mid_frame_in (n : DataBits) : InFrame (listed n) 8 [] (midFrame n) := by
  have hlow := n.low
  have hempty : ¬([] : List Bool).length = n.bits := by
    rw [List.length_nil]
    omega
  refine ⟨by omega, rfl, rfl, rfl, fun _ => rfl, ?_, ?_, (decide_eq_false hempty).symm,
    fun _ => mark_shifted n⟩
  · exact listed_stages n _
  · exact listed_stages n _

/-- Two clocks of reset there, and an idle line. -/
def resetRun (n : DataBits) : Run (clock (listed n)) :=
  Run.ofInputs (clock (listed n)) (midFrame n) fun c =>
    ⟨⟨true, true, false, decide (c < 3)⟩, decide (c < 2)⟩

theorem ghost_received : ∃ n : DataBits, n.bits = 8 ∧ ∃ h w,
    written (afterReset (resetRun n) 2 h) (lastTick n) ++
      pending ((resetRun n).state (2 + lastTick n)) = [w] := by
  obtain ⟨n, hn⟩ : ∃ n : DataBits, n.bits = 8 := ⟨⟨8, by decide, by decide⟩, rfl⟩
  have hafter : ∀ c ≥ 2, ((resetRun n).input c).reset = false := fun c hc =>
    decide_eq_false (Nat.not_lt_of_le hc)
  refine ⟨n, hn, hafter, ?_⟩
  refine reset_leaves_word (listed_contract n).shreg (mid_frame_in n) (Nat.le_refl 8) (by omega)
    (by decide) (fun c hc => decide_eq_true hc) hafter (fun _ _ => rfl) ?_
  exact Nat.le_of_eq (Nat.count_iff_forall.mpr fun k _ => rfl).symm

end Vp2Motion.Proofs.GhostWord
