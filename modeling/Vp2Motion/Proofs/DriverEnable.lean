import Vp2Motion.Proofs.Transmitter
import Vp2Motion.Serial.Frame

namespace Vp2Motion.Proofs.DriverEnable
open Hdl Hdl.UartliteTx Clocked Serial Transmitter

variable {n : DataBits} {v : Divider} {inputs : ℕ → Drive n}

/-- The bit times begin two clocks after the strobes, with the level on `TX`. -/
def boundary (v : Divider) (inputs : ℕ → Drive n) : ℕ → Bool
  | 0 => false
  | 1 => false
  | c + 2 => strobe v (enables inputs) c

/-- How many bit times are left of the frame on `TX`: of a start bit, the data bits and a
stop bit. -/
def bitsLeft (v : Divider) (inputs : ℕ → Drive n) : ℕ → ℕ :=
  remaining (n.bits + 2) (boundary v inputs) fun c => (transmit v inputs c).tx

/-- `TX_Active` is 1 on all clocks of all frames. -/
def Covers (v : Divider) (inputs : ℕ → Drive n) : Prop :=
  ∀ c, 0 < bitsLeft v inputs c → (transmit v inputs c).txActive = true

/-- How many strobes there are after clock `w` and before clock `c`. -/
def strobes (v : Divider) (inputs : ℕ → Drive n) (w c : ℕ) : ℕ :=
  Nat.count (fun k => w < k ∧ strobe v (enables inputs) k = true) c

def stageAt (v : Divider) (inputs : ℕ → Drive n) : ℕ → Stage
  | 0 => .idle
  | c + 1 => (stageAt v inputs c).next n (strobe v (enables inputs) c)
      (transmit v inputs c).fifoDataPresent

theorem transmit_succ (v : Divider) (inputs : ℕ → Drive n) (c : ℕ) :
    transmit v inputs (c + 1) = step (inputs c) (transmit v inputs c) := rfl

theorem in_stage (v : Divider) (inputs : ℕ → Drive n) (c : ℕ) :
    InStage (stageAt v inputs c) (transmit v inputs c) := by
  induction c with
  | zero =>
    have hlow := n.low
    exact ⟨rfl, rfl, rfl, rfl, by simp [stageAt]; omega, by simp [stageAt]⟩
  | succ c ih =>
    rw [transmit_succ, stageAt, ← strobe_eq]
    exact ih.step (inputs c)

/-- No byte gets as far as its stop bit. -/
def NeverLast (v : Divider) (inputs : ℕ → Drive n) : Prop := ∀ c, stageAt v inputs c ≠ .last

theorem strobes_succ (v : Divider) (inputs : ℕ → Drive n) (w c : ℕ) :
    strobes v inputs w (c + 1) = strobes v inputs w c +
      if w < c ∧ strobe v (enables inputs) c = true then 1 else 0 :=
  Nat.count_succ ..

theorem strobes_self (v : Divider) (inputs : ℕ → Drive n) (w : ℕ) :
    strobes v inputs w (w + 1) = 0 := by
  refine Nat.count_iff_forall_not.mpr ?_
  intro k hk hand
  omega

/-- As long as there is a byte to send, every strobe is one step further. -/
theorem progress_next {stage : Stage} {b : Bool} (hlast : stage ≠ .last)
    (hidle : stage = .idle → present = true) (hturn : stage = .turn → b = false) :
    (stage.next n b present).progress n = stage.progress n + if b = true then 1 else 0 := by
  cases stage with
  | idle => cases b <;> simp [hidle rfl]
  | start => cases b <;> simp
  | turn => simp [hturn rfl]
  | data j =>
    cases b with
    | false => simp
    | true => by_cases hj : j + 1 = n.bits <;> simp [hj]
  | last => exact absurd rfl hlast

theorem progress_lt {stage : Stage} (hlast : stage ≠ .last) (hwithin : stage.sent < n.bits) :
    stage.progress n < n.bits + 2 := by
  have hlow := n.low
  cases stage with
  | idle => simp
  | start => simp
  | turn => simp; omega
  | data j => simpa using hwithin
  | last => exact absurd rfl hlast

theorem strobe_off {c : ℕ} (h : stageAt v inputs c = .turn ∨ stageAt v inputs c = .last) :
    strobe v (enables inputs) c = false := by
  rw [← strobe_eq]
  exact (in_stage v inputs c).settled h

/-- Without a stop bit the byte written on clock `w` stays in the FIFO, and every strobe
after `w` brings the frame forward. -/
theorem progress_of_never (h : NeverLast v inputs) (hwrite : (inputs w).writeTxFifo = true)
    (hc : w + 1 ≤ c) :
    (transmit v inputs c).fifoDataPresent = true ∧
      strobes v inputs w c ≤ (stageAt v inputs c).progress n := by
  induction c, hc using Nat.le_induction with
  | base =>
    rw [strobes_self]
    exact ⟨written_present _ _ hwrite, Nat.zero_le _⟩
  | succ c hc ih =>
    obtain ⟨hpresent, hle⟩ := ih
    have hread : (transmit v inputs c).fifoRead = false := by
      rw [(in_stage v inputs c).fifoRead]
      cases hstage : stageAt v inputs c with
      | last => exact absurd hstage (h c)
      | _ => rfl
    refine ⟨present_stays _ hread hpresent, ?_⟩
    rw [stageAt, progress_next (h c) (fun _ => hpresent) (fun hturn => strobe_off (.inl hturn)),
      strobes_succ]
    have hafter : w < c := hc
    simp only [hafter, true_and]
    omega

theorem last_of_strobes (hwrite : (inputs w).writeTxFifo = true)
    (hmany : n.bits + 2 ≤ strobes v inputs w c) : ¬NeverLast v inputs := by
  intro h
  have hc : w + 1 ≤ c := by
    by_contra hlt
    have hnone : strobes v inputs w c = 0 := Nat.count_iff_forall_not.mpr fun k hk hand => by omega
    omega
  have hprogress := (progress_of_never h hwrite hc).2
  have hlt := progress_lt (h c) (in_stage v inputs c).within
  omega

/-- Bytes in the FIFO were written before. -/
theorem written_before (v : Divider) (inputs : ℕ → Drive n) (c : ℕ)
    (h : (transmit v inputs c).fifoDataPresent = true) :
    ∃ w < c, (inputs w).writeTxFifo = true := by
  induction c with
  | zero => simp [transmit, trace, released, fifoDataPresent, fifoDataEmpty, SrlFifo.empty] at h
  | succ c ih =>
    rcases present_cases (inputs c) h with hbefore | hwrite
    · obtain ⟨w, hw, hwrite⟩ := ih hbefore
      exact ⟨w, Nat.lt_succ_of_lt hw, hwrite⟩
    · exact ⟨c, Nat.lt_succ_self c, hwrite⟩

/-- A frame has taken its strobes after the byte was written. -/
theorem strobes_of_progress (v : Divider) (inputs : ℕ → Drive n) (c : ℕ) :
    stageAt v inputs c = .idle ∨ ∃ w < c, (inputs w).writeTxFifo = true ∧
      (stageAt v inputs c).progress n ≤ strobes v inputs w c := by
  induction c with
  | zero => exact .inl rfl
  | succ c ih =>
    by_cases hlast : stageAt v inputs c = .last
    · refine .inl ?_
      simp [stageAt, hlast]
    rw [stageAt]
    by_cases hidle : stageAt v inputs c = .idle
    · cases hp : (transmit v inputs c).fifoDataPresent with
      | false =>
        refine .inl ?_
        simp [hidle]
      | true =>
        obtain ⟨w, hw, hwrite⟩ := written_before v inputs c hp
        refine .inr ⟨w, Nat.lt_succ_of_lt hw, hwrite, ?_⟩
        rw [strobes_succ, progress_next hlast (fun _ => rfl) (by simp [hidle]), hidle]
        simp [hw]
    · obtain ⟨w, hw, hwrite, hle⟩ := ih.resolve_left hidle
      refine .inr ⟨w, Nat.lt_succ_of_lt hw, hwrite, ?_⟩
      rw [strobes_succ, progress_next hlast (fun h => absurd h hidle)
        (fun hturn => strobe_off (.inl hturn))]
      simpa [hw] using hle

theorem strobes_of_last (h : stageAt v inputs c = .last) :
    ∃ w, (inputs w).writeTxFifo = true ∧ n.bits + 2 ≤ strobes v inputs w c := by
  rcases strobes_of_progress v inputs c with hidle | ⟨w, -, hwrite, hle⟩
  · rw [h] at hidle
    cases hidle
  · rw [h] at hle
    exact ⟨w, hwrite, hle⟩

theorem never_last_iff (v : Divider) (inputs : ℕ → Drive n) :
    NeverLast v inputs ↔
      ∀ w c, (inputs w).writeTxFifo = true → strobes v inputs w c < n.bits + 2 := by
  constructor
  · intro h w c hwrite
    by_contra hmany
    exact last_of_strobes hwrite (Nat.not_lt.mp hmany) h
  · intro h c hlast
    obtain ⟨w, hwrite, hmany⟩ := strobes_of_last hlast
    exact absurd (h w c hwrite) (Nat.not_lt.mpr hmany)

/-- What is left of the frame, by the stage of the transmitter. With `due` the next bit
time is about to begin; after the data bits there is one left, which is for the stop
bit. -/
def Tracks (n : DataBits) (due : Bool) (left : ℕ) (seen : Prop) : Stage → Prop
  | .idle => left = 0 ∨ left = 1 ∧ seen
  | .start => if due then left = 0 ∨ left = 1 ∧ seen else left = n.bits + 2
  | .turn => due = true ∧ left = n.bits + 2
  | .data j => left + j = if due then n.bits + 2 else n.bits + 1
  | .last => due = true ∧ left = 2

/-- One clock of a data bit. The strobe `b` makes the next bit time due. -/
theorem tracks_data {left : ℕ} {seen seen' : Prop} (h : Tracks n due left seen (.data j))
    (hj : j < n.bits) (hpause : due = true → b = false) (level present : Bool) :
    Tracks n b (watch (n.bits + 2) due level left) seen' (Stage.next n b present (.data j)) := by
  cases due with
  | true =>
    have hleft : left + j = n.bits + 2 := h
    rw [hpause rfl, watch_boundary (by omega)]
    change left - 1 + j = n.bits + 1
    omega
  | false =>
    have hleft : left + j = n.bits + 1 := h
    rw [watch_within (by omega)]
    cases b with
    | false => exact hleft
    | true =>
      by_cases hlast : j + 1 = n.bits
      · simp only [Stage.next, if_pos hlast, ↓reduceIte]
        refine ⟨rfl, ?_⟩
        omega
      · simp only [Stage.next, if_neg hlast, ↓reduceIte]
        change left + (j + 1) = n.bits + 2
        omega

theorem tracks_next {left : ℕ} {stage : Stage} {seen seen' : Prop}
    (h : Tracks n due left seen stage) (hwithin : stage.sent < n.bits)
    (hseen : seen ∨ stage = .last → seen') (hpause : due = true → b = false)
    (hidle : stage = .idle → level = true) (hstart : stage.starts = true → level = false)
    (present : Bool) :
    Tracks n b (watch (n.bits + 2) due level left) seen' (stage.next n b present) := by
  cases stage with
  | idle =>
    have hquiet : watch (n.bits + 2) due level left = 0 ∨
        watch (n.bits + 2) due level left = 1 ∧ seen' := by
      rw [hidle rfl, watch_high]
      rcases h with rfl | ⟨rfl, hs⟩
      · exact .inl (by simp)
      · cases due with
        | true => exact .inl rfl
        | false => exact .inr ⟨rfl, hseen (.inl hs)⟩
    cases b with
    | false => exact hquiet
    | true =>
      cases present with
      | false => exact hquiet
      | true => exact hquiet
  | start =>
    rw [hstart rfl]
    cases due with
    | true =>
      have hone : left ≤ 1 := by
        rcases h with rfl | ⟨rfl, -⟩
        · exact Nat.zero_le 1
        · exact Nat.le_refl 1
      rw [hpause rfl, watch_start hone]
      rfl
    | false =>
      have hfull : left = n.bits + 2 := h
      rw [watch_within (by omega)]
      cases b with
      | false => exact hfull
      | true => exact ⟨rfl, hfull⟩
  | turn =>
    obtain ⟨rfl, rfl⟩ := h
    rw [hpause rfl, watch_boundary (by omega)]
    rfl
  | data j => exact tracks_data h hwithin hpause level present
  | last =>
    obtain ⟨rfl, rfl⟩ := h
    rw [watch_boundary (by omega)]
    exact .inr ⟨rfl, hseen (.inr rfl)⟩

theorem bits_left_succ (v : Divider) (inputs : ℕ → Drive n) (c : ℕ) :
    bitsLeft v inputs (c + 1) = watch (n.bits + 2) (boundary v inputs (c + 1))
      (transmit v inputs (c + 1)).tx (bitsLeft v inputs c) := rfl

theorem due_pause {c : ℕ} (h : boundary v inputs (c + 1) = true) :
    strobe v (enables inputs) c = false := by
  cases c with
  | zero => cases h
  | succ c =>
    have hbefore : (transmit v inputs c).txDataEnable = true := by
      rw [strobe_eq]
      exact h
    rw [← strobe_eq]
    exact step_strobe (inputs c) _ hbefore

theorem tx_of_idle {c : ℕ} (h : stageAt v inputs c = .idle) :
    (transmit v inputs (c + 1)).tx = true := by
  have hstage := in_stage v inputs c
  rw [transmit_succ, step_tx, hstage.txDataBits, hstage.txStart, h]
  rfl

theorem tx_of_start {c : ℕ} (h : (stageAt v inputs c).starts = true) :
    (transmit v inputs (c + 1)).tx = false := by
  have hstage := in_stage v inputs c
  rw [transmit_succ, step_tx, hstage.txStart, h]
  simp

/-- `TX_Active` is 1 on the clock after every stage of a transmission. -/
theorem tx_active_iff (v : Divider) (inputs : ℕ → Drive n) (c : ℕ) :
    (transmit v inputs (c + 1)).txActive = true ↔ stageAt v inputs c ≠ .idle := by
  have hstage := in_stage v inputs c
  rw [transmit_succ, step_tx_active, hstage.txDataBits, hstage.txStart]
  cases stageAt v inputs c with
  | idle => simp
  | start => simp
  | turn => simp
  | data j => simp
  | last => simp

theorem tracks (v : Divider) (inputs : ℕ → Drive n) (c : ℕ) :
    Tracks n (boundary v inputs (c + 1)) (bitsLeft v inputs c)
      (∃ k < c, stageAt v inputs k = .last) (stageAt v inputs c) := by
  induction c with
  | zero => exact .inl rfl
  | succ c ih =>
    rw [bits_left_succ]
    refine tracks_next ih (in_stage v inputs c).within ?_ due_pause tx_of_idle tx_of_start _
    rintro (⟨k, hk, hlast⟩ | hlast)
    · exact ⟨k, Nat.lt_succ_of_lt hk, hlast⟩
    · exact ⟨c, Nat.lt_succ_self c, hlast⟩

/-- On the second clock after the last data bit the stop bit is on the line and the
driver is off. -/
theorem stop_uncovered {c : ℕ} (h : stageAt v inputs c = .last) :
    bitsLeft v inputs (c + 2) = 1 ∧ (transmit v inputs (c + 2)).txActive = false := by
  have hnext : stageAt v inputs (c + 1) = .idle := by simp [stageAt, h]
  have hactive : (transmit v inputs (c + 2)).txActive = false := by
    rw [← Bool.not_eq_true, tx_active_iff]
    exact fun hne => hne hnext
  refine ⟨?_, hactive⟩
  have hlast := tracks v inputs c
  rw [h] at hlast
  have hoff : boundary v inputs (c + 2) = false := strobe_off (.inr h)
  have hone : bitsLeft v inputs (c + 1) = 1 := by
    rw [bits_left_succ, hlast.1, hlast.2]
    exact watch_boundary (by omega) _
  rw [bits_left_succ, hone, hoff]
  exact watch_within (by omega) _

theorem covers_iff_never (v : Divider) (inputs : ℕ → Drive n) :
    Covers v inputs ↔ NeverLast v inputs := by
  constructor
  · intro h c hlast
    obtain ⟨hleft, hactive⟩ := stop_uncovered hlast
    have hcovered := h (c + 2) (by omega)
    rw [hactive] at hcovered
    cases hcovered
  · intro h c hleft
    cases c with
    | zero => exact absurd hleft (Nat.lt_irrefl 0)
    | succ c =>
      rw [tx_active_iff]
      intro hidle
      have htracks := tracks v inputs c
      rw [hidle] at htracks
      rcases htracks with hnone | ⟨-, k, -, hlast⟩
      · rw [bits_left_succ, tx_of_idle hidle, watch_high, hnone] at hleft
        simp at hleft
      · exact h k hlast

/-- The driver covers whole frames exactly when there is no stop bit to be covered: no
byte is written that as many strobes follow as it has bits, with the start and the stop
bit. -/
theorem covers_exactly_when (v : Divider) (inputs : ℕ → Drive n) :
    Covers v inputs ↔
      ∀ w c, (inputs w).writeTxFifo = true → strobes v inputs w c < n.bits + 2 := by
  rw [covers_iff_never, never_last_iff]

/-- One byte of eight bits, with a pulse of `EN_16x_Baud` on every clock. -/
def oneByte (c : ℕ) : Drive ⟨8, by decide, by decide⟩ where
  en16xBaud := true
  writeTxFifo := c == 0
  txData := 0x55
  stale := 0

def steady : Divider := ⟨15, by decide, false, by decide⟩

theorem steady_strobe (c : ℕ) :
    strobe steady (enables oneByte) c = (decide (0 < c) && c % 16 == 0) := by
  cases c with
  | zero => rfl
  | succ c =>
    have hcount : Nat.count (fun k => enables oneByte k = true) c = c :=
      Nat.count_iff_forall.mpr fun k _ => rfl
    rw [strobe, hcount, Bool.eq_iff_iff]
    simp [enables, oneByte, steady]
    omega

theorem stop_bit_undriven : ¬Covers steady oneByte := by
  have hten : 10 ≤ strobes steady oneByte 0 161 := by
    simp only [strobes, steady_strobe]
    decide
  rw [covers_iff_never]
  exact last_of_strobes rfl hten

end Vp2Motion.Proofs.DriverEnable
