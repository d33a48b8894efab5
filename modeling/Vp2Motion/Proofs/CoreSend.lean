import Vp2Motion.Proofs.SentLine
import Vp2Motion.Proofs.SerialCore

namespace Vp2Motion.Proofs.CoreSend
open Hdl Hdl.UartliteCore Serial Clocked SerialCore Transmitter TransmitterView SentLine
open Receiver (sentWords wordOf)

variable {n : DataBits} {δ φ : Type} {p : ProcCommon n δ φ} {ratio : ℕ}
  {s : UartliteCore n δ φ} {r : Run (clock p ratio)} {contents : φ → List (BitVec n.bits)}

/-- Every 16th tick, counted in clocks. -/
theorem strobe_mod (he : e < ratio) (c : ℕ) :
    c % ratio = e ∧ Nat.count (fun k => k % ratio = e) c % 16 = a ↔
      c % (16 * ratio) = e + a * ratio := by
  have htick : c % ratio = e →
      c % (16 * ratio) = e + Nat.count (fun k => k % ratio = e) c % 16 * ratio := by
    intro hc
    have hat := tick_at he hc
    generalize Nat.count (fun k => k % ratio = e) c = i at hat
    have hmod := Nat.mod_lt i (show 0 < 16 by decide)
    have hle := Nat.mul_le_mul_right ratio (show i % 16 + 1 ≤ 16 from hmod)
    have hsplit : c = e + i % 16 * ratio + i / 16 * (16 * ratio) := by
      rw [← hat, ← Nat.mul_assoc, Nat.add_assoc, ← Nat.add_mul]
      congr 2
      omega
    rw [Nat.add_mul, Nat.one_mul] at hle
    nth_rewrite 1 [hsplit]
    rw [Nat.add_mul_mod_self_right, Nat.mod_eq_of_lt (by omega)]
  constructor
  · rintro ⟨hc, hcount⟩
    rw [htick hc, hcount]
  · intro hc
    have hfirst : c % ratio = e := by
      rw [← Nat.mod_mul_left_mod c 16 ratio, hc, tick_mod he]
    have hsame := htick hfirst
    rw [hc] at hsame
    exact ⟨hfirst, Nat.eq_of_mul_eq_mul_right (Nat.zero_lt_of_lt he) (by omega)⟩

/-- The clock of the first strobe. -/
def firstStrobe (v : Divider) (ratio : ℕ) (b : Baudrate) : ℕ :=
  (firstTick ratio b + v.phase * ratio + 1) % (16 * ratio)

theorem strobes_regular (hc : p.Contract contents) (h : Started p ratio s r) (v : Divider) :
    Regular v (h.txRun hc).input (16 * ratio) (firstStrobe v ratio (r.state 0).baud) := by
  have he := first_tick_lt h.steady
  have hlow := v.low
  refine ⟨by omega, Nat.mod_lt _ (by omega), ?_⟩
  intro c hpos
  obtain ⟨c, rfl⟩ : ∃ m, c = m + 1 := ⟨c - 1, by omega⟩
  have hen : ∀ k, enables (h.txRun hc).input k = true ↔
      k % ratio = firstTick ratio (r.state 0).baud := enabled_iff h.steady
  have hlt : firstTick ratio (r.state 0).baud + v.phase * ratio < 16 * ratio := by
    have hle := Nat.mul_le_mul_right ratio (show v.phase + 1 ≤ 16 from hlow)
    rw [Nat.add_mul, Nat.one_mul] at hle
    omega
  have hcancel : (c + 1) % (16 * ratio) = firstStrobe v ratio (r.state 0).baud ↔
      c % (16 * ratio) = firstTick ratio (r.state 0).baud + v.phase * ratio := by
    constructor
    · intro hmod
      have hmod := Nat.ModEq.add_right_cancel' 1 hmod
      rwa [Nat.ModEq, Nat.mod_eq_of_lt hlt] at hmod
    · intro hmod
      rw [firstStrobe, Nat.add_mod, hmod, ← Nat.add_mod_mod]
      simp
  rw [hcancel, ← strobe_mod he, strobe, Bool.and_eq_true, beq_iff_eq]
  simp only [hen]

theorem word_written_eq (hc : p.Contract contents) {i : Inputs}
    (hsingle : i.readsData = true → i.readsStatus = false ∧ i.writesData = false) :
    wordWritten p i s = newWord (txDrive p i s) (view hc s.tx) := by
  have hfull : s.tx.txBufferFull p = (view hc s.tx).txBufferFull := hc.fifo.full_eq s.tx.fifo
  rw [wordWritten, newWord, txDrive, ← hfull, ip2busError]
  cases hwrite : i.writesData with
  | false => rfl
  | true =>
    have hread : i.readsData = false := by
      rw [Bool.eq_false_iff]
      intro hread
      rw [(hsingle hread).2] at hwrite
      cases hwrite
    have hack : ip2busWrack i = true := acknowledged hwrite
    rw [hack, hread]
    cases s.tx.txBufferFull p <;> cases s.resetTxFifo <;> rfl

theorem words_written_eq (hc : p.Contract contents) (h : Started p ratio s r) (c : ℕ) :
    wordsWritten r c = accepted (h.txRun hc) c := by
  induction c with
  | zero => rfl
  | succ c ih =>
    rw [wordsWritten, accepted, ih, word_written_eq hc (h.single c)]
    rfl

theorem silent_drive (hc : p.Contract contents) (h : Started p ratio s r)
    (hsilent : (r.input k).writesData = false) :
    ((h.txRun hc).input k).writeTxFifo = false := by
  change ((r.input k).writesData && !(r.state k).resetTxFifo) = false
  rw [hsilent, Bool.false_and]

theorem written_stays (hc : p.Contract contents) (h : Started p ratio s r) (hT : T ≤ c)
    (hnone : ∀ k ≥ T, (r.input k).writesData = false) : wordsWritten r c = wordsWritten r T := by
  rw [words_written_eq hc h, words_written_eq hc h]
  exact accepted_stays _ hT fun k hk _ => silent_drive hc h (hnone k hk)

/-- So many bit times pass at most between two begins while words wait: a frame with its start
and stop bits, and the way to the next strobe. In clocks. -/
def frameTime (n : DataBits) (ratio : ℕ) : ℕ := (n.bits + 3) * (16 * ratio)

theorem sends_core (hc : p.Contract contents) (h : Started p ratio s r)
    (hquiet : ∀ k < t, (r.input k).writesData = false) (c : ℕ) :
    Spaced n.bits (16 * ratio) t (framesAt (h.txRun hc) c) ∧
      (∀ τ ≤ c, (r.state τ).tx.tx = lineAt (16 * ratio) 1 (framesAt (h.txRun hc) c) τ) ∧
      wordsWritten r c =
        sentWords n (framesAt (h.txRun hc) c) ++ waiting ((h.txRun hc).state c) ∧
      (waiting ((h.txRun hc).state c) ≠ [] → (framesAt (h.txRun hc) c).length <
        (framesAt (h.txRun hc) (c + frameTime n ratio)).length) := by
  obtain ⟨v, hstart⟩ := h.tx_released hc
  have hreg := strobes_regular hc h v
  have hquiet' : ∀ k < t, ((h.txRun hc).input k).writeTxFifo = false := fun k hk =>
    silent_drive hc h (hquiet k hk)
  have hsends := sends_at hreg hquiet' c
  have hgrow := fun hwaiting => frames_grow hreg hquiet' hwaiting (c := c)
  have hrun : sendRun v (h.txRun hc).input = h.txRun hc := by
    rw [sendRun, ← hstart]
    exact (h.txRun hc).eq_of_inputs.symm
  have hstate : ∀ k, transmit v (h.txRun hc).input k = (h.txRun hc).state k := fun k =>
    congrArg (fun r => r.state k) hrun
  obtain ⟨hspaced, hline, hwords, -⟩ := hsends
  rw [hrun] at hspaced hline hwords hgrow
  rw [hstate] at hwords hgrow
  rw [words_written_eq hc h]
  refine ⟨hspaced, ?_, hwords, hgrow⟩
  intro τ hτ
  have hlevel := hline τ hτ
  rw [hstate] at hlevel
  exact hlevel

theorem frames_length (hc : p.Contract contents) (h : Started p ratio s r) (c : ℕ) :
    (wordsWritten r c).length =
      (framesAt (h.txRun hc) c).length + (waiting ((h.txRun hc).state c)).length := by
  obtain ⟨-, -, hwords, -⟩ := sends_core hc h (fun _ hk => absurd hk (Nat.not_lt_zero _)) c
  rw [hwords, List.length_append, sentWords, List.length_map]

/-- Once the host has stopped, each frame time takes one word at least to the line. -/
theorem frames_after (hc : p.Contract contents) (h : Started p ratio s r)
    (hnone : ∀ k ≥ T, (r.input k).writesData = false) (m : ℕ) :
    min (wordsWritten r T).length ((framesAt (h.txRun hc) T).length + m) ≤
      (framesAt (h.txRun hc) (T + m * frameTime n ratio)).length := by
  induction m with
  | zero =>
    rw [Nat.zero_mul]
    exact Nat.min_le_right ..
  | succ m ih =>
    have hsame := written_stays hc h (Nat.le_add_right T (m * frameTime n ratio)) hnone
    have hlength := frames_length hc h (T + m * frameTime n ratio)
    obtain ⟨-, -, -, hgrow⟩ := sends_core hc h
      (fun _ hk => absurd hk (Nat.not_lt_zero _)) (T + m * frameTime n ratio)
    have hmore := (frames_mono (h.txRun hc)
      (show T + m * frameTime n ratio ≤ T + m * frameTime n ratio + frameTime n ratio
        from Nat.le_add_right ..)).length_le
    have htime : T + (m + 1) * frameTime n ratio =
        T + m * frameTime n ratio + frameTime n ratio := by
      rw [Nat.succ_mul, Nat.add_assoc]
    rw [htime]
    rw [hsame] at hlength
    by_cases hwaiting : waiting ((h.txRun hc).state (T + m * frameTime n ratio)) = []
    · rw [hwaiting] at hlength
      simp only [List.length_nil] at hlength
      omega
    · have hlt := hgrow hwaiting
      omega

/-- All words are on the line 16 frame times after the host has stopped. -/
theorem sends_all (hc : p.Contract contents) (h : Started p ratio s r)
    (hnone : ∀ k ≥ T, (r.input k).writesData = false) (hT : T + 16 * frameTime n ratio ≤ c) :
    waiting ((h.txRun hc).state c) = [] ∧
      framesAt (h.txRun hc) c = framesAt (h.txRun hc) (T + 16 * frameTime n ratio) := by
  have hafter := frames_after hc h hnone 16
  have hfirst := frames_length hc h T
  have hdepth := waiting_length ((h.txRun hc).state T)
  have hlength := frames_length hc h c
  have hsame := written_stays hc h (show T ≤ c by omega) hnone
  have hpart := frames_mono (h.txRun hc) hT
  have hle := hpart.length_le
  rw [hsame] at hlength
  refine ⟨List.eq_nil_of_length_eq_zero (by omega), ?_⟩
  exact (hpart.eq_of_length (by omega)).symm

/-- The line carries the words that the host has written, in order and each in a frame of its
own. As long as words wait, one at least is begun in each frame time; when the host has stopped,
all are on the line after 16 of them. -/
theorem sends_accepted (hc : p.Contract contents) (h : Started p ratio s r) (c : ℕ) :
    Spaced n.bits (16 * ratio) 0 (framesAt (h.txRun hc) c) ∧
      (∀ τ ≤ c, (r.state τ).tx.tx = lineAt (16 * ratio) 1 (framesAt (h.txRun hc) c) τ) ∧
      wordsWritten r c =
        sentWords n (framesAt (h.txRun hc) c) ++ waiting ((h.txRun hc).state c) ∧
      (waiting ((h.txRun hc).state c) ≠ [] → (framesAt (h.txRun hc) c).length <
        (framesAt (h.txRun hc) (c + frameTime n ratio)).length) ∧
      ∀ T, (∀ k ≥ T, (r.input k).writesData = false) → T + 16 * frameTime n ratio ≤ c →
        waiting ((h.txRun hc).state c) = [] := by
  obtain ⟨hspaced, hline, hwords, hgrow⟩ := sends_core hc h
    (fun _ hk => absurd hk (Nat.not_lt_zero _)) c
  refine ⟨hspaced, hline, hwords, hgrow, ?_⟩
  intro T hnone hT
  exact (sends_all hc h hnone hT).1

/-- A port to which one word is written. -/
def talker (n : DataBits) : Run (clock (listed n) 1) :=
  portRun n (fun _ => true) (fun c => if c = 5 then some 0x55 else none) fun _ => false

theorem talker_started (n : DataBits) : Started (listed n) 1 (initialPort n) (talker n) :=
  port_started fun _ hread => nomatch hread

theorem talker_silent (n : DataBits) (hk : k ≠ 5) : ((talker n).input k).writesData = false := by
  rw [talker, port_writes, if_neg hk]
  rfl

theorem waiting_room {t : UartliteTx n} (h : waiting t = []) : t.txBufferFull = false := by
  rw [UartliteTx.txBufferFull, beq_eq_false_iff_ne]
  intro hfull
  have hlength := congrArg List.length h
  rw [waiting] at hlength
  split at hlength
  · rw [List.length_tail, List.length_nil] at hlength
    omega
  · rw [List.length_nil] at hlength
    omega

/-- A word that the host writes when none waits is taken. -/
theorem first_written (hc : p.Contract contents) (h : Started p ratio s r) (hpos : 0 < c)
    (hsilent : ∀ k < c, (r.input k).writesData = false)
    (hwrites : (r.input c).writesData = true) :
    wordsWritten r (c + 1) = [(r.input c).bus2ipData.setWidth n.bits] := by
  have hnone : wordsWritten r c = [] := by
    rw [words_written_eq hc h]
    exact accepted_stays _ (Nat.zero_le c) fun k _ hk => silent_drive hc h (hsilent k hk)
  have hlength := frames_length hc h c
  rw [hnone, List.length_nil] at hlength
  have hwaiting : waiting ((h.txRun hc).state c) = [] :=
    List.eq_nil_of_length_eq_zero (by omega)
  have hroom : (view hc (r.state c).tx).txBufferFull = false := waiting_room hwaiting
  have hreset := (h.fifo_resets hpos).2
  rw [wordsWritten, hnone, word_written_eq hc (h.single c), newWord, hroom, txDrive, hwrites,
    hreset]
  rfl

theorem talker_written (n : DataBits) :
    wordsWritten (talker n) 6 = [(0x55#8).setWidth n.bits] :=
  first_written (listed_contract n) (talker_started n) (by decide)
    (fun _ hk => talker_silent n (Nat.ne_of_lt hk)) port_writes

/-- Its word is on the line 16 frame times later. -/
theorem talker_sends : ∃ n, n.bits = 8 ∧
    sentWords n (framesAt ((talker_started n).txRun (listed_contract n)) 3000) =
      [(0x55#8).setWidth n.bits] := by
  obtain ⟨n, hn⟩ : ∃ n : DataBits, n.bits = 8 := ⟨⟨8, by decide, by decide⟩, rfl⟩
  refine ⟨n, hn, ?_⟩
  have hstops : ∀ k ≥ 6, ((talker n).input k).writesData = false := fun k hk =>
    talker_silent n (by omega)
  obtain ⟨-, -, hwords, -, hall⟩ := sends_accepted (listed_contract n) (talker_started n) 3000
  rw [hall 6 hstops (by rw [frameTime, hn]; decide), List.append_nil,
    written_stays (listed_contract n) (talker_started n) (show 6 ≤ 3000 by decide) hstops,
    talker_written] at hwords
  exact hwords.symm

end Vp2Motion.Proofs.CoreSend
