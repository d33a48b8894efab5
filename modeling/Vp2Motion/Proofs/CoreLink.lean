import Vp2Motion.Proofs.CoreReceive
import Vp2Motion.Proofs.CoreSend

namespace Vp2Motion.Proofs.CoreLink
open Hdl Hdl.UartliteCore Serial Clocked SerialCore SentLine CoreSend CoreReceive
open Receiver (sentWords Quiet)

variable {n : DataBits} {δ φ : Type} {p : ProcCommon n δ φ} {ratio ratio' q q' o : ℕ}
  {s₀ r₀ : UartliteCore n δ φ} {s : Run (clock p ratio')} {r : Run (clock p ratio)}
  {contents : φ → List (BitVec n.bits)}

/-- The port `s` sends to the port `r`. A clock takes `q'` units of time in `s` and `q` in `r`,
and the time in `s` is `o` when `r` is at clock 0. The reset of `r` came between two frames, and
nothing is written to `s` before the first `ratio` clocks of `r` are over. -/
structure Linked (s₀ : UartliteCore n δ φ) (s : Run (clock p ratio')) (r₀ : UartliteCore n δ φ)
    (r : Run (clock p ratio)) (q' o q : ℕ) : Prop where
  sender : Started p ratio' s₀ s
  receiver : Started p ratio r₀ r
  between : ∃ before, Quiet p before r₀.rx
  inTime : InTime n (16 * ratio' * q') q' (ratio * q)
  quiet : ∀ k, k * q' < o + ratio * q → (s.input k).writesData = false
  line : ∀ k, (r.input k).rx = (s.state ((o + k * q) / q')).tx.tx

namespace Linked

theorem unit_pos (h : Linked s₀ s r₀ r q' o q) : 0 < q' := by
  have hsoon := h.inTime.soon
  have htick := Nat.mul_pos (show 0 < 25 + 16 * n.bits by omega) h.inTime.tickPos
  apply Nat.pos_of_ne_zero
  intro hzero
  rw [hzero, Nat.mul_zero, Nat.mul_zero] at hsoon
  omega

/-- The frames of the sender, on its own clock and up to the receiver's clock `c`. -/
def frames (hc : p.Contract contents) (h : Linked s₀ s r₀ r q' o q) (c : ℕ) : List Sent :=
  framesAt (h.sender.txRun hc) ((o + c * q) / q')

theorem connected (hc : p.Contract contents) (h : Linked s₀ s r₀ r q' o q) (c : ℕ) :
    Connected p r₀ r (scaled q' (h.frames hc c)) (16 * ratio' * q') q' o q c := by
  have hq := h.unit_pos
  obtain ⟨t, hlow, hhigh⟩ : ∃ t, o + ratio * q ≤ t * q' ∧ ∀ k < t, k * q' < o + ratio * q := by
    obtain ⟨t, hlow, -, hbefore⟩ := exists_first_tick hq
      (show 0 < o + ratio * q + q' by omega)
    exact ⟨t, by omega, fun k hk => by have hlt := hbefore k hk; omega⟩
  obtain ⟨hspaced, hline, -, -⟩ := sends_core hc h.sender
    (fun k hk => h.quiet k (hhigh k hk)) ((o + c * q) / q')
  refine ⟨h.receiver, h.between, h.inTime, ?_, ?_⟩
  · exact spaced_earlier (scaled_spaced q' hspaced) hlow
  · intro k hk
    have hle : (o + k * q) / q' ≤ (o + c * q) / q' :=
      Nat.div_le_div_right (Nat.add_le_add_left (Nat.mul_le_mul_right q (Nat.le_of_lt hk)) o)
    have hscaled : lineAt (16 * ratio' * q') (1 * q') (scaled q' (h.frames hc c))
        (o + k * q) = _ := line_scaled hq (h.frames hc c) (o + k * q)
    rw [Nat.one_mul] at hscaled
    rw [h.line, hline _ hle, hscaled]
    rfl

theorem sent_scaled (q : ℕ) (frames : List Sent) :
    sentWords n (scaled q frames) = sentWords n frames := by
  rw [sentWords, scaled, List.map_map]
  rfl

theorem written_sent (hc : p.Contract contents) (h : Linked s₀ s r₀ r q' o q) (c : ℕ) :
    wordsWritten s ((o + c * q) / q') =
      sentWords n (h.frames hc c) ++ waiting ((h.sender.txRun hc).state ((o + c * q) / q')) := by
  obtain ⟨-, -, hwords, -⟩ := sends_core hc h.sender
    (fun _ hk => absurd hk (Nat.not_lt_zero _)) ((o + c * q) / q')
  exact hwords

/-- All words are on the line, and the last frame is over. -/
theorem over_late (hc : p.Contract contents) (h : Linked s₀ s r₀ r q' o q)
    (hnone : ∀ k ≥ T, (s.input k).writesData = false)
    (hT : (T + 17 * frameTime n ratio') * q' + 3 * q ≤ o + c * q) :
    sentWords n (h.frames hc c) = wordsWritten s T ∧
      (h.frames hc c ≠ [] → endTime n.bits (16 * ratio' * q') (o + ratio * q)
        (scaled q' (h.frames hc c)) + 3 * q ≤ o + c * q) := by
  have hq := h.unit_pos
  have htime : T + 16 * frameTime n ratio' ≤ (o + c * q) / q' := by
    rw [Nat.le_div_iff_mul_le hq]
    have hle := Nat.mul_le_mul_right q'
      (show T + 16 * frameTime n ratio' ≤ T + 17 * frameTime n ratio' by omega)
    omega
  obtain ⟨hwaiting, hframes⟩ := sends_all hc h.sender hnone htime
  have hwords := h.written_sent hc c
  rw [hwaiting, List.append_nil,
    written_stays hc h.sender (show T ≤ _ by omega) hnone] at hwords
  refine ⟨hwords.symm, ?_⟩
  intro hne
  have hbound : endTime n.bits (16 * ratio') 0 (h.frames hc c) ≤
      T + 17 * frameTime n ratio' := by
    rw [frames, hframes] at hne ⊢
    have hlast : endTime n.bits (16 * ratio') 0 (framesAt (h.sender.txRun hc) _) ≤ _ :=
      end_time_frames (h.sender.txRun hc) hne
    have hfactor : frameTime n ratio' = (n.bits + 2) * (16 * ratio') + 16 * ratio' := by
      rw [frameTime]
      ring
    have hratio := Nat.zero_lt_of_lt h.sender.prepared.below
    omega
  have hscaled : endTime n.bits (16 * ratio' * q') (0 * q') (scaled q' (h.frames hc c)) = _ :=
    scaled_end_time q' (h.frames hc c)
  have hne' : scaled q' (h.frames hc c) ≠ [] := by
    rw [scaled, ne_eq, List.map_eq_nil_iff]
    exact hne
  have hmul := Nat.mul_le_mul_right q' hbound
  rw [end_time_ne_nil hne' _ (0 * q'), hscaled]
  omega

end Linked

/-- The bytes that the receiving host has read and those that wait for it are at all times the
first of the words that the sending host has written; and 17 frame times after it has stopped,
none is missing. -/
theorem delivers_accepted (hc : p.Contract contents) (h : Linked s₀ s r₀ r q' o q)
    (hroom : ∀ k < c, (r.state k).rx.rxOverrunError p = false) :
    bytesRead r c ++ (contents (r.state c).rx.fifo).map busByte <+:
        (wordsWritten s ((o + c * q) / q')).map busByte ∧
      (∀ T, (∀ k ≥ T, (s.input k).writesData = false) →
        (T + 17 * frameTime n ratio') * q' + 3 * q ≤ o + c * q →
        bytesRead r c ++ (contents (r.state c).rx.fifo).map busByte =
          (wordsWritten s T).map busByte) ∧
      (((r.state c).statusReg p).getMsbD 1 = true →
        ((r.state 0).statusReg p).getMsbD 1 = true) := by
  have hconnected := h.connected hc c
  have hpart := hconnected.written_begin hc
  rw [Linked.sent_scaled] at hpart
  rw [hconnected.bytes_written hc hroom]
  refine ⟨?_, ?_, frame_error_stays fun k hk => hconnected.no_frame_error hc hk⟩
  · rw [h.written_sent hc]
    exact (hpart.trans (List.prefix_append ..)).map busByte
  · intro T hnone hT
    obtain ⟨hwords, hover⟩ := h.over_late hc hnone hT
    rw [← hwords]
    congr 1
    by_cases hnil : h.frames hc c = []
    · have hempty : sentWords n (h.frames hc c) = [] := by
        rw [hnil]
        rfl
      rw [hempty] at hpart ⊢
      exact List.prefix_nil.mp hpart
    · rw [hconnected.written_all hc (hover hnil), Linked.sent_scaled]

/-- A second port at the line of the first. Its host reads once. -/
def hearer (n : DataBits) : Run (clock (listed n) 1) :=
  portRun n (fun k => ((talker n).state k).tx.tx) (fun _ => none) fun c => decide (c = 4000)

theorem hearer_linked (n : DataBits) :
    Linked (initialPort n) (talker n) (initialPort n) (hearer n) 1 0 1 where
  sender := talker_started n
  receiver := port_started fun _ _ => rfl
  between := ⟨true, Receiver.resting_quiet n⟩
  inTime := ⟨by decide, by decide, by omega, by omega⟩
  quiet k hk := talker_silent n (by omega)
  line k := by
    rw [Nat.zero_add, Nat.mul_one, Nat.div_one]
    rfl

theorem byte_delivered : ∃ n : DataBits, n.bits = 8 ∧
    (bytesRead (hearer n) 4001).map BitVec.toNat = [0x55] := by
  obtain ⟨n, hn⟩ : ∃ n : DataBits, n.bits = 8 := ⟨⟨8, by decide, by decide⟩, rfl⟩
  refine ⟨n, hn, ?_⟩
  have hc := listed_contract n
  have hlink := hearer_linked n
  have hstops : ∀ k ≥ 6, ((talker n).input k).writesData = false :=
    fun k hk => talker_silent n (by omega)
  have hone : (hlink.frames hc 4000).length ≤ 1 := by
    have hlength := frames_length hc hlink.sender 4000
    rw [written_stays hc hlink.sender (show 6 ≤ 4000 by decide) hstops, talker_written,
      List.length_singleton] at hlength
    change (framesAt (hlink.sender.txRun hc) 4000).length ≤ 1
    omega
  have hroom : ∀ k < 4000, ((hearer n).state k).rx.rxOverrunError (listed n) = false := by
    intro k hk
    refine (hlink.connected hc 4000).no_overrun hc ?_ hk
    rw [scaled, List.length_map]
    omega
  have hbyte := (delivers_accepted hc hlink hroom).2.1 6 hstops (by rw [frameTime, hn]; decide)
  rw [talker_written, List.map_singleton] at hbyte
  have hsilent : ∀ k < 4000, ((hearer n).input k).readsData = false := fun k hk =>
    port_reads.trans (decide_eq_false (Nat.ne_of_lt hk))
  have hreads : ((hearer n).input 4000).readsData = true := port_reads
  rw [read_waiting hc hlink.receiver hsilent hreads hbyte, List.map_singleton, busByte,
    BitVec.toNat_setWidth, BitVec.toNat_setWidth, hn]
  rfl

end Vp2Motion.Proofs.CoreLink
