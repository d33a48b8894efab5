import Mathlib.Tactic.Linarith
import Vp2Motion.Proofs.SerialCore

namespace Vp2Motion.Proofs.CoreReceive
open Hdl Hdl.UartliteCore Serial Clocked SerialCore Receiver

variable {n : DataBits} {ratio len lead q : ℕ} {frames : List Sent}

/-- A sender with bits of `len` against ticks of `tick`, in one unit of time: the last sample
of a frame falls within its stop bit. -/
structure InTime (n : DataBits) (len lead tick : ℕ) : Prop where
  tickPos : 0 < tick
  short : 16 * lead ≤ len
  late : lead + (n.bits + 1) * len ≤ (24 + 16 * n.bits) * tick
  soon : (25 + 16 * n.bits) * tick ≤ (n.bits + 2) * len

/-- Then every sample falls within its bit. -/
theorem InTime.tolerates (h : InTime n len lead tick) :
    Tolerates (sampling n) len lead tick where
  stepPos := h.tickPos
  late := by
    intro j hj
    have hj : j ≤ n.bits := hj
    have hshort := h.short
    have hlate := h.late
    rw [point_eq]
    by_cases hslow : len ≤ 16 * tick
    · have hmul : (j + 1) * len ≤ (j + 1) * (16 * tick) := Nat.mul_le_mul_left _ hslow
      nlinarith
    · obtain ⟨d, hd⟩ := Nat.exists_eq_add_of_le (Nat.le_of_not_le hslow)
      have hmul : (j + 1) * d ≤ (n.bits + 1) * d := Nat.mul_le_mul_right _ (by omega)
      nlinarith
  soon := by
    intro j hj
    have hj : j ≤ n.bits := hj
    have hsoon := h.soon
    rw [point_eq]
    by_cases hslow : 16 * tick ≤ len
    · have hmul : (j + 2) * (16 * tick) ≤ (j + 2) * len := Nat.mul_le_mul_left _ hslow
      nlinarith
    · obtain ⟨d, hd⟩ := Nat.exists_eq_add_of_le (Nat.le_of_not_le hslow)
      have hmul : (j + 2) * d ≤ (n.bits + 2) * d := Nat.mul_le_mul_right _ (by omega)
      nlinarith

/-- `RATIO` is rounded down. A sender at the baud rate is in time all the same, unless the clock
is too slow for it. Time is counted in units of which a clock has `baudrate`. -/
theorem nominal_in_time (hbaud : 0 < baudrate)
    (hratio : 2 * (n.bits + 1) ≤ baudRatio splbClkFreqHz baudrate) :
    InTime n splbClkFreqHz 0 (baudRatio splbClkFreqHz baudrate * baudrate) := by
  have hdiv := Nat.div_add_mod splbClkFreqHz (16 * baudrate)
  have hmod := Nat.mod_lt splbClkFreqHz (show 0 < 16 * baudrate by omega)
  have htick : 16 * baudrate * (splbClkFreqHz / (16 * baudrate)) =
      16 * (baudRatio splbClkFreqHz baudrate * baudrate) := by
    rw [baudRatio]
    ring
  have hslack := Nat.mul_le_mul_right baudrate hratio
  have htickPos := Nat.mul_pos (show 0 < baudRatio splbClkFreqHz baudrate by omega) hbaud
  generalize baudRatio splbClkFreqHz baudrate * baudrate = tick at htick hslack htickPos ⊢
  have hlow := Nat.mul_le_mul_left (n.bits + 2) (show 16 * tick ≤ splbClkFreqHz by omega)
  have hhigh := Nat.mul_le_mul_left (n.bits + 1)
    (show splbClkFreqHz ≤ 16 * tick + 16 * baudrate by omega)
  refine ⟨htickPos, by omega, ?_, ?_⟩
  · nlinarith
  · nlinarith

example : InTime ⟨8, by decide, by decide⟩ 100000000 0 (baudRatio 100000000 38400 * 38400) :=
  ⟨by decide, by decide, by decide, by decide⟩

variable {δ φ : Type} {p : ProcCommon n δ φ} {s : UartliteCore n δ φ} {r : Run (clock p ratio)}
  {contents : φ → List (BitVec n.bits)}

theorem ticks_eq (h : Started p ratio s r) (c : ℕ) :
    ticks h.rxRun c =
      Nat.count (fun k => k % ratio = firstTick ratio (r.state 0).baud) c := by
  have henabled := enabled_iff h.steady
  simp only [ticks, Started.rxRun, rxDrive, henabled]

theorem heard_tick (h : Started p ratio s r) (i : ℕ) :
    heard h.rxRun i = (r.state (firstTick ratio (r.state 0).baud + i * ratio)).rx.rx2 := by
  have hfirst := first_tick_lt h.steady
  have hmod := tick_mod hfirst i
  have hat := tick_at hfirst hmod
  have hcount : ticks h.rxRun (firstTick ratio (r.state 0).baud + i * ratio) = i := by
    rw [ticks_eq]
    exact Nat.eq_of_mul_eq_mul_right (Nat.zero_lt_of_lt hfirst) (Nat.add_left_cancel hat)
  have hline := hears_heard h.rxRun _ ((enabled_iff h.steady _).mpr hmod)
  rw [hcount, ← synced_eq] at hline
  exact hline

/-- Up to clock `c` the port is connected to a sender whose time is `o` at clock 0 and goes on
by `q` a clock. The reset came between two frames, and the sender is quiet for the first `ratio`
clocks after it. -/
structure Connected (p : ProcCommon n δ φ) (s : UartliteCore n δ φ) (r : Run (clock p ratio))
    (frames : List Sent) (len lead o q c : ℕ) : Prop where
  started : Started p ratio s r
  between : ∃ before, Quiet p before s.rx
  inTime : InTime n len lead (ratio * q)
  spaced : Spaced n.bits len (o + ratio * q) frames
  line : ∀ k < c, (r.input k).rx = lineAt len lead frames (o + k * q)

namespace Connected

/-- The line, two clocks later. -/
theorem rx2_delayed (h : Connected p s r frames len lead o q c) (hk : k < c + 2) :
    (r.state k).rx.rx2 = lineAt len lead (delayed (2 * q) frames) (o + k * q) := by
  have hsynced := synced_eq h.started.rxRun k
  have hquiet := delayed_spaced (2 * q) h.spaced
  have htick := h.inTime.tickPos
  obtain ⟨hrx1, hrx2⟩ := h.started.rx_high
  match k with
  | 0 => rw [hrx2, line_before hquiet (by omega)]
  | 1 =>
    rw [line_before hquiet (by omega)]
    exact hsynced.trans hrx1
  | m + 2 =>
    have hlevel : (r.state (m + 2)).rx.rx2 = (r.input m).rx := hsynced
    rw [hlevel, h.line m (by omega), Nat.add_mul, ← Nat.add_assoc, line_delayed]

/-- The ticks before clock `c` hear the frames of the sender. -/
theorem heard_line (h : Connected p s r frames len lead o q c)
    (hi : i < ticks h.started.rxRun c) :
    heard h.started.rxRun i = lineAt len lead (delayed (2 * q) frames)
      (o + firstTick ratio (r.state 0).baud * q + i * (ratio * q)) := by
  obtain ⟨-, hnext⟩ := next_tick (first_tick_lt h.started.steady) c
  rw [ticks_eq] at hi
  have hmul := Nat.mul_le_mul_right ratio (Nat.succ_le_of_lt hi)
  rw [Nat.succ_mul] at hmul
  rw [heard_tick, h.rx2_delayed (by omega), Nat.add_mul, Nat.mul_assoc, Nat.add_assoc]

/-- The first tick is idle. -/
theorem first_tick (h : Connected p s r frames len lead o q c)
    (hi : 0 < ticks h.started.rxRun c) :
    Decoder.after (sampling n) (heard h.started.rxRun) (.idle false) 1 = .idle true ∧
      Decoder.events (sampling n) (heard h.started.rxRun) (.idle false) 1 = [] := by
  have htick := h.inTime.tickPos
  have hfirst := Nat.mul_lt_mul_of_pos_right (first_tick_lt h.started.steady)
    (show 0 < q from Nat.pos_of_mul_pos_left htick)
  have hlevel : heard h.started.rxRun 0 = true := by
    rw [h.heard_line hi, line_before (delayed_spaced (2 * q) h.spaced) (by omega)]
  rw [Decoder.after, Decoder.events, Decoder.event, hlevel]
  exact ⟨rfl, rfl⟩

/-- What the ticks before clock `c` bring. -/
theorem heard_events (h : Connected p s r frames len lead o q c)
    (hm : m + 1 ≤ ticks h.started.rxRun c) :
    Decoder.events (sampling n) (heard h.started.rxRun) (.idle false) (m + 1) =
      Decoder.events (sampling n) (fun i => lineAt len lead (delayed (2 * q) frames)
        (o + firstTick ratio (r.state 0).baud * q + ratio * q + i * (ratio * q)))
        (.idle true) m := by
  obtain ⟨hafter, hevents⟩ := h.first_tick (by omega)
  rw [Nat.add_comm, Decoder.events_add, hafter, hevents, List.nil_append]
  refine (Decoder.after_congr fun i hi => ?_).2
  rw [h.heard_line (by omega), Nat.add_mul, Nat.one_mul, Nat.add_assoc, Nat.add_assoc,
    Nat.add_assoc]

theorem earlier (h : Connected p s r frames len lead o q c) (hk : k ≤ c) :
    Connected p s r frames len lead o q k :=
  { h with line := fun m hm => h.line m (Nat.lt_of_lt_of_le hm hk) }

theorem events_begin (h : Connected p s r frames len lead o q c)
    (hm : m ≤ ticks h.started.rxRun c) :
    Decoder.events (sampling n) (heard h.started.rxRun) (.idle false) m <+:
      frames.map fun f => .word f.data := by
  cases m with
  | zero => exact List.nil_prefix
  | succ m =>
    have htick := h.inTime.tickPos
    have hfirst := Nat.mul_le_mul_right q (Nat.le_of_lt (first_tick_lt h.started.steady))
    have hdecoded := decodes_first h.inTime.tolerates (delayed_spaced (2 * q) h.spaced)
      (show o + firstTick ratio (r.state 0).baud * q + ratio * q <
        o + ratio * q + 2 * q + ratio * q by
          have hq := Nat.pos_of_mul_pos_left htick
          omega) m
    rw [delayed, List.map_map] at hdecoded
    rw [h.heard_events hm]
    exact hdecoded

/-- All frames, two clocks after the last of them is over. -/
theorem events_all (h : Connected p s r frames len lead o q c)
    (hover : endTime n.bits len (o + ratio * q) frames + 2 * q ≤ o + c * q) :
    Decoder.events (sampling n) (heard h.started.rxRun) (.idle false)
        (ticks h.started.rxRun c) = frames.map fun f => .word f.data := by
  obtain ⟨hnext, -⟩ := next_tick (first_tick_lt h.started.steady) c
  rw [← ticks_eq h.started] at hnext
  have htick := h.inTime.tickPos
  have hq := Nat.pos_of_mul_pos_left htick
  have hfirst := Nat.mul_lt_mul_of_pos_right (first_tick_lt h.started.steady) hq
  have hend := end_time_le h.spaced
  have htime := Nat.mul_le_mul_right q hnext
  cases hm : ticks h.started.rxRun c with
  | zero =>
    rw [hm, Nat.zero_mul, Nat.add_zero] at htime
    omega
  | succ m =>
    rw [hm, Nat.add_mul, Nat.succ_mul, Nat.add_mul, Nat.mul_assoc] at htime
    have hdecoded := decodes_sent h.inTime.tolerates (delayed_spaced (2 * q) h.spaced)
      (show o + firstTick ratio (r.state 0).baud * q + ratio * q <
        o + ratio * q + 2 * q + ratio * q by omega)
      (show _ ≤ o + firstTick ratio (r.state 0).baud * q + ratio * q + m * (ratio * q) by
        rw [delayed_end_time]
        change endTime n.bits len (o + ratio * q) frames + 2 * q ≤ _
        omega)
    rw [delayed, List.map_map] at hdecoded
    rw [h.heard_events (Nat.le_of_eq hm.symm)]
    exact hdecoded

/-- The decoder starts between two frames. -/
theorem shows (hc : p.Contract contents) (h : Connected p s r frames len lead o q c) :
    Shows p (.idle false) (h.started.rxRun.state 0) := by
  obtain ⟨before, hquiet⟩ := h.between
  exact h.started.rx_quiet hc hquiet

theorem words_sent (frames : List Sent) :
    words n (frames.map fun f => .word f.data) = sentWords n frames := by
  rw [words, List.filterMap_map, sentWords, ← List.filterMap_eq_map]
  rfl

theorem written_decoded (hc : p.Contract contents) (h : Connected p s r frames len lead o q c)
    (m : ℕ) : written h.started.rxRun m ++ pending (r.state m).rx =
      words n (Decoder.events (sampling n) (heard h.started.rxRun) (.idle false)
        (ticks h.started.rxRun m)) := by
  have hwritten := written_eq hc.shreg (h.shows hc) (Receiver.hears_heard h.started.rxRun) m
  have hnone : pending (h.started.rxRun.state 0) = [] := by
    have hwrite : (h.started.rxRun.state 0).fifoWrite = false := (h.started.rx_empty hc).2
    rw [pending, hwrite]
    rfl
  rw [hnone, List.nil_append] at hwritten
  exact hwritten

theorem written_begin (hc : p.Contract contents) (h : Connected p s r frames len lead o q c) :
    written h.started.rxRun c <+: sentWords n frames := by
  have hpart : words n _ <+: words n _ := (h.events_begin (Nat.le_refl _)).filterMap _
  rw [words_sent, ← h.written_decoded hc] at hpart
  exact (List.prefix_append ..).trans hpart

theorem written_all (hc : p.Contract contents) (h : Connected p s r frames len lead o q c)
    (hover : endTime n.bits len (o + ratio * q) frames + 3 * q ≤ o + c * q) :
    written h.started.rxRun c = sentWords n frames := by
  have htick := h.inTime.tickPos
  have hend := end_time_le h.spaced
  cases c with
  | zero => omega
  | succ c =>
    rw [Nat.add_mul c 1] at hover
    have hbefore := h.earlier (Nat.le_succ c)
    have hwritten := hbefore.written_decoded hc c
    rw [hbefore.events_all (by omega), words_sent] at hwritten
    exact hwritten

/-- The FIFO has room for 16 words that nobody reads. -/
theorem no_overrun (hc : p.Contract contents) (h : Connected p s r frames len lead o q c)
    (hfew : frames.length ≤ 16) (hk : k < c) : (r.state k).rx.rxOverrunError p = false := by
  refine Receiver.no_overrun (r := h.started.rxRun) hc.fifo (h.started.rx_empty hc).1
    (fun j _ => h.started.rx_spared hc j) ?_ hk
  have hlength := (h.written_begin hc).length_le
  rw [sentWords, List.length_map] at hlength
  exact hlength.trans hfew

/-- A frame without its stop bit would be among what the ticks bring. -/
theorem no_frame_error (hc : p.Contract contents) (h : Connected p s r frames len lead o q c)
    (hk : k < c) : (r.state k).rx.rxFrameError p ((r.state k).rxDrive (r.input k)) = false := by
  have hheard := Receiver.hears_heard h.started.rxRun
  rw [Bool.eq_false_iff]
  intro herror
  obtain ⟨hen, hevent⟩ := (frame_error_at hc.shreg (h.shows hc) hheard k).mp herror
  have hbrings : Decoder.events (sampling n) (heard h.started.rxRun) (.idle false)
        (ticks h.started.rxRun (k + 1)) =
      Decoder.events (sampling n) (heard h.started.rxRun) (.idle false)
        (ticks h.started.rxRun k) ++ [.broken] := by
    rw [events_heard, if_pos hen, hevent]
    rfl
  have hmem := ((h.earlier hk).events_begin (Nat.le_refl _)).subset
    (hbrings ▸ List.mem_append_right _ (List.mem_singleton_self Event.broken))
  obtain ⟨f, -, hf⟩ := List.mem_map.mp hmem
  cases hf

/-- Without an overrun the bytes that the host has read and those that wait in the FIFO are what
was written. -/
theorem bytes_written (hc : p.Contract contents) (h : Connected p s r frames len lead o q c)
    (hroom : ∀ k < c, (r.state k).rx.rxOverrunError p = false) :
    bytesRead r c ++ (contents (r.state c).rx.fifo).map busByte =
      (written h.started.rxRun c).map busByte := by
  rw [bytes_kept hc h.started]
  congr 1
  exact kept_written hroom

end Connected

/-- Without an overrun the bytes that the host has read and those that wait for it are the words
of the sender, in order; three clocks after the last frame is over none is missing. An overrun
takes more than 16 words, and the bit for a frame error is not set. -/
theorem receives_sent (hc : p.Contract contents) (h : Connected p s r frames len lead o q c) :
    ((∀ k < c, (r.state k).rx.rxOverrunError p = false) →
      bytesRead r c ++ (contents (r.state c).rx.fifo).map busByte <+:
          (sentWords n frames).map busByte ∧
        (endTime n.bits len (o + ratio * q) frames + 3 * q ≤ o + c * q →
          bytesRead r c ++ (contents (r.state c).rx.fifo).map busByte =
            (sentWords n frames).map busByte)) ∧
      (frames.length ≤ 16 → ∀ k < c, (r.state k).rx.rxOverrunError p = false) ∧
      (((r.state c).statusReg p).getMsbD 1 = true →
        ((r.state 0).statusReg p).getMsbD 1 = true) := by
  refine ⟨?_, fun hfew k hk => h.no_overrun hc hfew hk,
    frame_error_stays fun k hk => h.no_frame_error hc hk⟩
  intro hroom
  rw [h.bytes_written hc hroom]
  refine ⟨(h.written_begin hc).map busByte, ?_⟩
  intro hover
  rw [h.written_all hc hover]

/-- A port with a tick on every clock to which a frame is sent, at 16 clocks a bit. The host
reads when the frame is over. -/
def listener (n : DataBits) (data : List Bool) : Run (clock (listed n) 1) :=
  portRun n (fun c => lineAt 16 0 [⟨8, data⟩] c) (fun _ => none) fun c => decide (c = 250)

theorem listener_connected (n : DataBits) (data : List Bool) (hdata : data.length = n.bits)
    (c : ℕ) : Connected (listed n) (initialPort n) (listener n data) [⟨8, data⟩] 16 0 0 1 c where
  started := port_started fun _ _ => rfl
  between := ⟨true, resting_quiet n⟩
  inTime := ⟨by decide, by decide, by omega, by omega⟩
  spaced := ⟨show 1 ≤ 8 by decide, hdata, trivial⟩
  line k _ := by
    rw [Nat.mul_one, Nat.zero_add]
    rfl

theorem byte_received : ∃ n : DataBits, n.bits = 8 ∧
    (bytesRead (listener n byte55) 251).map BitVec.toNat = [0x55] := by
  obtain ⟨n, hn⟩ : ∃ n : DataBits, n.bits = 8 := ⟨⟨8, by decide, by decide⟩, rfl⟩
  refine ⟨n, hn, ?_⟩
  have hconnected := listener_connected n byte55 hn.symm
  obtain ⟨hread, hroom, -⟩ := receives_sent (listed_contract n) (hconnected 250)
  have hover : endTime n.bits 16 (0 + 1 * 1) [⟨8, byte55⟩] + 3 * 1 ≤ 0 + 250 * 1 := by
    rw [endTime, endTime, hn]
    decide
  have hbyte : _ = [busByte (wordOf n byte55)] := (hread (hroom (show 1 ≤ 16 by decide))).2 hover
  have hsilent : ∀ k < 250, ((listener n byte55).input k).readsData = false := fun k hk =>
    port_reads.trans (decide_eq_false (Nat.ne_of_lt hk))
  have hreads : ((listener n byte55).input 250).readsData = true := port_reads
  rw [read_waiting (listed_contract n) (hconnected 250).started hsilent hreads hbyte,
    List.map_singleton, busByte, wordOf, BitVec.toNat_setWidth, BitVec.toNat_setWidth, hn]
  rfl

end Vp2Motion.Proofs.CoreReceive
