import Mathlib.Data.Nat.Find
import Vp2Motion.Firmware.Diskio

namespace Vp2Motion.Proofs.Mmc
open Serial Firmware

/-- `mmc_response` on any card, told by what the card answers to `0xFF`. -/
theorem response_run {σ : Type} (card : Card σ) (b : Byte) (s : Spi σ) :
    mmcResponse card b s =
      (if ∃ k, k < responseCount ∧ card.answer s.select 0xFF s.slave k = b then 0 else 1,
        { s with
          slave := card.after s.select 0xFF s.slave
            (polled (· == b) (card.answer s.select 0xFF s.slave) responseCount) }) := by
  have hfound : responseCount - wait (· == b) (card.answer s.select 0xFF s.slave) responseCount ≠
      0 ↔ ∃ k, k < responseCount ∧ card.answer s.select 0xFF s.slave k = b := by
    rw [poll_ne_zero_iff]
    simp only [beq_iff_eq]
  rw [mmcResponse, run_bind (poll_eq responseCount)]
  by_cases h : ∃ k, k < responseCount ∧ card.answer s.select 0xFF s.slave k = b
  · rw [if_neg (hfound.mpr h), if_pos h]
    rfl
  · rw [if_pos (by_contra fun hne => h (hfound.mp hne)), if_neg h]
    rfl

/-- `b` is among the bytes that a poll from position `n` of the stream may take. -/
def Answered (miso : ℕ → Byte) (b : Byte) (n : ℕ) : Prop :=
  ∃ k, k < responseCount ∧ miso (n + k) = b

/-- The position after that poll. -/
def pollEnd (miso : ℕ → Byte) (b : Byte) (n : ℕ) : ℕ :=
  n + polled (· == b) (fun k => miso (n + k)) responseCount

variable {miso : ℕ → Byte} {l : BitVec 32} {n : ℕ}

theorem send_eq (ws : List Byte) :
    spiSend (streamSlave miso) ws ⟨l, n⟩ = ((), ⟨l, n + ws.length⟩) := by
  have h := stream_transfer_all (L := BitVec 32) miso ws l n
  exact congrArg (Prod.mk ()) h

theorem command_eq (b₀ b₁ b₂ b₃ b₄ b₅ : Byte) :
    spiSend (streamSlave miso) [b₀, b₁, b₂, b₃, b₄, b₅] ⟨l, n⟩ = ((), ⟨l, n + 6⟩) :=
  send_eq _

theorem receive_eq (k : ℕ) :
    spiReceive (streamSlave miso) k ⟨l, n⟩ =
      ((List.range k).map (fun i => miso (n + i)), ⟨l, n + k⟩) := by
  rw [spiReceive, transfer_all_fill]
  simp

theorem response_answered (h : Answered miso b n) :
    mmcResponse (streamSlave miso) b ⟨l, n⟩ = (0, ⟨l, pollEnd miso b n⟩) := by
  unfold Answered at h
  rw [response_run]
  simp only [stream_answer, stream_after]
  rw [if_pos h]
  rfl

/-- A poll without an answer takes all of its bytes. -/
theorem response_silent (h : ¬Answered miso b n) :
    mmcResponse (streamSlave miso) b ⟨l, n⟩ = (1, ⟨l, n + responseCount⟩) := by
  have hwait : ¬wait (· == b) (fun k => miso (n + k)) responseCount < responseCount := by
    rw [wait_lt_iff]
    simpa [Answered] using h
  have hend : polled (· == b) (fun k => miso (n + k)) responseCount = responseCount := by
    rw [polled]
    omega
  unfold Answered at h
  rw [response_run]
  simp only [stream_answer, stream_after]
  rw [if_neg h, hend]

theorem set_cs_eq {σ : Type} {x : σ} : setCs ⟨l, x⟩ = ((), ⟨0, x⟩) := rfl

theorem clear_cs_eq {σ : Type} {x : σ} : clearCs ⟨l, x⟩ = ((), ⟨1, x⟩) := rfl

theorem dummy_clocks_eq : dummyClocks (streamSlave miso) ⟨l, n⟩ = ((), ⟨0, n + 3⟩) := rfl

/-- The bytes of one attempt that is not answered: a command and a full poll. -/
def attemptLength : ℕ := 6 + responseCount

/-- The `m`-th CMD1 after position `n` is answered. -/
def Ready (miso : ℕ → Byte) (n m : ℕ) : Prop := Answered miso 0x00 (n + attemptLength * m + 6)

theorem attempt_answered {i : ℕ} (h : Answered miso 0x00 (n + 6)) :
    sendOpCond (streamSlave miso) (i + 1) ⟨l, n⟩ = (i, ⟨l, pollEnd miso 0x00 (n + 6)⟩) := by
  rw [sendOpCond, run_bind (command_eq ..), run_bind (response_answered h), if_neg (by simp)]
  rfl

theorem attempt_last (h : ¬Answered miso 0x00 (n + 6)) :
    sendOpCond (streamSlave miso) 1 ⟨l, n⟩ = (0, ⟨l, n + attemptLength⟩) := by
  rw [sendOpCond, run_bind (command_eq ..), run_bind (response_silent h), if_neg (by simp),
    attemptLength, Nat.add_assoc]
  rfl

theorem attempt_silent {i : ℕ} (hi : 0 < i) (h : ¬Answered miso 0x00 (n + 6)) :
    sendOpCond (streamSlave miso) (i + 1) ⟨l, n⟩ =
      sendOpCond (streamSlave miso) i ⟨l, n + attemptLength⟩ := by
  rw [sendOpCond, run_bind (command_eq ..), run_bind (response_silent h),
    if_pos ⟨by decide, hi⟩, attemptLength, Nat.add_assoc]

theorem ready_zero : Ready miso n 0 ↔ Answered miso 0x00 (n + 6) := Iff.rfl

theorem attempt_shift (n m : ℕ) :
    n + attemptLength + attemptLength * m + 6 = n + attemptLength * (m + 1) + 6 := by
  rw [Nat.mul_succ]
  omega

theorem ready_shift (n m : ℕ) : Ready miso (n + attemptLength) m ↔ Ready miso n (m + 1) := by
  rw [Ready, Ready, attempt_shift]

/-- The first attempt that is answered ends the loop, with what is left of the counter. -/
theorem op_cond_answered {i m : ℕ} (hm : m < i) (h : Ready miso n m)
    (hmiss : ∀ k, k < m → ¬Ready miso n k) :
    sendOpCond (streamSlave miso) i ⟨l, n⟩ =
      (i - 1 - m, ⟨l, pollEnd miso 0x00 (n + attemptLength * m + 6)⟩) := by
  induction m generalizing i n with
  | zero =>
    obtain ⟨i, rfl⟩ := Nat.exists_eq_add_of_lt hm
    rw [Nat.zero_add, attempt_answered (ready_zero.mp h)]
    rfl
  | succ m ih =>
    obtain ⟨i, rfl⟩ := Nat.exists_eq_add_of_lt hm
    have hrest := ih (i := m + i + 1) (by omega) ((ready_shift n m).mpr h)
      (fun k hk => by rw [ready_shift]; exact hmiss (k + 1) (by omega))
    have hsilent := mt ready_zero.mpr (hmiss 0 (Nat.succ_pos m))
    rw [show m + 1 + i + 1 = m + i + 1 + 1 by omega, attempt_silent (by omega) hsilent, hrest,
      attempt_shift]
    congr 1
    omega

theorem op_cond_silent {i : ℕ} (hi : 1 ≤ i) (hmiss : ∀ k, k < i → ¬Ready miso n k) :
    sendOpCond (streamSlave miso) i ⟨l, n⟩ = (0, ⟨l, n + attemptLength * i⟩) := by
  induction i, hi using Nat.le_induction generalizing n with
  | base => rw [attempt_last (mt ready_zero.mpr (hmiss 0 Nat.one_pos)), Nat.mul_one]
  | succ i hi ih =>
    have hrest := ih fun k hk => by
      rw [ready_shift]
      exact hmiss (k + 1) (by omega)
    rw [attempt_silent hi (mt ready_zero.mpr (hmiss 0 (Nat.succ_pos i))), hrest, Nat.mul_succ,
      Nat.add_assoc, Nat.add_comm attemptLength]

/-- CMD0 is answered: the ten bytes before it and the command are through. -/
def Idled (miso : ℕ → Byte) (n : ℕ) : Prop := Answered miso 0x01 (n + 16)

/-- Where the first CMD1 starts: three dummy bytes after the answer to CMD0. -/
def opStart (miso : ℕ → Byte) (n : ℕ) : ℕ := pollEnd miso 0x01 (n + 16) + 3

/-- Attempt `m` is the first CMD1 that is answered. -/
structure FirstReady (miso : ℕ → Byte) (n m : ℕ) : Prop where
  ready : Ready miso (opStart miso n) m
  first : ∀ k, k < m → ¬Ready miso (opStart miso n) k

/-- Where the answer to CMD16 is polled after attempt `m`. -/
def blocklenStart (miso : ℕ → Byte) (n m : ℕ) : ℕ :=
  pollEnd miso 0x00 (opStart miso n + attemptLength * m + 6) + 9

theorem exists_first_ready (h : ∃ m, m < i ∧ Ready miso (opStart miso n) m) :
    ∃ m, m < i ∧ FirstReady miso n m := by
  classical
  obtain ⟨m, hm, hready⟩ := h
  have hex : ∃ m, Ready miso (opStart miso n) m := ⟨m, hready⟩
  exact ⟨Nat.find hex, Nat.lt_of_le_of_lt (Nat.find_min' hex hready) hm, Nat.find_spec hex,
    fun k hk => Nat.find_min hex hk⟩

theorem FirstReady.unique (h : FirstReady miso n m) (h' : FirstReady miso n m') : m = m' := by
  rcases Nat.lt_trichotomy m m' with hlt | heq | hlt
  · exact absurd h.ready (h'.first m hlt)
  · exact heq
  · exact absurd h'.ready (h.first m' hlt)

theorem init_not_idled (h : ¬Idled miso n) :
    mmcInit (streamSlave miso) ⟨l, n⟩ = (-1, ⟨1, n + 16 + responseCount⟩) := by
  rw [mmcInit, run_bind set_cs_eq, run_bind (receive_eq 10), run_bind clear_cs_eq,
    run_bind (command_eq ..), run_bind (response_silent h), if_pos (by decide)]
  rfl

/-- The part up to the CMD1 loop, when CMD0 is answered. -/
theorem init_idled (h : Idled miso n) :
    mmcInit (streamSlave miso) ⟨l, n⟩ =
      (do
        let i ← sendOpCond (streamSlave miso) mmcTimeout
        if i = 0 then return -1
        else
          dummyClocks (streamSlave miso)
          clearCs
          spiSend (streamSlave miso) [0x50, 0x00, 0x00, 0x02, 0x00, 0xFF]
          let _ ← mmcResponse (streamSlave miso) 0x00
          dummyClocks (streamSlave miso)
          return 0 : StateM (Spi ℕ) ℤ) ⟨1, opStart miso n⟩ := by
  rw [mmcInit, run_bind set_cs_eq, run_bind (receive_eq 10), run_bind clear_cs_eq,
    run_bind (command_eq ..), run_bind (response_answered h), if_neg (by decide),
    run_bind dummy_clocks_eq, run_bind clear_cs_eq]
  rfl

theorem init_not_ready (h : Idled miso n)
    (hmiss : ∀ m, m < mmcTimeout → ¬Ready miso (opStart miso n) m) :
    (mmcInit (streamSlave miso) ⟨l, n⟩).1 = -1 ∧
      (mmcInit (streamSlave miso) ⟨l, n⟩).2.select = 1 := by
  rw [init_idled h, run_bind (op_cond_silent (by decide) hmiss), if_pos rfl]
  exact ⟨rfl, rfl⟩

/-- An answer to the last attempt leaves the counter at zero like a timeout. -/
theorem init_last (h : Idled miso n) (hm : FirstReady miso n 254) :
    (mmcInit (streamSlave miso) ⟨l, n⟩).1 = -1 ∧
      (mmcInit (streamSlave miso) ⟨l, n⟩).2.select = 1 := by
  rw [init_idled h, run_bind (op_cond_answered (by decide) hm.ready hm.first),
    if_pos (by decide)]
  exact ⟨rfl, rfl⟩

theorem init_ready (h : Idled miso n) (hm : FirstReady miso n m) (hlt : m < 254) :
    (mmcInit (streamSlave miso) ⟨l, n⟩).1 = 0 ∧
      (mmcInit (streamSlave miso) ⟨l, n⟩).2.select = 0 := by
  have hleft : mmcTimeout - 1 - m ≠ 0 := by
    rw [mmcTimeout]
    omega
  rw [init_idled h, run_bind (op_cond_answered (by rw [mmcTimeout]; omega) hm.ready hm.first),
    if_neg hleft, run_bind dummy_clocks_eq, run_bind clear_cs_eq, run_bind (command_eq ..),
    run_bind (response_run ..), run_bind dummy_clocks_eq]
  exact ⟨rfl, rfl⟩

/-- What `mmc_init` does, told by the answers of the card. -/
theorem init_cases (miso : ℕ → Byte) (l : BitVec 32) (n : ℕ) :
    (Idled miso n ∧ (∃ m, m < 254 ∧ Ready miso (opStart miso n) m) ∧
      (mmcInit (streamSlave miso) ⟨l, n⟩).1 = 0 ∧
      (mmcInit (streamSlave miso) ⟨l, n⟩).2.select = 0) ∨
    (¬(Idled miso n ∧ ∃ m, m < 254 ∧ Ready miso (opStart miso n) m) ∧
      (mmcInit (streamSlave miso) ⟨l, n⟩).1 = -1 ∧
      (mmcInit (streamSlave miso) ⟨l, n⟩).2.select = 1) := by
  by_cases hidle : Idled miso n
  · by_cases hready : ∃ m, m < 254 ∧ Ready miso (opStart miso n) m
    · obtain ⟨m, hlt, hm⟩ := exists_first_ready hready
      exact .inl ⟨hidle, hready, init_ready hidle hm hlt⟩
    · refine .inr ⟨fun h => hready h.2, ?_⟩
      have hmiss : ∀ m, m < 254 → ¬Ready miso (opStart miso n) m :=
        fun m hm hr => hready ⟨m, hm, hr⟩
      by_cases hlast : Ready miso (opStart miso n) 254
      · exact init_last hidle ⟨hlast, hmiss⟩
      · apply init_not_ready hidle
        intro m hm
        rw [mmcTimeout] at hm
        by_cases h254 : m = 254
        · rwa [h254]
        · exact hmiss m (by omega)
  · refine .inr ⟨fun h => hidle h.1, ?_⟩
    rw [init_not_idled hidle]
    exact ⟨rfl, rfl⟩

theorem read_command_eq (block : BitVec 32) :
    spiSend (streamSlave miso) (readCommand block) ⟨l, n⟩ = ((), ⟨l, n + 6⟩) :=
  send_eq _

theorem read_cases (block : BitVec 32) (miso : ℕ → Byte) (l : BitVec 32) (n : ℕ) :
    (Answered miso 0x00 (n + 6) ∧ Answered miso 0xFE (pollEnd miso 0x00 (n + 6)) ∧
      (mmcReadBlock (streamSlave miso) block ⟨l, n⟩).1.1 = 0 ∧
      (mmcReadBlock (streamSlave miso) block ⟨l, n⟩).2.select = 0) ∨
    (¬(Answered miso 0x00 (n + 6) ∧ Answered miso 0xFE (pollEnd miso 0x00 (n + 6))) ∧
      (mmcReadBlock (streamSlave miso) block ⟨l, n⟩).1.1 = -1 ∧
      (mmcReadBlock (streamSlave miso) block ⟨l, n⟩).2.select = 1) := by
  rw [mmcReadBlock, run_bind clear_cs_eq, run_bind (read_command_eq block)]
  by_cases hr1 : Answered miso 0x00 (n + 6)
  · rw [run_bind (response_answered hr1), if_neg (by decide)]
    by_cases htoken : Answered miso 0xFE (pollEnd miso 0x00 (n + 6))
    · rw [run_bind (response_answered htoken), if_neg (by decide), run_bind (receive_eq _)]
      exact .inl ⟨hr1, htoken, rfl, rfl⟩
    · rw [run_bind (response_silent htoken), if_pos rfl]
      exact .inr ⟨fun h => htoken h.2, rfl, rfl⟩
  · rw [run_bind (response_silent hr1), if_pos rfl]
    exact .inr ⟨fun h => hr1 h.1, rfl, rfl⟩

/-- Both functions leave the card deselected exactly when they succeed: a block
read when both of its polls are answered, the initialization when CMD0 and one of
the first 254 attempts at CMD1 are. -/
theorem deselected_exactly_when (miso : ℕ → Byte) (l : BitVec 32) (n : ℕ) :
    (∀ block, (mmcReadBlock (streamSlave miso) block ⟨l, n⟩).2.select = 0 ↔
      Answered miso 0x00 (n + 6) ∧ Answered miso 0xFE (pollEnd miso 0x00 (n + 6))) ∧
    ((mmcInit (streamSlave miso) ⟨l, n⟩).2.select = 0 ↔
      Answered miso 0x01 (n + 16) ∧ ∃ m, m < 254 ∧
        Answered miso 0x00 (opStart miso n + attemptLength * m + 6)) := by
  refine ⟨?_, ?_⟩
  · intro block
    rcases read_cases block miso l n with ⟨hr1, htoken, -, hsel⟩ | ⟨hno, -, hsel⟩
    · exact ⟨fun _ => ⟨hr1, htoken⟩, fun _ => hsel⟩
    · rw [hsel]
      exact ⟨fun h => absurd h (by decide), fun h => absurd h hno⟩
  · rcases init_cases miso l n with ⟨hidle, hready, -, hsel⟩ | ⟨hno, -, hsel⟩
    · exact ⟨fun _ => ⟨hidle, hready⟩, fun _ => hsel⟩
    · rw [hsel]
      exact ⟨fun h => absurd h (by decide), fun h => absurd h hno⟩

theorem silent_not_answered (hb : b ≠ 0xFF) : ¬Answered (fun _ => 0xFF) b n := by
  rintro ⟨k, -, hk⟩
  exact hb hk.symm

/-- A missing card: nothing drives the line. Both functions fail and leave the
slave select asserted. -/
theorem missing_card_selected :
    mmcReadBlock (streamSlave fun _ => 0xFF) 0 ⟨0, 0⟩ = ((-1, []), ⟨1, 6 + responseCount⟩) ∧
    mmcInit (streamSlave fun _ => 0xFF) ⟨0, 0⟩ = (-1, ⟨1, 16 + responseCount⟩) := by
  refine ⟨?_, ?_⟩
  · rw [mmcReadBlock, run_bind clear_cs_eq, run_bind (read_command_eq 0),
      run_bind (response_silent (silent_not_answered (by decide))), if_pos rfl, Nat.zero_add]
    rfl
  · rw [init_not_idled (silent_not_answered (by decide)), Nat.zero_add]

/-- CMD0 is answered, one of the 255 attempts at CMD1 is, and so is CMD16 after it. -/
def BroughtUp (miso : ℕ → Byte) (n : ℕ) : Prop :=
  Idled miso n ∧ ∃ m, m < mmcTimeout ∧ FirstReady miso n m ∧
    Answered miso 0x00 (blocklenStart miso n m)

/-- The result tells whether the card was brought up, and a failure reaches FatFs. -/
structure Reports (miso : ℕ → Byte) (l : BitVec 32) (n : ℕ) : Prop where
  success : (mmcInit (streamSlave miso) ⟨l, n⟩).1 = 0 ↔ BroughtUp miso n
  failure : ¬BroughtUp miso n → (mmcInit (streamSlave miso) ⟨l, n⟩).1 = -1 ∧
    (diskInitialize (streamSlave miso) sd ⟨l, n⟩).1 &&& staNoinit ≠ 0

/-- `mmc_init` takes an answer to the last attempt for a timeout, and it does not
look at the answer to CMD16. -/
def Misjudged (miso : ℕ → Byte) (n : ℕ) : Prop :=
  Idled miso n ∧ ∃ m, FirstReady miso n m ∧
    (m < 254 ∧ ¬Answered miso 0x00 (blocklenStart miso n m) ∨
      m = 254 ∧ Answered miso 0x00 (blocklenStart miso n m))

theorem disk_initialize_eq :
    (diskInitialize (streamSlave miso) sd ⟨l, n⟩).1 =
      BitVec.ofInt 8 (mmcInit (streamSlave miso) ⟨l, n⟩).1 := by
  rw [diskInitialize, if_pos rfl, run_bind_eq]
  rfl

theorem reports_of_success (h : (mmcInit (streamSlave miso) ⟨l, n⟩).1 = 0) :
    Reports miso l n ↔ BroughtUp miso n :=
  ⟨fun hrep => hrep.success.mp h, fun hup => ⟨⟨fun _ => hup, fun _ => h⟩, fun hno => absurd hup hno⟩⟩

theorem reports_of_failure (h : (mmcInit (streamSlave miso) ⟨l, n⟩).1 = -1) :
    Reports miso l n ↔ ¬BroughtUp miso n := by
  have hne : (mmcInit (streamSlave miso) ⟨l, n⟩).1 ≠ 0 := by
    rw [h]
    decide
  have hstatus : (diskInitialize (streamSlave miso) sd ⟨l, n⟩).1 &&& staNoinit ≠ 0 := by
    rw [disk_initialize_eq, h]
    decide
  exact ⟨fun hrep hup => hne (hrep.success.mpr hup),
    fun hdown => ⟨⟨fun hzero => absurd hzero hne, fun hup => absurd hup hdown⟩,
      fun _ => ⟨h, hstatus⟩⟩⟩

theorem brought_up_iff (hidle : Idled miso n) (hm : FirstReady miso n m) (hlt : m < mmcTimeout) :
    BroughtUp miso n ↔ Answered miso 0x00 (blocklenStart miso n m) := by
  constructor
  · rintro ⟨-, k, -, hk, hans⟩
    rwa [hk.unique hm] at hans
  · intro hans
    exact ⟨hidle, m, hlt, hm, hans⟩

theorem misjudged_iff (hidle : Idled miso n) (hm : FirstReady miso n m) (hlt : m < 254) :
    Misjudged miso n ↔ ¬Answered miso 0x00 (blocklenStart miso n m) := by
  constructor
  · rintro ⟨-, k, hk, hcase⟩
    rw [hk.unique hm] at hcase
    rcases hcase with ⟨-, hans⟩ | ⟨h254, -⟩
    · exact hans
    · omega
  · intro hans
    exact ⟨hidle, m, hm, .inl ⟨hlt, hans⟩⟩

theorem reports_exactly_when (miso : ℕ → Byte) (l : BitVec 32) (n : ℕ) :
    Reports miso l n ↔ ¬Misjudged miso n := by
  rcases init_cases miso l n with ⟨hidle, hready, hzero, -⟩ | ⟨hno, hminus, -⟩
  · obtain ⟨m, hlt, hm⟩ := exists_first_ready hready
    have hlimit : m < mmcTimeout := Nat.lt_trans hlt (by decide)
    rw [reports_of_success hzero, brought_up_iff hidle hm hlimit, misjudged_iff hidle hm hlt,
      not_not]
  · rw [reports_of_failure hminus, not_iff_not]
    constructor
    · rintro ⟨hidle, m, hlt, hm, hans⟩
      rw [mmcTimeout] at hlt
      by_cases h254 : m = 254
      · exact ⟨hidle, m, hm, .inr ⟨h254, hans⟩⟩
      · exact absurd ⟨hidle, m, by omega, hm.ready⟩ hno
    · rintro ⟨hidle, m, hm, ⟨hlt, -⟩ | ⟨rfl, hans⟩⟩
      · exact absurd ⟨hidle, m, hlt, hm.ready⟩ hno
      · exact ⟨hidle, 254, by decide, hm, hans⟩

/-- A card that answers CMD0 and the first CMD1 at once and then falls silent. -/
def halfway (n : ℕ) : Byte := if n = 16 then 0x01 else if n = 26 then 0x00 else 0xFF

theorem poll_end_of_hit (h : miso n = b) : pollEnd miso b n = n + 1 := by
  have hwait : wait (· == b) (fun k => miso (n + k)) responseCount = 0 :=
    wait_eq (by decide) (by simp [h]) (by simp)
  rw [pollEnd, polled, hwait]
  rfl

/-- CMD16 is never answered, and `mmc_init` reports success. -/
theorem blocklen_ignored :
    (mmcInit (streamSlave halfway) ⟨0, 0⟩).1 = 0 ∧
    (diskInitialize (streamSlave halfway) sd ⟨0, 0⟩).1 = 0 ∧ ¬BroughtUp halfway 0 := by
  have hidle : Idled halfway 0 := ⟨0, by decide, rfl⟩
  have hstart : opStart halfway 0 = 20 := by
    rw [opStart, poll_end_of_hit (show halfway (0 + 16) = 0x01 from rfl)]
  have hready : Ready halfway (opStart halfway 0) 0 := by
    rw [hstart]
    exact ⟨0, by decide, rfl⟩
  have hfirst : FirstReady halfway 0 0 := ⟨hready, fun k hk => absurd hk (Nat.not_lt_zero k)⟩
  have hblock : blocklenStart halfway 0 0 = 36 := by
    rw [blocklenStart, hstart, Nat.mul_zero,
      poll_end_of_hit (show halfway (20 + 0 + 6) = 0x00 from rfl)]
  have hzero := (init_ready (l := 0) hidle hfirst (by decide)).1
  refine ⟨hzero, ?_, ?_⟩
  · rw [disk_initialize_eq, hzero]
    rfl
  · rintro ⟨-, m, -, hm, k, -, hk⟩
    rw [hm.unique hfirst, hblock] at hk
    rw [halfway, if_neg (by omega), if_neg (by omega)] at hk
    exact absurd hk (by decide)

end Vp2Motion.Proofs.Mmc
