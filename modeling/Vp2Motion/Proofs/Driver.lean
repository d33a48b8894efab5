import Vp2Motion.Firmware.Driver

namespace Vp2Motion.Proofs.Driver
open Hdl Bus Firmware

/-- Load pulses so far and the one that a set start bit still leads to. -/
def held (b : Board Empty) : ℕ := b.loads.length + if b.core.start then 1 else 0

theorem loads_clock (b : Board Empty) (wr : Option BusWrite) :
    (b.clock wr).loads.length = b.loads.length + if b.core.load false then 1 else 0 := by
  cases h : b.core.load false <;> simp [Board.clock, h]

theorem start_of_load {u : UserLogic} (h : u.load false = true) : u.start = true := by
  simp [UserLogic.load] at h
  exact h.1

theorem held_of_cleared {b : Board Empty} (wr : Option BusWrite)
    (h : (b.clock wr).core.start = (b.core.start && !b.core.load false)) :
    held (b.clock wr) = held b := by
  unfold held
  rw [loads_clock, h]
  cases hl : b.core.load false with
  | true => simp [start_of_load hl]
  | false => simp

theorem held_idle (b : Board Empty) : held (b.clock none) = held b := by
  apply held_of_cleared
  change ((UserLogic.clock false none b.core).reg .cmd).getLsbD 0 = _
  rw [UserLogic.reg_clock_none]
  cases hl : b.core.load false <;> simp [UserLogic.start]

theorem held_write {s : Sel} (b : Board Empty) (hs : s ≠ .reg .cmd) (d : BitVec 32) :
    held (b.clock (some (.full s d))) = held b := by
  apply held_of_cleared
  change ((UserLogic.clock false _ b.core).reg .cmd).getLsbD 0 = _
  cases s with
  | reg r =>
    have hr : Reg.cmd ≠ r := fun he => hs (by rw [he])
    rw [UserLogic.reg_clock_full, if_neg hr]
    cases hl : b.core.load false <;> simp [UserLogic.start]
  | stat t =>
    rw [UserLogic.reg_clock_stat]
    cases hl : b.core.load false <;> simp [UserLogic.start]

/-- A write to the command register replaces the start bit, and the pulse of
the old one is still counted. -/
theorem held_cmd (b : Board Empty) (d : BitVec 32) :
    held (b.clock (some (.full (.reg .cmd) d))) =
      b.loads.length + (if b.core.load false then 1 else 0) + if d.getLsbD 0 then 1 else 0 := by
  have hstart : (b.clock (some (.full (.reg .cmd) d))).core.start = d.getLsbD 0 := by
    change ((UserLogic.clock false _ b.core).reg .cmd).getLsbD 0 = _
    rw [UserLogic.reg_clock_full, if_pos rfl]
  rw [held, loads_clock, hstart]

theorem held_cmd_le (b : Board Empty) (d : BitVec 32) :
    held (b.clock (some (.full (.reg .cmd) d))) ≤ held b + 1 := by
  rw [held_cmd, held]
  have hd : (if d.getLsbD 0 then 1 else 0) ≤ 1 := by split <;> omega
  cases hl : b.core.load false with
  | true =>
    simp only [start_of_load hl, if_true]
    omega
  | false =>
    simp only [Bool.false_eq_true, if_false]
    omega

/-- A word that carries a start bit only where one is pending anyway. -/
theorem held_cmd_of_pending (b : Board Empty) (d : BitVec 32)
    (hd : d.getLsbD 0 = true → b.core.start = true ∧ b.core.load false = false) :
    held (b.clock (some (.full (.reg .cmd) d))) ≤ held b := by
  rw [held_cmd, held]
  cases hbit : d.getLsbD 0 with
  | true =>
    obtain ⟨hs, hl⟩ := hd hbit
    simp [hs, hl]
  | false =>
    cases hl : b.core.load false with
    | true => simp [start_of_load hl]
    | false => simp

/-- Only a reset clears the count, and no driver call resets the core; the
bound holds there as well. -/
theorem held_put_rst (b : Board Empty) (d : BitVec 32) :
    held (Board.device.put .rst d b) ≤ held b := by
  by_cases hd : d = softReset
  · have hput : Board.device.put .rst d b = b.reset := if_pos hd
    rw [hput]
    simp [held, Board.reset, Board.resetWidth, UserLogic.clock_reset, UserLogic.start,
      UserLogic.initial]
  · have hput : Board.device.put .rst d b = b.clock none := if_neg hd
    rw [hput, held_idle]

/-- The write in progress puts a start bit back that the core has taken, or is
taking on this clock, on behalf of a call other than `MOTION_Start`. -/
def WritesBack (s : Firmware.Driver) : Prop :=
  ∃ c d k, s.running = some (c, .write (Reg.addr .cmd) d k) ∧ c ≠ .start ∧
    d.getLsbD 0 = true ∧ ¬(s.board.core.start = true ∧ s.board.core.load false = false)

/-- What the rest of a `MOTION_Start` call is going to set. -/
inductive Owes : Code (Event Empty) Unit → ℕ → Prop where
  | read : Owes motionStart 1
  | write (w : BitVec 32) : Owes (.write (Reg.addr .cmd) (w ||| motionCmdStartMask) (.ret ())) 1
  | ret : Owes (.ret ()) 0

/-- Every pulse and every pending start bit has a `MOTION_Start` call of its
own, and so has every call that has not written its bit yet. -/
def Invariant (s : Firmware.Driver) : Prop :=
  ∃ owed, (∀ p, s.running = some (.start, p) → Owes p owed) ∧ held s.board + owed ≤ s.starts

theorem Invariant.held_le {s : Firmware.Driver} (h : Invariant s) : held s.board ≤ s.starts := by
  obtain ⟨owed, -, hle⟩ := h
  omega

/-- Any step of a call other than `MOTION_Start` that adds no start bit. -/
theorem Invariant.other {s : Firmware.Driver} (h : Invariant s) (hc : c ≠ .start)
    (hb : held b ≤ held s.board) : Invariant { s with running := some (c, p), board := b } := by
  refine ⟨0, ?_, ?_⟩
  · intro q hq
    simp only [Option.some.injEq, Prod.mk.injEq] at hq
    exact absurd hq.1 hc
  · have := h.held_le
    change held b + 0 ≤ s.starts
    omega

theorem invariant_call {s : Firmware.Driver} (h : Invariant s) (c : DriverCall) :
    Invariant { s with
      running := some (c, c.code)
      starts := if c = .start then s.starts + 1 else s.starts } := by
  have hle := h.held_le
  by_cases hc : c = .start
  · subst hc
    refine ⟨1, ?_, ?_⟩
    · intro p hp
      simp only [Option.some.injEq, Prod.mk.injEq, true_and] at hp
      subst hp
      exact .read
    · change held s.board + 1 ≤ s.starts + 1
      omega
  · rw [if_neg hc]
    exact h.other hc le_rfl

theorem invariant_read {s : Firmware.Driver} (h : Invariant s)
    (hr : s.running = some (c, .read addr k)) :
    Invariant { s with
      running := some (c, k (Board.device.get addr s.board))
      board := s.board.clock none } := by
  by_cases hc : c = .start
  · subst hc
    obtain ⟨owed, howes, hle⟩ := h
    refine ⟨owed, ?_, ?_⟩
    · intro p hp
      simp only [Option.some.injEq, Prod.mk.injEq, true_and] at hp
      subst hp
      cases howes _ hr
      exact .write _
    · change held (s.board.clock none) + owed ≤ s.starts
      rw [held_idle]
      exact hle
  · exact h.other hc (held_idle _).le

theorem invariant_write {s : Firmware.Driver} (h : Invariant s) (hw : ¬WritesBack s)
    (hr : s.running = some (c, .write addr d k)) :
    Invariant { s with
      running := some (c, k)
      board := Board.device.put addr d s.board } := by
  by_cases hc : c = .start
  · subst hc
    obtain ⟨owed, howes, hle⟩ := h
    obtain _ | w | _ := howes _ hr
    refine ⟨0, ?_, ?_⟩
    · intro p hp
      simp only [Option.some.injEq, Prod.mk.injEq, true_and] at hp
      subst hp
      exact .ret
    · have hcmd := held_cmd_le s.board (w ||| motionCmdStartMask)
      change held (s.board.clock (some (.full (.reg .cmd) (w ||| motionCmdStartMask)))) + 0 ≤ s.starts
      omega
  · apply h.other hc
    cases addr with
    | rst => exact held_put_rst s.board d
    | sel q =>
      change held (s.board.clock (some (.full q d))) ≤ held s.board
      by_cases hq : q = .reg .cmd
      · subst hq
        apply held_cmd_of_pending
        intro hd
        by_contra hlost
        exact hw ⟨c, d, k, hr, hc, hd, hlost⟩
      · exact (held_write s.board hq d).le

theorem invariant_step {s t : Firmware.Driver} (h : Invariant s)
    (hw : a = .write → ¬WritesBack s) (hs : s.Step a t) : Invariant t := by
  cases hs with
  | clock =>
    obtain ⟨owed, howes, hle⟩ := h
    refine ⟨owed, howes, ?_⟩
    change held (s.board.clock none) + owed ≤ s.starts
    rw [held_idle]
    exact hle
  | call c hr => exact invariant_call h c
  | read hr => exact invariant_read h hr
  | write hr => exact invariant_write h (hw rfl) hr
  | «return» hr => exact ⟨0, by simp, h.held_le⟩

/-- As long as no setter writes a taken start bit back, every load pulse
belongs to a `MOTION_Start` call of its own. -/
theorem loads_le_starts (s : Firmware.Driver)
    (h : s.Reachable (fun s a => a = .write → ¬WritesBack s)) :
    s.board.loads.length ≤ s.starts := by
  have hinv : Invariant s := by
    induction h with
    | initial => exact ⟨0, by simp [Firmware.Driver.initial], le_rfl⟩
    | step _ hw hs ih => exact invariant_step ih hw hs
  have := hinv.held_le
  unfold held at this
  omega

/-- One setter and one start: the first load pulse. -/
theorem one_start_one_load : ∃ s : Firmware.Driver,
    s.Reachable (fun s a => a = .write → ¬WritesBack s) ∧ s.starts = 1 ∧
      s.board.loads.length ≤ 1 ∧ 0 < s.board.loads.length := by
  have h₀ : Firmware.Driver.Reachable (fun s a => a = .write → ¬WritesBack s) .initial := .initial
  have h₁ := h₀.step (by simp) (.call (.setA 5) rfl)
  have h₂ := h₁.step (by rintro - ⟨_, _, _, ⟨⟩, -⟩) (.write rfl)
  have h₃ := h₂.step (by simp) (.read rfl)
  have h₄ := h₃.step (by rintro - ⟨_, _, _, ⟨⟩, -, hd, -⟩; exact absurd hd (by decide)) (.write rfl)
  have h₅ := h₄.step (by simp) (.return rfl)
  have h₆ := h₅.step (by simp) (.call .start rfl)
  have h₇ := h₆.step (by simp) (.read rfl)
  have h₈ := h₇.step (by rintro - ⟨_, _, _, ⟨⟩, hc, -⟩; exact hc rfl) (.write rfl)
  have h₉ := h₈.step (by simp) (.clock _)
  exact ⟨_, h₉, rfl, loads_le_starts _ h₉, by decide⟩

/-- `MOTION_SetA` reads the command while the second start is pending. The core
takes that start on the clock of the read, and the setter writes it back: a
third load for two starts. -/
theorem setter_starts_again : ∃ s : Firmware.Driver,
    s.Reachable (fun _ _ => True) ∧ s.starts = 2 ∧ s.board.loads.length = 3 := by
  have h₀ : Firmware.Driver.Reachable (fun _ _ => True) .initial := .initial
  have h₁ := ((h₀.step trivial (.call (.setDT 4) rfl)).step trivial (.write rfl)).step trivial
    (.return rfl)
  have h₂ := ((h₁.step trivial (.call (.setSteps 1) rfl)).step trivial (.write rfl)).step trivial
    (.return rfl)
  have h₃ := (((h₂.step trivial (.call .start rfl)).step trivial (.read rfl)).step trivial
    (.write rfl)).step trivial (.return rfl)
  have h₄ := h₃.step trivial (.clock _)
  have h₅ := (((h₄.step trivial (.call .start rfl)).step trivial (.read rfl)).step trivial
    (.write rfl)).step trivial (.return rfl)
  have h₆ := (((h₅.step trivial (.call (.setA 7) rfl)).step trivial (.write rfl)).step trivial
    (.read rfl)).step trivial (.write rfl)
  have h₇ := (((h₆.step trivial (.clock _)).step trivial (.clock _)).step trivial
    (.clock _)).step trivial (.clock _)
  exact ⟨_, h₇, rfl, by decide⟩

end Vp2Motion.Proofs.Driver
