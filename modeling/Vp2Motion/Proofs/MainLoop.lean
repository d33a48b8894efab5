import Vp2Motion.Proofs.Handshake

namespace Vp2Motion.Proofs.MainLoop
open Hdl Bus Firmware Handshake

variable {α : Type} [CDouble α] {b : Board α} {queue : List (Target α)} {s : Steppers α}

/-- What the software state promises about the core between two calls. -/
def Boundary (s : Steppers α) (b : Board α) : Prop :=
  match s.state with
  | .off | .idle => Resting s.pending b ∧ s.currentPosition.v = ((0 : ℕ) : α)
  | .active => ∃ c, After c s.pending b
  | .delay => False
  | .stopping => After .stop s.pending b ∧ s.currentPosition.v = ((0 : ℕ) : α)

theorem boundary_stable (s : Steppers α) : Stable Board.device (Boundary s) := by
  intro b h
  unfold Boundary at h ⊢
  cases hs : s.state with
  | off | idle =>
    simp only [hs] at h ⊢
    exact ⟨resting_stable b h.1, h.2⟩
  | active =>
    simp only [hs] at h ⊢
    obtain ⟨c, hc⟩ := h
    exact ⟨c, after_stable b hc⟩
  | delay =>
    simp only [hs] at h
  | stopping =>
    simp only [hs] at h ⊢
    exact ⟨after_stable b h.1, h.2⟩

theorem Boundary.safe (h : Boundary s b) : Safe b := by
  unfold Boundary at h
  cases hs : s.state with
  | off | idle =>
    simp only [hs] at h
    exact h.1.safe
  | active =>
    simp only [hs] at h
    obtain ⟨c, hc⟩ := h
    exact hc.safe
  | delay =>
    simp only [hs] at h
  | stopping =>
    simp only [hs] at h
    exact h.1.safe

theorem Boundary.ledger (h : Boundary s b) : Ledger s.pending b := by
  unfold Boundary at h
  cases hs : s.state with
  | off | idle =>
    simp only [hs] at h
    exact h.1.1.1.ledger
  | active =>
    simp only [hs] at h
    obtain ⟨c, hc⟩ := h
    exact hc.ledger
  | delay =>
    simp only [hs] at h
  | stopping =>
    simp only [hs] at h
    exact h.1.ledger

theorem wp_skip (h : Boundary s b) : Wp Board.device Safe Due (.ret s) Boundary b :=
  wp_ret (boundary_stable s) (fun _ => Boundary.safe) h (fun _ h => h)

theorem wp_configure (h : Resting queue b) (hr : r ≠ .cmd) (d : BitVec 32) :
    Wp Board.device Safe Due (motionWriteReg (Reg.addr r) d) (fun _ => Resting queue) b := by
  apply wp_write resting_stable (fun _ => Resting.safe) h
  intro b h
  exact wp_ret resting_stable (fun _ => Resting.safe) (h.write hr d) (fun _ h => h)

theorem wp_init_core (h : Resting s.pending b) :
    Wp Board.device Safe Due (initCore s) Boundary b := by
  apply wp_mark resting_stable (fun _ => Resting.safe) h
  · intro b _ ht
    simp at ht
  intro b h
  refine (wp_configure h (by simp) _).seq ?_
  intro _ b h
  refine (wp_configure h (by simp) _).seq ?_
  intro _ b h
  refine (wp_configure h (by simp) _).seq ?_
  intro _ b h
  refine (wp_configure h (by simp) _).seq ?_
  intro _ b h
  refine (wp_configure h (by simp) _).seq ?_
  intro _ b h
  exact wp_skip ⟨h, rfl⟩

/-- The read of the status register once the start bit was seen clear. The
generator cannot restart in between, so a set bit means that all is over. -/
theorem wp_status {k : BitVec 32 → Code (Event α) (Steppers α)} (P : Board α → Prop)
    (hP : Stable Board.device P) (hsafe : ∀ b, P b → Safe b) (h : P b)
    (hrun : ∀ w b, w &&& 1 ≠ 1 → P b → Wp Board.device Safe Due (k w) Boundary b)
    (hstop : ∀ w b, w &&& 1 = 1 → P b → b.core.stopped = true →
      Wp Board.device Safe Due (k w) Boundary (b.clock none)) :
    Wp Board.device Safe Due (motionReadReg (Stat.addr .status) >>= k) Boundary b := by
  apply wp_read hP hsafe h
  intro b h
  change Wp Board.device Safe Due (k (b.core.read (.stat .status))) Boundary (b.clock none)
  by_cases hw : b.core.read (.stat .status) &&& 1 = 1
  · exact hstop _ b hw h ((read_status b.core).mp hw)
  · exact hrun _ _ hw (hP b h)

theorem wp_cmd {k : BitVec 32 → Code (Event α) (Steppers α)} (h : After c queue b)
    (hclear : ∀ w b, w &&& 1 = 0 → Quiet queue b → (c = .stop → AtRest b.core) →
      Wp Board.device Safe Due (k w) Boundary b)
    (hset : ∀ w b, w &&& 1 ≠ 0 → After c queue b → Wp Board.device Safe Due (k w) Boundary b) :
    Wp Board.device Safe Due (motionReadReg (Reg.addr .cmd) >>= k) Boundary b := by
  apply wp_read after_stable (fun _ => After.safe) h
  intro b h
  change Wp Board.device Safe Due (k (b.core.reg .cmd)) Boundary (b.clock none)
  by_cases hw : b.core.reg .cmd &&& 1 = 0
  · obtain ⟨hq, hrest⟩ := h.read_cmd hw
    exact hclear _ _ hw hq.idle (fun hc => (hrest hc).clock hq.no_load none)
  · exact hset _ _ hw (after_stable b h)

theorem wp_idle (hs : s.state = .idle) (h : Boundary s b) :
    Wp Board.device Safe Due (steppersMainLoop s) Boundary b := by
  have hrest : Resting s.pending b := by
    simp only [Boundary, hs] at h
    exact h.1
  simp only [steppersMainLoop, hs]
  split
  · rename_i hlen
    refine (wp_unqueue_move s hlen hrest.1.1).seq ?_
    rintro t b ⟨rfl, hafter⟩
    exact wp_skip ⟨_, hafter⟩
  · exact wp_skip h

theorem wp_active (hs : s.state = .active) (h : Boundary s b) :
    Wp Board.device Safe Due (steppersMainLoop s) Boundary b := by
  have hafter : ∃ c, After c s.pending b := by
    simp only [Boundary, hs] at h
    exact h
  have hback : ∀ b c, After c s.pending b → Boundary s b := by
    intro b c hc
    simp only [Boundary, hs]
    exact ⟨c, hc⟩
  obtain ⟨c, hc⟩ := hafter
  simp only [steppersMainLoop, hs]
  apply wp_cmd hc
  · intro w b hw hq _
    rw [if_pos hw]
    split
    · rename_i hlen
      apply (wp_unqueue_move s hlen hq).mono
      rintro t b ⟨rfl, hafter⟩
      simp only [Boundary, Steppers.setPosition, Steppers.unqueued, hs]
      exact ⟨_, hafter⟩
    · apply wp_status (Quiet s.pending) quiet_stable (fun _ => Quiet.safe) hq
      · intro w b hw hq
        rw [if_neg hw]
        exact wp_skip (hback b (.move s.currentPosition s.currentPosition) (.inr ⟨hq, by simp⟩))
      · intro w b hw hq hstop
        rw [if_pos hw]
        have hend : Ended s.pending (b.clock none) := ended_stable b ⟨hq, hstop⟩
        apply wp_mark ended_stable (fun _ => Ended.safe) hend
        · exact fun b hend _ => hend.1.finished hend.2
        intro b hend
        refine (wp_unqueue_stop s hend.1).seq ?_
        rintro t b ⟨rfl, hafter⟩
        exact wp_skip ⟨hafter, rfl⟩
  · intro w b hw hc
    rw [if_neg hw]
    exact wp_skip (hback b c hc)

theorem wp_stopping (hs : s.state = .stopping) (h : Boundary s b) :
    Wp Board.device Safe Due (steppersMainLoop s) Boundary b := by
  obtain ⟨hafter, hv⟩ : After .stop s.pending b ∧ s.currentPosition.v = ((0 : ℕ) : α) := by
    simp only [Boundary, hs] at h
    exact h
  have hback : ∀ b, After .stop s.pending b → Boundary s b := by
    intro b hc
    simp only [Boundary, hs]
    exact ⟨hc, hv⟩
  simp only [steppersMainLoop, hs]
  apply wp_cmd hafter
  · intro w b hw hq hrest
    rw [if_pos hw]
    have hstable : Stable Board.device (fun b : Board α => Quiet s.pending b ∧ AtRest b.core) :=
      fun b h => ⟨h.1.idle, h.2.clock h.1.no_load none⟩
    apply wp_status _ hstable (fun _ h => h.1.safe) ⟨hq, hrest rfl⟩
    · intro w b hw h
      rw [if_neg hw]
      exact wp_skip (hback b (.inr ⟨h.1, fun _ => h.2⟩))
    · intro w b hw h hstop
      rw [if_pos hw]
      have hend : Resting s.pending (b.clock none) := resting_stable b ⟨⟨h.1, hstop⟩, h.2⟩
      apply wp_mark resting_stable (fun _ => Resting.safe) hend
      · exact fun b hend _ => hend.1.1.finished hend.1.2
      intro b hend
      exact wp_skip ⟨hend, hv⟩
  · intro w b hw hafter
    rw [if_neg hw]
    exact wp_skip (hback b hafter)

/-- One call of the main loop, from any boundary to a boundary. -/
theorem wp_main_loop (h : Boundary s b) :
    Wp Board.device Safe Due (steppersMainLoop s) Boundary b := by
  cases hs : s.state with
  | off =>
    have hrest : Resting s.pending b := by
      simp only [Boundary, hs] at h
      exact h.1
    simp only [steppersMainLoop, hs]
    split
    · exact wp_init_core hrest
    · exact wp_skip h
  | idle => exact wp_idle hs h
  | active => exact wp_active hs h
  | delay => simp [Boundary, hs] at h
  | stopping => exact wp_stopping hs h

end Vp2Motion.Proofs.MainLoop
