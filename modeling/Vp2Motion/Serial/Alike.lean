import Vp2Motion.Serial.Link

namespace Vp2Motion.Serial

variable {L W σ τ α β : Type} {card : Slave L W σ} {card' : Slave L W τ} {R : σ → τ → Prop}

/-- On the word `w` related slaves answer alike and stay related. -/
def Matches (card : Slave L W σ) (card' : Slave L W τ) (R : σ → τ → Prop) (w : W) : Prop :=
  ∀ level s t, R s t → (card.exchange level w s).1 = (card'.exchange level w t).1 ∧
    R (card.exchange level w s).2 (card'.exchange level w t).2

/-- Both programs give the same, with the links alike before and after. -/
def Alike (R : σ → τ → Prop) (p : StateM (Link L σ) α) (q : StateM (Link L τ) α) : Prop :=
  ∀ level s t, R s t → ∃ a level' s' t', p ⟨level, s⟩ = (a, ⟨level', s'⟩) ∧
    q ⟨level, t⟩ = (a, ⟨level', t'⟩) ∧ R s' t'

theorem Alike.pure (a : α) : Alike R (pure a : StateM (Link L σ) α) (pure a) :=
  fun level s t h => ⟨a, level, s, t, rfl, rfl, h⟩

theorem Alike.bind {p : StateM (Link L σ) α} {q : StateM (Link L τ) α}
    {f : α → StateM (Link L σ) β} {g : α → StateM (Link L τ) β} (h : Alike R p q)
    (hf : ∀ a, Alike R (f a) (g a)) : Alike R (p >>= f) (q >>= g) := by
  intro level s t hst
  obtain ⟨a, level', s', t', hp, hq, hst'⟩ := h level s t hst
  obtain ⟨b, level'', s'', t'', hfa, hga, hst''⟩ := hf a level' s' t' hst'
  exact ⟨b, level'', s'', t'', (run_bind hp).trans hfa, (run_bind hq).trans hga, hst''⟩

theorem alike_select (level : L) : Alike R (setSelect level) (setSelect level) :=
  fun _ s t h => ⟨(), level, s, t, rfl, rfl, h⟩

theorem alike_transfer (h : Matches card card' R w) :
    Alike R (transfer card w) (transfer card' w) := by
  intro level s t hst
  obtain ⟨hanswer, hrel⟩ := h level s t hst
  refine ⟨_, level, _, _, rfl, ?_, hrel⟩
  rw [transfer_eq, hanswer]

theorem alike_fill (h : Matches card card' R w) (n : ℕ) :
    Alike R (transferAll card (List.replicate n w)) (transferAll card' (List.replicate n w)) := by
  induction n with
  | zero => exact .pure []
  | succ n ih =>
    rw [List.replicate_succ, transferAll, transferAll]
    exact (alike_transfer h).bind fun r => ih.bind fun rs => .pure (r :: rs)

theorem alike_poll (h : Matches card card' R w) (hit : W → Bool) (count : ℕ) :
    Alike R (poll card w hit count) (poll card' w hit count) := by
  induction count with
  | zero => exact .pure 0
  | succ count ih =>
    rw [poll, poll]
    refine (alike_transfer h).bind fun r => ?_
    cases hit r with
    | true => exact .pure (count + 1)
    | false => exact ih

end Vp2Motion.Serial
