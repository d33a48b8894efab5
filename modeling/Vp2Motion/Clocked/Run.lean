import Mathlib.Tactic.Common
import Mathlib.Data.Nat.Init

namespace Vp2Motion.Clocked

/-- A run of a synchronous machine. `state n` holds the registers before the
`n`-th rising edge and `input n` is what the machine samples at that edge. -/
structure Run {ι σ : Type} (step : ι → σ → σ) where
  state : ℕ → σ
  input : ℕ → ι
  next : ∀ n, state (n + 1) = step (input n) (state n)

def trace {ι σ : Type} (step : ι → σ → σ) (s : σ) (inputs : ℕ → ι) : ℕ → σ
  | 0 => s
  | n + 1 => step (inputs n) (trace step s inputs n)

/-- The last clock before `t` on which `P` holds, if it holds on some clock `s`. -/
theorem last_before {P : ℕ → Prop} {s t : ℕ} (hst : s < t) (hs : P s) :
    ∃ l, s ≤ l ∧ l < t ∧ P l ∧ ∀ k, l < k → k < t → ¬P k := by
  induction t, hst using Nat.le_induction with
  | base => exact ⟨s, Nat.le_refl s, s.lt_succ_self, hs, fun k hk hkt => by omega⟩
  | succ t hst ih =>
    by_cases ht : P t
    · exact ⟨t, Nat.le_of_succ_le hst, t.lt_succ_self, ht, fun k hk hkt => by omega⟩
    · obtain ⟨l, hsl, hlt, hl, hno⟩ := ih
      refine ⟨l, hsl, Nat.lt_succ_of_lt hlt, hl, ?_⟩
      intro k hk hkt
      by_cases hkt' : k = t
      · rwa [hkt']
      · exact hno k hk (by omega)

namespace Run
variable {ι σ : Type} {step : ι → σ → σ}

/-- The machine is deterministic: a start state and an input stream fix a run. -/
def ofInputs (step : ι → σ → σ) (s : σ) (inputs : ℕ → ι) : Run step where
  state := trace step s inputs
  input := inputs
  next _ := rfl

theorem ext_of_eq {r r' : Run step} (hstate : r.state = r'.state) (hinput : r.input = r'.input) :
    r = r' := by
  obtain ⟨state, input, next⟩ := r
  cases hstate
  cases hinput
  rfl

theorem eq_of_inputs (r : Run step) : r = ofInputs step (r.state 0) r.input := by
  refine ext_of_eq ?_ rfl
  funext n
  induction n with
  | zero => rfl
  | succ n ih =>
    rw [r.next, ih]
    rfl

/-- The run from clock `t` on. -/
def drop (r : Run step) (t : ℕ) : Run step where
  state n := r.state (t + n)
  input n := r.input (t + n)
  next n := r.next (t + n)

/-- A property of the clock and the state that every edge of an interval
carries forward holds at the end of the interval. -/
theorem indexed (r : Run step) {P : ℕ → σ → Prop} {m n : ℕ} (hmn : m ≤ n) (h : P m (r.state m))
    (hstep : ∀ k, m ≤ k → k < n → P k (r.state k) → P (k + 1) (step (r.input k) (r.state k))) :
    P n (r.state n) := by
  induction n, hmn using Nat.le_induction with
  | base => exact h
  | succ n hmn ih =>
    rw [r.next]
    exact hstep n hmn (Nat.lt_succ_self n)
      (ih (fun k hk hn => hstep k hk (Nat.lt_succ_of_lt hn)))

theorem kept (r : Run step) {P : σ → Prop} {m n : ℕ} (hmn : m ≤ n) (h : P (r.state m))
    (hstep : ∀ k, m ≤ k → k < n → P (r.state k) → P (step (r.input k) (r.state k))) :
    P (r.state n) :=
  r.indexed (P := fun _ => P) hmn h hstep

end Run

end Vp2Motion.Clocked
