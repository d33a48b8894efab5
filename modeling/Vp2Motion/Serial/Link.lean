import Mathlib.Tactic.Common
import Mathlib.Data.Nat.Init

namespace Vp2Motion.Serial

variable {L W σ α β : Type}

/-- Every word sent shifts a word back. The select line is at level `L` while it does. -/
structure Slave (L W σ : Type) where
  exchange : L → W → σ → W × σ

structure Link (L σ : Type) where
  select : L
  slave : σ

theorem run_bind_eq (x : StateM σ α) (f : α → StateM σ β) (s : σ) :
    (x >>= f) s = f (x s).1 (x s).2 := rfl

/-- Sequencing, once the first part has been run. -/
theorem run_bind {x : StateM σ α} {f : α → StateM σ β} {s t : σ} {a : α} (h : x s = (a, t)) :
    (x >>= f) s = f a t := by
  rw [run_bind_eq, h]

def setSelect (level : L) : StateM (Link L σ) Unit := fun s => ((), { s with select := level })

def transfer (card : Slave L W σ) (w : W) : StateM (Link L σ) W := fun s =>
  let r := card.exchange s.select w s.slave
  (r.1, { s with slave := r.2 })

theorem transfer_eq (card : Slave L W σ) (w : W) (s : Link L σ) :
    transfer card w s = ((card.exchange s.select w s.slave).1,
      { s with slave := (card.exchange s.select w s.slave).2 }) := rfl

def transferAll (card : Slave L W σ) : List W → StateM (Link L σ) (List W)
  | [] => return []
  | w :: ws => do
    let r ← transfer card w
    let rs ← transferAll card ws
    return r :: rs

/-- Sends `fill` until the word that comes back is a hit, at most `count` times.
The result is what is left of `count`. -/
def poll (card : Slave L W σ) (fill : W) (hit : W → Bool) : ℕ → StateM (Link L σ) ℕ
  | 0 => return 0
  | count + 1 => do
    let r ← transfer card fill
    if hit r then return count + 1 else poll card fill hit count

namespace Slave
variable (card : Slave L W σ) (level : L) (fill : W)

/-- The state after `n` words of `fill`. -/
def after (s : σ) : ℕ → σ
  | 0 => s
  | n + 1 => after (card.exchange level fill s).2 n

/-- The word that comes back for the `n`-th word of `fill`. -/
def answer (s : σ) (n : ℕ) : W := (card.exchange level fill (card.after level fill s n)).1

end Slave

/-- How many words of `out` pass before the first hit, at most `count`. -/
def wait (hit : W → Bool) (out : ℕ → W) : ℕ → ℕ
  | 0 => 0
  | count + 1 => if hit (out 0) then 0 else wait hit (fun n => out (n + 1)) count + 1

section Wait
variable {hit : W → Bool} {out : ℕ → W} {count : ℕ}

theorem wait_lt_iff : wait hit out count < count ↔ ∃ k, k < count ∧ hit (out k) = true := by
  induction count generalizing out with
  | zero => simp
  | succ count ih =>
    unfold wait
    split
    · rename_i h
      exact ⟨fun _ => ⟨0, Nat.succ_pos _, h⟩, fun _ => Nat.succ_pos _⟩
    · rename_i h
      rw [Nat.succ_lt_succ_iff, ih]
      constructor
      · rintro ⟨k, hk, hit⟩
        exact ⟨k + 1, Nat.succ_lt_succ hk, hit⟩
      · rintro ⟨k, hk, hhit⟩
        cases k with
        | zero => exact absurd hhit h
        | succ k => exact ⟨k, Nat.lt_of_succ_lt_succ hk, hhit⟩

/-- The first hit, told by the words before it. -/
theorem wait_eq (hk : k < count) (hhit : hit (out k) = true)
    (hmiss : ∀ i, i < k → hit (out i) = false) : wait hit out count = k := by
  induction count generalizing out k with
  | zero => exact absurd hk (Nat.not_lt_zero k)
  | succ count ih =>
    cases k with
    | zero => simp [wait, hhit]
    | succ k =>
      have h0 := hmiss 0 (Nat.succ_pos k)
      have hrest : wait hit (fun n => out (n + 1)) count = k :=
        ih (Nat.lt_of_succ_lt_succ hk) hhit (fun i hi => hmiss (i + 1) (Nat.succ_lt_succ hi))
      simp [wait, h0, hrest]

end Wait

/-- The words that a poll takes: up to the first hit and including it. -/
def polled (hit : W → Bool) (out : ℕ → W) (count : ℕ) : ℕ := min (wait hit out count + 1) count

variable {card : Slave L W σ} {fill : W} {hit : W → Bool} {s : Link L σ}

theorem poll_eq (count : ℕ) :
    poll card fill hit count s =
      (count - wait hit (card.answer s.select fill s.slave) count,
        { s with
          slave := card.after s.select fill s.slave
            (polled hit (card.answer s.select fill s.slave) count) }) := by
  induction count generalizing s with
  | zero => rfl
  | succ count ih =>
    rw [poll, run_bind (transfer_eq card fill s)]
    by_cases h : hit (card.exchange s.select fill s.slave).1 = true
    · have hwait : wait hit (card.answer s.select fill s.slave) (count + 1) = 0 := if_pos h
      have hpolled : polled hit (card.answer s.select fill s.slave) (count + 1) = 1 := by
        rw [polled, hwait]
        omega
      rw [if_pos h, hwait, hpolled]
      rfl
    · have hwait : wait hit (card.answer s.select fill s.slave) (count + 1) =
          wait hit (card.answer s.select fill (card.exchange s.select fill s.slave).2) count + 1 :=
        if_neg h
      have hpolled : polled hit (card.answer s.select fill s.slave) (count + 1) =
          polled hit (card.answer s.select fill (card.exchange s.select fill s.slave).2) count +
            1 := by
        rw [polled, hwait, polled]
        omega
      rw [if_neg h, ih, hwait, hpolled, Nat.add_sub_add_right]
      rfl

/-- Whether a poll ends before its count does. -/
theorem poll_ne_zero_iff (out : ℕ → W) (count : ℕ) :
    count - wait hit out count ≠ 0 ↔ ∃ k, k < count ∧ hit (out k) = true := by
  rw [← wait_lt_iff]
  omega

/-- A transfer leaves the slave where the words sent take it. -/
theorem transfer_all_slave (ws : List W) (s : Link L σ) :
    (transferAll card ws s).2 =
      { s with slave := ws.foldl (fun t w => (card.exchange s.select w t).2) s.slave } := by
  induction ws generalizing s with
  | nil => rfl
  | cons w ws ih => exact ih _

/-- Words of `fill` read what the slave answers to them. -/
theorem transfer_all_fill (n : ℕ) (s : Link L σ) :
    transferAll card (List.replicate n fill) s =
      ((List.range n).map (card.answer s.select fill s.slave),
        { s with slave := card.after s.select fill s.slave n }) := by
  induction n generalizing s with
  | zero => rfl
  | succ n ih =>
    rw [List.replicate_succ, transferAll, run_bind (transfer_eq card fill s), run_bind (ih _),
      List.range_succ_eq_map]
    simp only [List.map_cons, List.map_map]
    rfl

/-- The state counts the words so far. What is sent makes no difference. -/
def streamSlave (out : ℕ → W) : Slave L W ℕ := ⟨fun _ _ n => (out n, n + 1)⟩

@[simp]
theorem stream_after (out : ℕ → W) (level : L) (n k : ℕ) :
    (streamSlave out).after level fill n k = n + k := by
  induction k generalizing n with
  | zero => rfl
  | succ k ih =>
    change (streamSlave out).after level fill (n + 1) k = n + (k + 1)
    rw [ih]
    omega

@[simp]
theorem stream_answer (out : ℕ → W) (level : L) (n : ℕ) :
    (streamSlave out).answer level fill n = fun k => out (n + k) := by
  funext k
  rw [Slave.answer, stream_after]
  rfl

theorem stream_transfer_all (out : ℕ → W) (ws : List W) (level : L) (n : ℕ) :
    (transferAll (streamSlave out) ws ⟨level, n⟩).2 = ⟨level, n + ws.length⟩ := by
  rw [transfer_all_slave]
  induction ws generalizing n with
  | nil => rfl
  | cons w ws ih =>
    rw [List.length_cons, ← Nat.add_assoc, Nat.add_right_comm]
    exact ih (n + 1)

end Vp2Motion.Serial
