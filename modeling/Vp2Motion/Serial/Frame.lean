import Mathlib.Data.Nat.Notation

namespace Vp2Motion.Serial

/-- How many bit times are left of a frame of `bits` when the line is at `level`. A
frame begins with a low level outside of any other. -/
def watch (bits : ℕ) (boundary level : Bool) (left : ℕ) : ℕ :=
  let left := if boundary then left - 1 else left
  if left = 0 ∧ level = false then bits else left

/-- The same for each clock of a line that is idle at first. `boundary` tells on which
clocks a bit time begins. -/
def remaining (bits : ℕ) (boundary line : ℕ → Bool) : ℕ → ℕ
  | 0 => watch bits (boundary 0) (line 0) 0
  | c + 1 => watch bits (boundary (c + 1)) (line (c + 1)) (remaining bits boundary line c)

theorem watch_high (bits : ℕ) (boundary : Bool) (left : ℕ) :
    watch bits boundary true left = if boundary then left - 1 else left := by
  simp [watch]

theorem watch_within (h : left ≠ 0) (level : Bool) : watch bits false level left = left :=
  if_neg fun hand => h hand.1

theorem watch_boundary (h : 1 < left) (level : Bool) :
    watch bits true level left = left - 1 :=
  if_neg fun hand => by
    have hzero : left - 1 = 0 := hand.1
    omega

theorem watch_start (h : left ≤ 1) : watch bits true false left = bits :=
  if_pos ⟨Nat.sub_eq_zero_of_le h, rfl⟩

end Vp2Motion.Serial
