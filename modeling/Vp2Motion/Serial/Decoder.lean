import Mathlib.Data.List.GetD
import Mathlib.Data.Nat.Notation
import Mathlib.Tactic.Common

namespace Vp2Motion.Serial

/-- How many ticks after the falling edge a frame is sampled: the first of `bits` data bits
after `first`, the others and the stop bit every `period`. -/
structure Sampling where
  bits : ℕ
  first : ℕ
  period : ℕ
  firstPos : 0 < first
  periodPos : 0 < period

namespace Sampling

/-- The sample number `j`. -/
def point (p : Sampling) (j : ℕ) : ℕ := p.first + p.period * j

theorem point_lt (p : Sampling) (h : i < j) : p.point i < p.point j :=
  Nat.add_lt_add_left (Nat.mul_lt_mul_of_pos_left h p.periodPos) _

end Sampling

/-- What a frame comes to: its data bits, or no stop bit. -/
inductive Event where
  | word (data : List Bool)
  | broken
deriving DecidableEq

/-- Between two frames, with the level of the last tick, or so many ticks after the edge. -/
inductive Decoder where
  | idle (before : Bool)
  | frame (age : ℕ) (taken : List Bool)

namespace Decoder
variable (p : Sampling)

def tick (level : Bool) : Decoder → Decoder × Option Event
  | idle before => (if before && !level then frame 0 [] else idle level, none)
  | frame age taken =>
    if age + 1 = p.point taken.length then
      if taken.length = p.bits then
        (idle level, some (if level then .word taken else .broken))
      else (frame (age + 1) (taken ++ [level]), none)
    else (frame (age + 1) taken, none)

/-- The decoder after `n` ticks with the levels `line 0`, `line 1`, ... -/
def after (line : ℕ → Bool) (d : Decoder) : ℕ → Decoder
  | 0 => d
  | n + 1 => (tick p (line n) (after line d n)).1

/-- What the tick number `n` brings. -/
def event (line : ℕ → Bool) (d : Decoder) (n : ℕ) : Option Event :=
  (tick p (line n) (after p line d n)).2

/-- All that `n` ticks bring. -/
def events (line : ℕ → Bool) (d : Decoder) : ℕ → List Event
  | 0 => []
  | n + 1 => events line d n ++ (event p line d n).toList

variable {p} {line : ℕ → Bool} {d : Decoder}

theorem after_add (m n : ℕ) :
    after p line d (m + n) = after p (fun k => line (m + k)) (after p line d m) n := by
  induction n with
  | zero => rfl
  | succ n ih => rw [← Nat.add_assoc, after, ih, after]

theorem events_add (m n : ℕ) :
    events p line d (m + n) =
      events p line d m ++ events p (fun k => line (m + k)) (after p line d m) n := by
  induction n with
  | zero => rw [Nat.add_zero, events, List.append_nil]
  | succ n ih =>
    rw [← Nat.add_assoc, events, ih, event, after_add, events, event, List.append_assoc]

/-- Later levels make no difference. -/
theorem after_congr {line' : ℕ → Bool} (h : ∀ k < n, line k = line' k) :
    after p line d n = after p line' d n ∧ events p line d n = events p line' d n := by
  induction n with
  | zero => exact ⟨rfl, rfl⟩
  | succ n ih =>
    obtain ⟨hafter, hevents⟩ := ih fun k hk => h k (Nat.lt_succ_of_lt hk)
    rw [after, after, events, events, event, event, hafter, hevents, h n (Nat.lt_succ_self n)]
    exact ⟨rfl, rfl⟩

theorem events_mono (h : m ≤ n) : events p line d m <+: events p line d n := by
  obtain ⟨k, rfl⟩ := Nat.exists_eq_add_of_le h
  rw [events_add]
  exact List.prefix_append ..

/-- A line that stays high brings nothing. -/
theorem idle_high (h : ∀ k < n, line k = true) :
    after p line (idle true) n = idle true ∧ events p line (idle true) n = [] := by
  induction n with
  | zero => exact ⟨rfl, rfl⟩
  | succ n ih =>
    obtain ⟨hafter, hevents⟩ := ih fun k hk => h k (Nat.lt_succ_of_lt hk)
    have hlevel := h n (Nat.lt_succ_self n)
    rw [after, events, event, hafter, hevents, hlevel]
    exact ⟨rfl, rfl⟩

/-- Nothing is sampled before its point. -/
theorem frame_waits (line : ℕ → Bool) (h : age + n < p.point taken.length) :
    after p line (frame age taken) n = frame (age + n) taken ∧
      events p line (frame age taken) n = [] := by
  induction n with
  | zero => exact ⟨rfl, rfl⟩
  | succ n ih =>
    obtain ⟨hafter, hevents⟩ := ih (by omega)
    have hpoint : ¬age + n + 1 = p.point taken.length := by omega
    rw [after, events, event, hafter, hevents, tick, if_neg hpoint]
    exact ⟨rfl, rfl⟩

/-- From one sample to the next. -/
theorem frame_samples (line : ℕ → Bool) (hage : age < p.point taken.length)
    (hmore : taken.length ≠ p.bits) :
    after p line (frame age taken) (p.point taken.length - age) =
        frame (p.point taken.length) (taken ++ [line (p.point taken.length - age - 1)]) ∧
      events p line (frame age taken) (p.point taken.length - age) = [] := by
  obtain ⟨n, hn⟩ : ∃ n, p.point taken.length - age = n + 1 :=
    ⟨p.point taken.length - age - 1, by omega⟩
  obtain ⟨hafter, hevents⟩ := frame_waits line
    (show age + n < p.point taken.length by omega)
  have hpoint : age + n + 1 = p.point taken.length := by omega
  rw [hn, after, events, event, hafter, hevents, tick, if_pos hpoint, if_neg hmore, hpoint,
    Nat.add_sub_cancel]
  exact ⟨rfl, rfl⟩

/-- The stop bit ends the frame. -/
theorem frame_stops (hage : age < p.point taken.length) (hfull : taken.length = p.bits)
    (hlevel : line (p.point taken.length - age - 1) = true) :
    after p line (frame age taken) (p.point taken.length - age) = idle true ∧
      events p line (frame age taken) (p.point taken.length - age) = [.word taken] := by
  obtain ⟨n, hn⟩ : ∃ n, p.point taken.length - age = n + 1 :=
    ⟨p.point taken.length - age - 1, by omega⟩
  obtain ⟨hafter, hevents⟩ := frame_waits line
    (show age + n < p.point taken.length by omega)
  have hpoint : age + n + 1 = p.point taken.length := by omega
  rw [hn, Nat.add_sub_cancel] at hlevel
  rw [hn, after, events, event, hafter, hevents, tick, if_pos hpoint, if_pos hfull, hlevel]
  exact ⟨rfl, rfl⟩

/-- The rest of a frame. -/
theorem frame_rest (line : ℕ → Bool) {data : List Bool} (hlen : data.length = p.bits)
    (hj : j ≤ p.bits) (hage : age < p.point j)
    (hdata : ∀ i, j ≤ i → i < p.bits → line (p.point i - age - 1) = data.getD i false)
    (hstop : line (p.point p.bits - age - 1) = true) :
    after p line (frame age (data.take j)) (p.point p.bits - age) = idle true ∧
      events p line (frame age (data.take j)) (p.point p.bits - age) = [.word data] := by
  induction hm : p.bits - j generalizing j age line with
  | zero =>
    obtain rfl : j = p.bits := by omega
    rw [← hlen] at hage hstop ⊢
    rw [List.take_length]
    exact frame_stops hage hlen hstop
  | succ m ih =>
    have htake : (data.take j).length = j := by
      rw [List.length_take, hlen]
      omega
    have hnext := p.point_lt (show j < j + 1 by omega)
    have hlast : p.point j < p.point p.bits := p.point_lt (by omega)
    have hsampled := frame_samples line (show age < p.point (data.take j).length by rwa [htake])
      (by rw [htake]; omega)
    have hbit : data.take j ++ [data.getD j false] = data.take (j + 1) := by
      rw [List.take_succ_eq_append_getElem (by omega), List.getD_eq_getElem _ _ (by omega)]
    rw [htake, hdata j (Nat.le_refl j) (by omega), hbit] at hsampled
    have hrest := ih (fun k => line (p.point j - age + k)) (show j + 1 ≤ p.bits by omega) hnext
      ?_ ?_ (by omega)
    · rw [show p.point p.bits - age = p.point j - age + (p.point p.bits - p.point j) by omega,
        after_add, events_add, hsampled.1, hsampled.2]
      exact hrest
    · intro i hi hlt
      have hmore := p.point_lt (show j < i by omega)
      rw [← hdata i (by omega) hlt]
      congr 1
      omega
    · rw [← hstop]
      congr 1
      omega

/-- A falling edge and the frame behind it. -/
theorem frame_decoded {data : List Bool} (hlen : data.length = p.bits) (hedge : line 0 = false)
    (hdata : ∀ i < p.bits, line (p.point i) = data.getD i false)
    (hstop : line (p.point p.bits) = true) :
    after p line (idle true) (p.point p.bits + 1) = idle true ∧
      events p line (idle true) (p.point p.bits + 1) = [.word data] := by
  have hpos : ∀ i, 0 < p.point i := fun i => Nat.lt_of_lt_of_le p.firstPos (Nat.le_add_right ..)
  have hrest := frame_rest (fun k => line (1 + k)) hlen (Nat.zero_le _) (hpos 0)
    (fun i _ hi => by
      have hpoint := hpos i
      rw [← hdata i hi]
      congr 1
      omega)
    (by
      have hpoint := hpos p.bits
      rw [← hstop]
      congr 1
      omega)
  have hfirst : after p line (idle true) 1 = frame 0 [] ∧ events p line (idle true) 1 = [] := by
    rw [after, events, event, hedge]
    exact ⟨rfl, rfl⟩
  rw [Nat.sub_zero] at hrest
  rw [Nat.add_comm, after_add, events_add, hfirst.1, hfirst.2]
  exact hrest

end Decoder

end Vp2Motion.Serial
