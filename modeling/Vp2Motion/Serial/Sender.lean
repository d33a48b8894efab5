import Mathlib.Tactic.Ring
import Vp2Motion.Serial.Decoder

namespace Vp2Motion.Serial

structure Sent where
  start : ℕ
  data : List Bool

/-- The level of the line at time `t`. The start bit, the data bits and the stop bit take
`len` each, but the start bit comes early by `lead`. -/
def lineAt (len lead : ℕ) : List Sent → ℕ → Bool
  | [], _ => true
  | f :: rest, t =>
    if t < f.start then true
    else if t < f.start + (f.data.length + 2) * len then
      (false :: f.data).getD ((t - f.start - lead) / len) true
    else lineAt len lead rest t

/-- Frames of `bits` data bits one after another from time `t` on. -/
def Spaced (bits len : ℕ) : ℕ → List Sent → Prop
  | _, [] => True
  | t, f :: rest =>
    t ≤ f.start ∧ f.data.length = bits ∧ Spaced bits len (f.start + (bits + 2) * len) rest

/-- When the last of them is over. -/
def endTime (bits len : ℕ) : ℕ → List Sent → ℕ
  | t, [] => t
  | _, f :: rest => endTime bits len (f.start + (bits + 2) * len) rest

/-- A decoder with a tick every `step` samples each bit of a sender within its time. -/
structure Tolerates (p : Sampling) (len lead step : ℕ) : Prop where
  stepPos : 0 < step
  late : ∀ j ≤ p.bits, lead + (j + 1) * len ≤ p.point j * step
  soon : ∀ j ≤ p.bits, (p.point j + 1) * step ≤ (j + 2) * len

section Line
variable {bits len lead t : ℕ} {frames : List Sent} {f : Sent}

theorem line_before (h : Spaced bits len t frames) (ht : τ < t) :
    lineAt len lead frames τ = true := by
  cases frames with
  | nil => rfl
  | cons f rest => exact if_pos (Nat.lt_of_lt_of_le ht h.1)

theorem spaced_earlier (h : Spaced bits len t frames) (ht : t' ≤ t) :
    Spaced bits len t' frames := by
  cases frames with
  | nil => trivial
  | cons f rest => exact ⟨Nat.le_trans ht h.1, h.2⟩

theorem end_time_le (h : Spaced bits len t frames) : t ≤ endTime bits len t frames := by
  induction frames generalizing t with
  | nil => exact Nat.le_refl t
  | cons f rest ih =>
    have hrest := ih h.2.2
    have hstart := h.1
    rw [endTime]
    omega

theorem end_time_ne_nil (h : frames ≠ []) (t t' : ℕ) :
    endTime bits len t frames = endTime bits len t' frames := by
  cases frames with
  | nil => exact absurd rfl h
  | cons f rest => rfl

/-- The level within a frame. -/
theorem line_within (hlen : f.data.length = bits) (hstart : f.start ≤ τ)
    (hend : τ < f.start + (bits + 2) * len) (hlow : j * len ≤ τ - f.start - lead)
    (hhigh : τ - f.start - lead < (j + 1) * len) :
    lineAt len lead (f :: frames) τ = (false :: f.data).getD j true := by
  have hindex : (τ - f.start - lead) / len = j := Nat.div_eq_of_lt_le hlow hhigh
  rw [lineAt, if_neg (by omega), if_pos (by rw [hlen]; omega), hindex]

/-- From the stop bit on the line is that of the next frames. -/
theorem line_behind (h : Spaced bits len t (f :: frames))
    (hlow : f.start + lead + (bits + 1) * len ≤ τ) :
    lineAt len lead (f :: frames) τ = lineAt len lead frames τ := by
  have hmul : (bits + 1 + 1) * len = (bits + 1) * len + len := by ring
  by_cases hhigh : τ < f.start + (bits + 1 + 1) * len
  · rw [line_within h.2.1 (by omega) hhigh (show (bits + 1) * len ≤ _ by omega) (by omega),
      line_before h.2.2 hhigh]
    exact List.getD_eq_default _ _ (by rw [List.length_cons, h.2.1])
  · rw [lineAt, if_neg (by omega), if_neg (by rw [h.2.1]; exact hhigh)]

theorem end_time_append (t : ℕ) (frames : List Sent) (f : Sent) :
    endTime bits len t (frames ++ [f]) = f.start + (bits + 2) * len := by
  induction frames generalizing t with
  | nil => rfl
  | cons g rest ih => exact ih _

theorem spaced_append (h : Spaced bits len t frames) (hover : endTime bits len t frames ≤ f.start)
    (hlen : f.data.length = bits) : Spaced bits len t (frames ++ [f]) := by
  induction frames generalizing t with
  | nil => exact ⟨hover, hlen, trivial⟩
  | cons g rest ih => exact ⟨h.1, h.2.1, ih h.2.2 hover⟩

/-- Before it starts it makes no difference. -/
theorem line_append_before (hτ : τ < f.start) :
    lineAt len lead (frames ++ [f]) τ = lineAt len lead frames τ := by
  induction frames with
  | nil => exact if_pos hτ
  | cons g rest ih => rw [List.cons_append, lineAt, lineAt, ih]

/-- From its start on it is alone. -/
theorem line_append_from (h : Spaced bits len t frames) (hover : endTime bits len t frames ≤ τ) :
    lineAt len lead (frames ++ [f]) τ = lineAt len lead [f] τ := by
  induction frames generalizing t with
  | nil => rfl
  | cons g rest ih =>
    have hend := end_time_le h.2.2
    rw [endTime] at hover
    rw [List.cons_append, lineAt, if_neg (by omega), if_neg (by rw [h.2.1]; omega)]
    exact ih h.2.2 hover

/-- The same frames on a clock that is `a` later. -/
def delayed (a : ℕ) (frames : List Sent) : List Sent := frames.map fun f => ⟨f.start + a, f.data⟩

theorem line_delayed (a : ℕ) (frames : List Sent) (t : ℕ) :
    lineAt len lead (delayed a frames) (t + a) = lineAt len lead frames t := by
  induction frames with
  | nil => rfl
  | cons f rest ih =>
    have hsub : t + a - (f.start + a) = t - f.start := by omega
    change (if t + a < f.start + a then _ else if t + a < f.start + a + _ then _ else
      lineAt len lead (delayed a rest) (t + a)) = _
    rw [ih, hsub, lineAt, Nat.add_right_comm]
    simp only [Nat.add_lt_add_iff_right]

theorem delayed_spaced (a : ℕ) (h : Spaced bits len t frames) :
    Spaced bits len (t + a) (delayed a frames) := by
  induction frames generalizing t with
  | nil => trivial
  | cons f rest ih =>
    refine ⟨Nat.add_le_add_right h.1 a, h.2.1, ?_⟩
    have hrest := ih h.2.2
    rw [Nat.add_right_comm] at hrest
    exact hrest

theorem delayed_end_time (a : ℕ) (frames : List Sent) :
    endTime bits len (t + a) (delayed a frames) = endTime bits len t frames + a := by
  induction frames generalizing t with
  | nil => rfl
  | cons f rest ih =>
    have hrest := ih (t := f.start + (bits + 2) * len)
    rw [Nat.add_right_comm] at hrest
    exact hrest

/-- The same frames in a unit of which there are `q` to one. -/
def scaled (q : ℕ) (frames : List Sent) : List Sent := frames.map fun f => ⟨f.start * q, f.data⟩

theorem line_scaled (hq : 0 < q) (frames : List Sent) (t : ℕ) :
    lineAt (len * q) (lead * q) (scaled q frames) t = lineAt len lead frames (t / q) := by
  induction frames with
  | nil => rfl
  | cons f rest ih =>
    have hindex : (t - f.start * q - lead * q) / (len * q) = (t / q - f.start - lead) / len := by
      rw [Nat.mul_comm len, ← Nat.div_div_eq_div_mul, Nat.sub_sub, ← Nat.add_mul,
        Nat.mul_comm _ q, Nat.sub_mul_div, Nat.sub_sub]
    have hend : f.start * q + (f.data.length + 2) * (len * q) =
        (f.start + (f.data.length + 2) * len) * q := by ring
    change (if t < f.start * q then _ else if t < f.start * q + _ then
      (false :: f.data).getD ((t - f.start * q - lead * q) / (len * q)) true else
      lineAt (len * q) (lead * q) (scaled q rest) t) = _
    rw [ih, hindex, hend, lineAt]
    simp only [Nat.div_lt_iff_lt_mul hq]

theorem scaled_spaced (q : ℕ) (h : Spaced bits len t frames) :
    Spaced bits (len * q) (t * q) (scaled q frames) := by
  induction frames generalizing t with
  | nil => trivial
  | cons f rest ih =>
    refine ⟨Nat.mul_le_mul_right q h.1, h.2.1, ?_⟩
    have hrest := ih h.2.2
    rw [Nat.add_mul, Nat.mul_assoc] at hrest
    exact hrest

theorem scaled_end_time (q : ℕ) (frames : List Sent) :
    endTime bits (len * q) (t * q) (scaled q frames) = endTime bits len t frames * q := by
  induction frames generalizing t with
  | nil => rfl
  | cons f rest ih =>
    have hrest := ih (t := f.start + (bits + 2) * len)
    rw [Nat.add_mul, Nat.mul_assoc] at hrest
    exact hrest

end Line

/-- The first tick that is not before `a`. -/
theorem exists_first_tick (hstep : 0 < step) (ho : o < a + step) :
    ∃ m, a ≤ o + m * step ∧ o + m * step < a + step ∧ ∀ i < m, o + i * step < a := by
  have hex : ∃ m, a ≤ o + m * step :=
    ⟨a, Nat.le_add_left_of_le (Nat.le_mul_of_pos_right a hstep)⟩
  refine ⟨Nat.find hex, Nat.find_spec hex, ?_, fun i hi => Nat.lt_of_not_le (Nat.find_min hex hi)⟩
  cases hm : Nat.find hex with
  | zero => rwa [Nat.zero_mul, Nat.add_zero]
  | succ m =>
    have hbefore := Nat.find_min hex (show m < Nat.find hex by omega)
    rw [Nat.succ_mul]
    omega

section Heard
variable {p : Sampling} {frames : List Sent} {f : Sent}

/-- The first tick in a frame sees its start bit. -/
theorem edge_level (ht : Tolerates p len lead step) (hlen : f.data.length = p.bits)
    (hedge : f.start ≤ o) (hsoon : o < f.start + step) :
    lineAt len lead (f :: frames) o = false := by
  have hfirst : 1 ≤ p.point 0 := Nat.lt_of_lt_of_le p.firstPos (Nat.le_add_right ..)
  have hstep : step ≤ len := by
    have hpoint := ht.soon 0 (Nat.zero_le _)
    have hmul := Nat.mul_le_mul_right step (show 2 ≤ p.point 0 + 1 by omega)
    omega
  have hmul : (p.bits + 2) * len = (p.bits + 1) * len + len := by ring
  rw [line_within hlen hedge (by omega) (show 0 * len ≤ _ by omega) (by omega)]
  rfl

/-- Each sample sees its bit. -/
theorem sample_level (ht : Tolerates p len lead step) (hlen : f.data.length = p.bits)
    (hedge : f.start ≤ o) (hsoon : o < f.start + step) (hj : j ≤ p.bits) :
    lineAt len lead (f :: frames) (o + p.point j * step) = f.data.getD j true := by
  have hlate := ht.late j hj
  have hpoint := ht.soon j hj
  rw [Nat.succ_mul] at hpoint
  have hmul : (j + 1 + 1) * len ≤ (p.bits + 2) * len := Nat.mul_le_mul_right len (by omega)
  have hhigh : o + p.point j * step < f.start + (j + 1 + 1) * len := by
    change _ < f.start + (j + 2) * len
    omega
  rw [line_within hlen (by omega) (by omega) (show (j + 1) * len ≤ _ by omega) (by omega),
    List.getD_cons_succ]

/-- The decoder takes the words of a sender it tolerates, and nothing else. -/
theorem decodes_sent (ht : Tolerates p len lead step) (hspaced : Spaced p.bits len t frames)
    (ho : o < t + step) (hover : endTime p.bits len t frames ≤ o + n * step) :
    Decoder.events p (fun i => lineAt len lead frames (o + i * step)) (.idle true) n =
      frames.map fun f => .word f.data := by
  induction frames generalizing t o n with
  | nil => exact (Decoder.idle_high fun _ _ => rfl).2
  | cons f rest ih =>
    obtain ⟨hstart, hlen, hrest⟩ := hspaced
    obtain ⟨m, hedge, hsoon, hbefore⟩ :=
      exists_first_tick ht.stepPos (show o < f.start + step by omega)
    have hend := end_time_le hrest
    have hpoint := ht.soon p.bits (Nat.le_refl _)
    have hstop := ht.late p.bits (Nat.le_refl _)
    rw [Nat.succ_mul] at hpoint
    have hcount : m + p.point p.bits < n := by
      by_contra hle
      have hmul := Nat.mul_le_mul_right step (Nat.le_of_not_lt hle)
      rw [Nat.add_mul] at hmul
      rw [endTime] at hover
      omega
    obtain ⟨n', rfl⟩ : ∃ n', n = m + (p.point p.bits + 1 + n') :=
      ⟨n - m - (p.point p.bits + 1), by omega⟩
    have hquiet : Decoder.after p (fun i => lineAt len lead (f :: rest) (o + i * step))
        (.idle true) m = .idle true ∧
      Decoder.events p (fun i => lineAt len lead (f :: rest) (o + i * step)) (.idle true) m = [] :=
      Decoder.idle_high fun i hi => if_pos (hbefore i hi)
    have hshift : (fun i => lineAt len lead (f :: rest) (o + (m + i) * step)) =
        fun i => lineAt len lead (f :: rest) (o + m * step + i * step) := by
      funext i
      rw [Nat.add_mul, Nat.add_assoc]
    have hbehind : (fun i => lineAt len lead (f :: rest)
        (o + m * step + (p.point p.bits + 1 + i) * step)) =
        fun i => lineAt len lead rest (o + m * step + (p.point p.bits + 1) * step + i * step) := by
      funext i
      rw [Nat.add_mul, ← Nat.add_assoc]
      refine line_behind (t := f.start) ⟨Nat.le_refl _, hlen, hrest⟩ ?_
      have hpart : p.point p.bits * step ≤ (p.point p.bits + 1) * step :=
        Nat.mul_le_mul_right step (Nat.le_succ _)
      omega
    have hframe : Decoder.after p (fun i => lineAt len lead (f :: rest) (o + m * step + i * step))
          (.idle true) (p.point p.bits + 1) = .idle true ∧
        Decoder.events p (fun i => lineAt len lead (f :: rest) (o + m * step + i * step))
          (.idle true) (p.point p.bits + 1) = [.word f.data] := by
      refine Decoder.frame_decoded hlen ?_ ?_ ?_
      · rw [Nat.zero_mul, Nat.add_zero]
        exact edge_level ht hlen hedge hsoon
      · intro i hi
        rw [sample_level ht hlen hedge hsoon (Nat.le_of_lt hi), List.getD_eq_getElem _ _ (by omega),
          List.getD_eq_getElem _ _ (by omega)]
      · rw [sample_level ht hlen hedge hsoon (Nat.le_refl _),
          List.getD_eq_default _ _ (Nat.le_of_eq hlen)]
    have htail := ih (o := o + m * step + (p.point p.bits + 1) * step) (n := n') hrest
      (by rw [Nat.succ_mul]; omega)
      (by
        rw [endTime] at hover
        exact hover.trans (Nat.le_of_eq (by ring)))
    rw [Decoder.events_add, hquiet.1, hquiet.2, List.nil_append, hshift, Decoder.events_add,
      hframe.1, hframe.2, hbehind, htail]
    rfl

/-- Before the last frame is over the decoder has taken the first of the words. -/
theorem decodes_first (ht : Tolerates p len lead step) (hspaced : Spaced p.bits len t frames)
    (ho : o < t + step) (n : ℕ) :
    Decoder.events p (fun i => lineAt len lead frames (o + i * step)) (.idle true) n <+:
      frames.map fun f => .word f.data := by
  have hlate : endTime p.bits len t frames ≤ o + (n + endTime p.bits len t frames) * step := by
    have hmul := Nat.le_mul_of_pos_right (n + endTime p.bits len t frames) ht.stepPos
    omega
  rw [← decodes_sent ht hspaced ho hlate]
  exact Decoder.events_mono (Nat.le_add_right ..)

end Heard

end Vp2Motion.Serial
