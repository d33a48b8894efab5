import Mathlib.Data.Rat.Floor
import Mathlib.Tactic.FieldSimp
import Mathlib.Tactic.Positivity
import Vp2Motion.Firmware.Main
import Vp2Motion.Proofs.Segment

namespace Vp2Motion.Proofs.Start
open Hdl Bus Clocked Firmware Segment

theorem truncate_of_nonneg {q : ℚ} (hq : 0 ≤ q) : truncate q = ⌊q⌋ := by
  rw [truncate, Rat.floor_def', Int.tdiv_eq_ediv_of_nonneg (Rat.num_nonneg.mpr hq)]

theorem truncate_neg (q : ℚ) : truncate (-q) = -truncate q := by
  simp [truncate, Int.neg_tdiv]

theorem le_truncate {n : ℤ} (hn : 1 ≤ n) (q : ℚ) : n ≤ truncate q ↔ (n : ℚ) ≤ q := by
  by_cases hq : 0 ≤ q
  · rw [truncate_of_nonneg hq, Int.le_floor]
  · have hneg : 0 ≤ -q := by linarith
    have htrunc := truncate_of_nonneg hneg
    have hfloor : 0 ≤ ⌊-q⌋ := Int.floor_nonneg.mpr hneg
    rw [truncate_neg] at htrunc
    have hn' : (1 : ℚ) ≤ n := by exact_mod_cast hn
    constructor
    · intro h
      omega
    · intro h
      linarith

theorem truncate_lt {n : ℤ} (hn : 1 ≤ n) (q : ℚ) : truncate q < n ↔ q < n := by
  rw [← not_le, le_truncate hn, not_le]

/-- A cast to `int32_t` is defined on an open interval of rationals. -/
theorem truncate_fits (q : ℚ) :
    (-2 ^ 31 ≤ truncate q ∧ truncate q ≤ 2 ^ 31 - 1) ↔ -(2 ^ 31 + 1) < q ∧ q < 2 ^ 31 := by
  have hlow : -2 ^ 31 ≤ truncate q ↔ truncate (-q) < 2 ^ 31 + 1 := by
    rw [truncate_neg]
    omega
  have hhigh : truncate q ≤ 2 ^ 31 - 1 ↔ truncate q < 2 ^ 31 := by omega
  rw [hlow, hhigh, truncate_lt (by decide), truncate_lt (by decide)]
  push_cast
  constructor
  · rintro ⟨h₁, h₂⟩
    exact ⟨by linarith, h₂⟩
  · rintro ⟨h₁, h₂⟩
    exact ⟨by linarith, h₂⟩

theorem of_int32_eq (x : BitVec 32) : (ofInt32 x : ℚ) = x.toInt := by
  unfold ofInt32
  split
  · rename_i h
    rw [← Int.cast_natCast, Int.toNat_of_nonneg h]
  · rename_i h
    rw [← Int.cast_natCast (-x.toInt).toNat, Int.toNat_of_nonneg (by omega)]
    push_cast
    ring

/-- The move can be run as planned: no division by zero, a number of ticks that
the core counts to its end, and casts within the range of their types. -/
structure Runnable (cur next : Target ℚ) : Prop where
  dt : next.dt ≠ 0
  dtSquare : next.dt * next.dt ≠ 0
  steps : 1 ≤ truncate (plan cur next).dt ∧ truncate (plan cur next).dt ≤ 2 ^ 32 - 1
  a : -2 ^ 31 ≤ truncate (plan cur next).a ∧ truncate (plan cur next).a ≤ 2 ^ 31 - 1
  j : -2 ^ 31 ≤ truncate (plan cur next).j ∧ truncate (plan cur next).j ≤ 2 ^ 31 - 1

/-- The numerators of acceleration and jerk, for a move by `dx` steps from
velocity `v0` to `v` in `dt` milliseconds. -/
def numA (dx v0 v dt : ℤ) : ℤ := 2 ^ 41 * (3000 * dx - (2 * v0 + v) * dt)
def numJ (dx v0 v dt : ℤ) : ℤ := 6 * 2 ^ 40 * ((v0 + v) * dt - 2000 * dx)

/-- At least one tick of 4 ms, and an acceleration and a jerk that fit. -/
structure Feasible (x0 v0 x v dt : ℤ) : Prop where
  ticks : 4 ≤ dt
  a : -(2 ^ 31 + 1) * (25000000 * dt ^ 2) < numA (x - x0) v0 v dt ∧
    numA (x - x0) v0 v dt < 2 ^ 31 * (25000000 * dt ^ 2)
  j : -(2 ^ 31 + 1) * (6250000 * dt ^ 3) < numJ (x - x0) v0 v dt ∧
    numJ (x - x0) v0 v dt < 2 ^ 31 * (6250000 * dt ^ 3)

variable {cur : Target ℚ} {x0 v0 x v dt : BitVec 32}

theorem plan_start (hx : cur.x = x0.toInt) (hv : cur.v = v0.toInt) (hdt : dt.toInt ≠ 0) :
    plan cur (startTarget x v dt) =
      ⟨(dt.toInt : ℚ) / 4,
        numA (x.toInt - x0.toInt) v0.toInt v.toInt dt.toInt / (25000000 * (dt.toInt : ℚ) ^ 2),
        numJ (x.toInt - x0.toInt) v0.toInt v.toInt dt.toInt / (6250000 * (dt.toInt : ℚ) ^ 3)⟩ := by
  have hd : (dt.toInt : ℚ) ≠ 0 := by exact_mod_cast hdt
  unfold plan startTarget numA numJ
  simp only [of_int32_eq, hx, hv, stepBit, stepFreq, accFreq, Plan.mk.injEq]
  push_cast
  refine ⟨?_, ?_, ?_⟩
  · ring
  · field_simp
    ring
  · field_simp
    ring

/-- The quotient of two integers against the bounds of the cast. -/
theorem quotient_fits (n : ℤ) {d : ℤ} (hd : 0 < d) :
    (-2 ^ 31 ≤ truncate ((n : ℚ) / d) ∧ truncate ((n : ℚ) / d) ≤ 2 ^ 31 - 1) ↔
      -(2 ^ 31 + 1) * d < n ∧ n < 2 ^ 31 * d := by
  have hd' : (0 : ℚ) < d := by exact_mod_cast hd
  rw [truncate_fits, lt_div_iff₀ hd', div_lt_iff₀ hd']
  exact_mod_cast Iff.rfl

theorem a_fits (hx : cur.x = x0.toInt) (hv : cur.v = v0.toInt) (hdt : 0 < dt.toInt) :
    (-2 ^ 31 ≤ truncate (plan cur (startTarget x v dt)).a ∧
      truncate (plan cur (startTarget x v dt)).a ≤ 2 ^ 31 - 1) ↔
    -(2 ^ 31 + 1) * (25000000 * dt.toInt ^ 2) <
        numA (x.toInt - x0.toInt) v0.toInt v.toInt dt.toInt ∧
      numA (x.toInt - x0.toInt) v0.toInt v.toInt dt.toInt <
        2 ^ 31 * (25000000 * dt.toInt ^ 2) := by
  rw [plan_start hx hv hdt.ne', ← quotient_fits _ (by positivity)]
  push_cast
  exact Iff.rfl

theorem j_fits (hx : cur.x = x0.toInt) (hv : cur.v = v0.toInt) (hdt : 0 < dt.toInt) :
    (-2 ^ 31 ≤ truncate (plan cur (startTarget x v dt)).j ∧
      truncate (plan cur (startTarget x v dt)).j ≤ 2 ^ 31 - 1) ↔
    -(2 ^ 31 + 1) * (6250000 * dt.toInt ^ 3) <
        numJ (x.toInt - x0.toInt) v0.toInt v.toInt dt.toInt ∧
      numJ (x.toInt - x0.toInt) v0.toInt v.toInt dt.toInt <
        2 ^ 31 * (6250000 * dt.toInt ^ 3) := by
  rw [plan_start hx hv hdt.ne', ← quotient_fits _ (by positivity)]
  push_cast
  exact Iff.rfl

theorem start_dt (x v dt : BitVec 32) :
    (startTarget x v dt : Target ℚ).dt = dt.toInt / 1000 := by
  simp [startTarget, of_int32_eq]

/-- A tick takes 4 ms, and no `int32_t` gives too many of them. -/
theorem ticks_fit (cur : Target ℚ) :
    (1 ≤ truncate (plan cur (startTarget x v dt)).dt ∧
      truncate (plan cur (startTarget x v dt)).dt ≤ 2 ^ 32 - 1) ↔ 4 ≤ dt.toInt := by
  have hticks : (plan cur (startTarget x v dt)).dt = (dt.toInt : ℚ) / 4 := by
    simp only [plan, start_dt, accFreq]
    push_cast
    ring
  have hone : 1 ≤ truncate ((dt.toInt : ℚ) / 4) ↔ 4 ≤ dt.toInt := by
    rw [le_truncate (le_refl 1), le_div_iff₀ (by norm_num)]
    norm_cast
  have hsmall : truncate ((dt.toInt : ℚ) / 4) < 2 ^ 32 := by
    have hlt : (dt.toInt : ℚ) < 2 ^ 31 := by exact_mod_cast dt.toInt_lt
    rw [truncate_lt (by decide), div_lt_iff₀ (by norm_num)]
    push_cast
    linarith
  rw [hticks, ← hone]
  omega

theorem runnable_iff (hx : cur.x = x0.toInt) (hv : cur.v = v0.toInt) :
    Runnable cur (startTarget x v dt) ↔
      Feasible x0.toInt v0.toInt x.toInt v.toInt dt.toInt := by
  constructor
  · intro h
    have hdt := (ticks_fit cur).mp h.steps
    have hpos : 0 < dt.toInt := by omega
    exact ⟨hdt, (a_fits hx hv hpos).mp h.a, (j_fits hx hv hpos).mp h.j⟩
  · intro h
    have hpos : 0 < dt.toInt := by
      have := h.ticks
      omega
    have hms : (0 : ℚ) < (startTarget x v dt : Target ℚ).dt := by
      rw [start_dt]
      positivity
    exact ⟨hms.ne', (by positivity), (ticks_fit cur).mpr h.ticks, (a_fits hx hv hpos).mpr h.a,
      (j_fits hx hv hpos).mpr h.j⟩

def Whole (p : Target ℚ) : Prop := ∃ x v : BitVec 32, p.x = x.toInt ∧ p.v = v.toInt

def Started (t : Target ℚ) : Prop := ∃ x v dt, t = startTarget x v dt

/-- The static variables hold only what start commands have put there. -/
structure Ready (s : Steppers ℚ) : Prop where
  position : Whole s.currentPosition
  pending : ∀ t ∈ s.pending, Started t

def Sound : Event ℚ → Prop
  | .unqueueMove cur next => Whole cur ∧ Started next
  | _ => True

theorem whole_zero (dt : ℚ) : Whole ⟨dt, ((0 : ℕ) : ℚ), ((0 : ℕ) : ℚ)⟩ := ⟨0, 0, by simp, by simp⟩

theorem Started.whole {t : Target ℚ} (h : Started t) : Whole t := by
  obtain ⟨x, v, dt, rfl⟩ := h
  exact ⟨x, v, of_int32_eq x, of_int32_eq v⟩

theorem Whole.clear_v {p : Target ℚ} (h : Whole p) : Whole { p with v := ((0 : ℕ) : ℚ) } := by
  obtain ⟨x, -, hx, -⟩ := h
  exact ⟨x, 0, hx, by simp⟩

theorem ready_initial : Ready .initial :=
  ⟨whole_zero _, by simp [Steppers.pending, Steppers.initial]⟩

theorem Ready.set_state {s : Steppers ℚ} (h : Ready s) (state : State) :
    Ready (s.setState state) := ⟨h.position, h.pending⟩

theorem Ready.do_start {s : Steppers ℚ} (h : Ready s) (x v dt : BitVec 32) :
    Ready (doStart x v dt s) := by
  constructor
  · have hpos : (doStart x v dt s).currentPosition = s.currentPosition := by
      unfold doStart steppersQueue
      split <;> rfl
    rw [hpos]
    exact h.position
  · intro t ht
    rw [doStart, pending_queue] at ht
    rcases List.mem_append.mp ht with ht | ht
    · exact h.pending t ht
    · split at ht
      · exact ⟨x, v, dt, List.mem_singleton.mp ht⟩
      · simp at ht

/-- Register accesses pass no mark. -/
theorem marks_read (addr : Addr) : Marks Sound (fun _ => True) (motionReadReg addr) :=
  fun _ => trivial

theorem marks_write (addr : Addr) (d : BitVec 32) :
    Marks Sound (fun _ => True) (motionWriteReg addr d) := trivial

theorem marks_set_next (r : Reg) (mask d : BitVec 32) :
    Marks Sound (fun _ => True) (motionSetNext r mask d) := fun _ => trivial

theorem marks_unqueue_move {s : Steppers ℚ} (h : Ready s) (hlen : 0 < s.queueLen) :
    Marks Sound Ready (unqueueMove s hlen) := by
  have hsplit := pending_unqueued s hlen
  have hfront : Started s.front := h.pending _ (by rw [hsplit]; exact List.mem_cons_self)
  refine ⟨⟨h.position, hfront⟩, ?_⟩
  refine (marks_write _ _).seq fun _ _ => ?_
  refine (marks_set_next _ _ _).seq fun _ _ => ?_
  refine (marks_set_next _ _ _).seq fun _ _ => ?_
  refine (show Marks Sound (fun _ => True) motionStart from fun _ => trivial).seq fun _ _ => ?_
  refine ⟨hfront.whole, ?_⟩
  intro t ht
  exact h.pending t (by rw [hsplit]; exact List.mem_cons_of_mem _ ht)

theorem marks_unqueue_stop {s : Steppers ℚ} (h : Ready s) :
    Marks Sound Ready (unqueueStop s) := by
  refine ⟨trivial, ?_⟩
  refine (marks_write _ _).seq fun _ _ => ?_
  refine (marks_set_next _ _ _).seq fun _ _ => ?_
  refine (marks_set_next _ _ _).seq fun _ _ => ?_
  refine (marks_set_next _ _ _).seq fun _ _ => ?_
  refine (show Marks Sound (fun _ => True) motionStart from fun _ => trivial).seq fun _ _ => ?_
  exact ⟨h.position.clear_v, h.pending⟩

theorem marks_init_core {s : Steppers ℚ} (h : Ready s) : Marks Sound Ready (initCore s) := by
  refine ⟨trivial, ?_⟩
  refine (marks_write _ _).seq fun _ _ => ?_
  refine (marks_write _ _).seq fun _ _ => ?_
  refine (marks_write _ _).seq fun _ _ => ?_
  refine (marks_write _ _).seq fun _ _ => ?_
  refine (marks_write _ _).seq fun _ _ => ?_
  exact ⟨whole_zero _, h.pending⟩

theorem marks_main_loop {s : Steppers ℚ} (h : Ready s) :
    Marks Sound Ready (steppersMainLoop s) := by
  cases hs : s.state with
  | off =>
    simp only [steppersMainLoop, hs]
    split
    · exact marks_init_core h
    · exact h
  | idle =>
    simp only [steppersMainLoop, hs]
    split
    · rename_i hlen
      exact (marks_unqueue_move h hlen).seq fun t ht => ht.set_state .active
    · exact h
  | active =>
    simp only [steppersMainLoop, hs]
    refine (marks_read _).seq fun w _ => ?_
    split
    · split
      · rename_i hlen
        exact marks_unqueue_move h hlen
      · refine (marks_read _).seq fun w _ => ?_
        split
        · refine ⟨trivial, ?_⟩
          exact (marks_unqueue_stop h).seq fun t ht => ht.set_state .stopping
        · exact h
    · exact h
  | delay =>
    simp only [steppersMainLoop, hs]
    exact h
  | stopping =>
    simp only [steppersMainLoop, hs]
    refine (marks_read _).seq fun w _ => ?_
    split
    · refine (marks_read _).seq fun w _ => ?_
      split
      · exact ⟨trivial, h.set_state .idle⟩
      · exact h
    · exact h

theorem marks_reset (s : Steppers ℚ) : Marks Sound Ready (steppersReset s) := by
  refine (marks_write _ _).seq fun _ _ => ?_
  exact ⟨whole_zero _, by simp [Steppers.pending]⟩

theorem marks_status {s : Steppers ℚ} (h : Ready s) : Marks Sound Ready (steppersStatus s) := by
  refine (marks_read _).seq fun _ _ => ?_
  refine (marks_read _).seq fun _ _ => ?_
  refine (marks_read _).seq fun _ _ => ?_
  refine (marks_read _).seq fun _ _ => ?_
  refine (marks_read _).seq fun _ _ => ?_
  refine (marks_read _).seq fun _ _ => ?_
  refine (marks_read _).seq fun _ _ => ?_
  refine (marks_read _).seq fun _ _ => ?_
  refine (marks_read _).seq fun _ _ => ?_
  exact h

def SoundCall : Call ℚ → Prop
  | .move cur next => Whole cur ∧ Started next
  | .stop => True

/-- Between two calls the static variables are `Ready`; inside a call the rest of
it leads back there. All calls so far were sound. -/
structure Invariant (s : System ℚ) : Prop where
  code : match s.running with
    | none => Ready s.steppers
    | some p => Marks Sound Ready p
  calls : ∀ c ∈ s.board.calls, SoundCall c

theorem invariant_initial : Invariant .initial :=
  ⟨ready_initial, by simp [System.initial, Board.initial]⟩

theorem Invariant.ready {s : System ℚ} (h : Invariant s) (hr : s.running = none) :
    Ready s.steppers := by
  simpa only [hr] using h.code

theorem calls_mark {b : Board ℚ} (h : ∀ c ∈ b.calls, SoundCall c) {e : Event ℚ} (he : Sound e) :
    ∀ c ∈ (b.mark e).calls, SoundCall c := by
  intro c hc
  cases e with
  | unqueueMove cur next =>
    rcases List.mem_append.mp hc with hc | hc
    · exact h c hc
    · rw [List.mem_singleton.mp hc]
      exact he
  | unqueueStop =>
    rcases List.mem_append.mp hc with hc | hc
    · exact h c hc
    · rw [List.mem_singleton.mp hc]
      trivial
  | printf text => exact h c hc

/-- A register access leaves the record of calls alone, but for a reset. -/
theorem calls_put {b : Board ℚ} (h : ∀ c ∈ b.calls, SoundCall c) (addr : Addr) (d : BitVec 32) :
    ∀ c ∈ (Board.device.put addr d b).calls, SoundCall c := by
  cases addr with
  | sel sel => exact h
  | rst =>
    by_cases hd : d = softReset
    · have hput : Board.device.put .rst d b = b.reset := if_pos hd
      rw [hput]
      simp [Board.reset]
    · have hput : Board.device.put .rst d b = b.clock none := if_neg hd
      rw [hput]
      exact h

theorem invariant_step {s t : System ℚ} (h : Invariant s) (ha : OnlyStart a)
    (hs : s.Step a t) : Invariant t := by
  cases hs with
  | clock => exact ⟨h.code, h.calls⟩
  | mainLoop hr => exact ⟨marks_main_loop (h.ready hr), h.calls⟩
  | queue target hr =>
    obtain ⟨x, v, dt, rfl⟩ := ha
    refine ⟨?_, ?_⟩
    · simp only [System.queued, hr]
      exact (h.ready hr).do_start x v dt
    · unfold System.queued
      split
      · exact h.calls
      · exact h.calls
  | status hr => exact ⟨marks_status (h.ready hr), h.calls⟩
  | reset hr => exact ⟨marks_reset _, h.calls⟩
  | execute hr hp =>
    have hcode := h.code
    simp only [hr] at hcode
    refine ⟨hcode.step hp, ?_⟩
    cases hp with
    | idle => exact h.calls
    | read => exact h.calls
    | write => exact calls_put h.calls _ _
    | mark => exact calls_mark h.calls hcode.1
  | «return» hr =>
    have hcode := h.code
    simp only [hr] at hcode
    exact ⟨hcode, h.calls⟩

theorem invariant_reachable {s : System ℚ} (h : System.Reachable OnlyStart s) : Invariant s := by
  induction h with
  | initial => exact invariant_initial
  | step _ ha hs ih => exact invariant_step ih ha hs

/-- A runnable move, once loaded, ends after exactly the planned ticks. -/
theorem Runnable.ends {cur next : Target ℚ} (h : Runnable cur next)
    (r : Run (UserLogic.clock false)) (t : ℕ) (d : BitVec 32) (hd : 1 ≤ d.toNat)
    (hl : (r.state t).load false = true) (hdt : (r.state t).reg .nextDt = d)
    (hsteps : (r.state t).reg .nextSteps = planSteps cur next) :
    ∀ c, t < c → c ≤ t + (truncate (plan cur next).dt).toNat * d.toNat →
      ((r.state c).accStepGen.done false = true ↔
        c = t + (truncate (plan cur next).dt).toNat * d.toNat) := by
  obtain ⟨hlow, hhigh⟩ := h.steps
  have hnat : (planSteps cur next : BitVec 32).toNat = (truncate (plan cur next).dt).toNat := by
    change (BitVec.ofInt 32 (truncate (plan cur next).dt)).toNat = _
    rw [BitVec.toNat_ofInt, Int.emod_eq_of_lt (by omega) (by norm_num; omega)]
  have hseg : SegmentAt r t d (planSteps cur next) := ⟨hl, hdt, hsteps, hd, by omega⟩
  intro c hc he
  rw [← hnat] at he ⊢
  exact hseg.done_iff hc he

/-- Every move of a system that only start commands feed goes from an integer
position and velocity to a start target, and it can be run exactly when it takes
at least one tick and its acceleration and jerk fit into their registers. -/
theorem runnable_exactly_when (s : System ℚ) (h : System.Reachable OnlyStart s)
    (cur next : Target ℚ) (hc : .move cur next ∈ s.board.calls) :
    (∃ x0 v0 x v dt : BitVec 32, cur.x = x0.toInt ∧ cur.v = v0.toInt ∧
      next = startTarget x v dt ∧
      (Runnable cur next ↔ Feasible x0.toInt v0.toInt x.toInt v.toInt dt.toInt)) ∧
    (Runnable cur next → ∀ (r : Run (UserLogic.clock false)) (t : ℕ) (d : BitVec 32),
      1 ≤ d.toNat → (r.state t).load false = true → (r.state t).reg .nextDt = d →
      (r.state t).reg .nextSteps = planSteps cur next →
      ∀ c, t < c → c ≤ t + (truncate (plan cur next).dt).toNat * d.toNat →
        ((r.state c).accStepGen.done false = true ↔
          c = t + (truncate (plan cur next).dt).toNat * d.toNat)) := by
  obtain ⟨⟨x0, v0, hx, hv⟩, x, v, dt, rfl⟩ := (invariant_reachable h).calls _ hc
  refine ⟨⟨x0, v0, x, v, dt, hx, hv, rfl, runnable_iff hx hv⟩, ?_⟩
  intro hrun r t d hd hl hdt hsteps
  exact hrun.ends r t d hd hl hdt hsteps

/-- Power-up, one start command and two turns of the main loop, up to the point
where `unqueue_move` plans the move. -/
theorem reachable_start (x v dt : BitVec 32) : ∃ s : System ℚ, System.Reachable OnlyStart s ∧
    s.board.calls = [.move ⟨0, 0, 0⟩ (startTarget x v dt)] := by
  have h₀ : System.Reachable OnlyStart (System.initial.queued (startTarget x v dt : Target ℚ)) :=
    .step .initial (by exact ⟨x, v, dt, rfl⟩) (.queue _ rfl)
  have h₁ := (h₀.step (by exact trivial) (.mainLoop rfl)).step (by exact trivial)
    (.execute rfl .mark)
  have h₂ := ((h₁.step (by exact trivial) (.execute rfl .write)).step (by exact trivial)
    (.execute rfl .write)).step (by exact trivial) (.execute rfl .write)
  have h₃ := ((h₂.step (by exact trivial) (.execute rfl .write)).step (by exact trivial)
    (.execute rfl .write)).step (by exact trivial) (.return rfl)
  have h₄ := (h₃.step (by exact trivial) (.mainLoop rfl)).step (by exact trivial)
    (.execute rfl .mark)
  exact ⟨_, h₄, rfl⟩

/-- `start 0 0 0`: nothing keeps the planner from dividing by zero. -/
theorem start_without_time : ∃ s : System ℚ, System.Reachable OnlyStart s ∧
    .move ⟨0, 0, 0⟩ (startTarget 0 0 0) ∈ s.board.calls ∧
    (startTarget 0 0 0 : Target ℚ).dt = 0 ∧ ¬Runnable ⟨0, 0, 0⟩ (startTarget 0 0 0) := by
  obtain ⟨s, h, hcalls⟩ := reachable_start 0 0 0
  have hdt : (startTarget 0 0 0 : Target ℚ).dt = 0 := by
    simp [startTarget, of_int32_eq]
  exact ⟨s, h, by rw [hcalls]; exact List.mem_singleton_self _, hdt, fun hrun => hrun.dt hdt⟩

/-- `start 1000 0 1000`: a thousand steps in one second. -/
theorem start_one_second : ∃ s : System ℚ, System.Reachable OnlyStart s ∧
    .move ⟨0, 0, 0⟩ (startTarget 1000 0 1000) ∈ s.board.calls ∧
    Runnable ⟨0, 0, 0⟩ (startTarget 1000 0 1000) := by
  obtain ⟨s, h, hcalls⟩ := reachable_start 1000 0 1000
  have hmem : .move ⟨0, 0, 0⟩ (startTarget 1000 0 1000) ∈ s.board.calls := by
    rw [hcalls]
    exact List.mem_singleton_self _
  refine ⟨s, h, hmem, ?_⟩
  obtain ⟨⟨x0, v0, x, v, dt, hx, hv, hnext, hiff⟩, -⟩ := runnable_exactly_when s h _ _ hmem
  have hx0 : x0.toInt = 0 := by simpa using hx.symm
  have hv0 : v0.toInt = 0 := by simpa using hv.symm
  simp only [startTarget, of_int32_eq, Target.mk.injEq] at hnext
  have hx1 : x.toInt = 1000 := by exact_mod_cast hnext.2.1.symm
  have hv1 : v.toInt = 0 := by exact_mod_cast hnext.2.2.symm
  have hdt : dt.toInt = 1000 := by
    have heq := hnext.1
    rw [div_left_inj' (by norm_num)] at heq
    exact_mod_cast heq.symm
  rw [hiff, hx0, hv0, hx1, hv1, hdt]
  exact ⟨by decide, by decide, by decide⟩

end Vp2Motion.Proofs.Start
