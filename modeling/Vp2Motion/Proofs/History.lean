import Mathlib.Tactic.IntervalCases
import Vp2Motion.Proofs.CommandLine

namespace Vp2Motion.Proofs.History
open CString Firmware Firmware.Cmdline Line HistoryRows CommandLine

variable {F : Type}

def remembered (s : Cmdline F) : List (List UInt8) :=
  (s.history.toList.take s.historyCnt).map fun row => text row.bytes

/-- The editor as it is meant to be: only a line that has not been edited since
its recall takes the place of its entry. -/
def intended : Rules := { coded with replaces := fun o => o = .recalled }

/-- A carriage return here loses an entry: the line was recalled and then only
deleted from, and dropping its entry is not the same as dropping the oldest. -/
def Forgets (t : Terminal) : Prop :=
  t.vt ≠ .bracket ∧ t.editor.line.whole ≠ [] ∧ t.editor.origin = .trimmed ∧
    t.editor.history.eraseIdx t.editor.idx.toNat ≠ t.editor.history.take (cmdlineHistorySize - 1)

theorem saved_eq_iff (e : Editor UInt8) :
    e.saved coded = e.saved intended ↔
      ¬(e.line.whole ≠ [] ∧ e.origin = .trimmed ∧
        e.history.eraseIdx e.idx.toNat ≠ e.history.take (cmdlineHistorySize - 1)) := by
  unfold Editor.saved
  by_cases hw : e.line.whole = []
  · simp [hw]
  · rw [if_neg hw, if_neg hw]
    cases ho : e.origin with
    | typed => simp [coded, intended]
    | recalled => simp [coded, intended]
    | trimmed => simp [coded, intended, hw, cmdlineHistorySize]

/-- The two editors differ only in what a submitted line does to the history. -/
theorem step_eq (key : Key UInt8) (e : Editor UInt8)
    (h : key = .submit → e.saved coded = e.saved intended) :
    e.step coded key = e.step intended key := by
  cases key with
  | submit => simp only [Editor.step, h rfl]
  | insert c => rfl
  | delete => rfl
  | right => rfl
  | left => rfl
  | older => rfl
  | newer => rfl
  | other => rfl

theorem run_eq (input : List UInt8)
    (h : ∀ front, front ++ [asciiCr] <+: input → ¬Forgets (Terminal.run intended front)) :
    Terminal.run coded input = Terminal.run intended input := by
  induction input using List.reverseRecOn with
  | nil => rfl
  | append_singleton input c ih =>
    have hprev := ih (fun front hf => h front (hf.trans (List.prefix_append _ _)))
    rw [Terminal.run_append, Terminal.run_append, hprev, Terminal.step, Terminal.step]
    congr 1
    apply step_eq
    intro hsubmit
    obtain ⟨hvt, rfl⟩ := (submit_iff _ _).mp hsubmit
    rw [saved_eq_iff]
    exact fun hbad => h input (List.prefix_refl _) ⟨hvt, hbad⟩

/-- The first carriage return that loses an entry makes the two differ. -/
theorem agree_iff (input : List UInt8) :
    (∀ front, front <+: input → (Terminal.run coded front).editor.history =
      (Terminal.run intended front).editor.history) ↔
    ∀ front, front ++ [asciiCr] <+: input → ¬Forgets (Terminal.run intended front) := by
  constructor
  · intro hagree front
    -- by induction on the length: everything before this return has gone well
    induction hn : front.length using Nat.strong_induction_on generalizing front with
    | h n ih =>
      rintro hfront ⟨hvt, hbad⟩
      have hsame : Terminal.run coded front = Terminal.run intended front := by
        apply run_eq
        intro shorter hs
        have hlen := hs.length_le
        rw [List.length_append, List.length_singleton] at hlen
        exact ih shorter.length (by omega) shorter rfl
          (hs.trans ((List.prefix_append _ _).trans hfront))
      have hsubmit := (submit_iff (Terminal.run intended front).vt asciiCr).mpr ⟨hvt, rfl⟩
      have hlast := hagree _ hfront
      rw [Terminal.run_append, Terminal.run_append, hsame] at hlast
      simp only [Terminal.step, hsubmit, Editor.step] at hlast
      exact (saved_eq_iff _).mp hlast hbad
  · intro h front hfront
    rw [run_eq front (fun shorter hs => h shorter (hs.trans hfront))]

theorem remembered_eq (commands : List (List UInt8 × Option F))
    (hcount : commands.length ≤ cmdlineMaxCommands)
    (hnames : ∀ c ∈ commands, c.1.length < cmdlineBufferSize ∧ 0 ∉ c.1) (input : List UInt8) :
    ∃ s, session commands input = some s ∧
      remembered s = (Terminal.run coded input).editor.history := by
  obtain ⟨s, hs, -, href⟩ := session_refines commands hcount hnames input
  refine ⟨s, hs, ?_⟩
  rw [remembered, List.map_take]
  change (texts s.history).take s.historyCnt = _
  rw [href.history.rows, href.history.cnt, List.take_left]

/-- The history is the intended one throughout a session exactly when no
carriage return finds a recalled line that was only deleted from. -/
theorem history_kept_exactly_when (commands : List (List UInt8 × Option F))
    (hcount : commands.length ≤ cmdlineMaxCommands)
    (hnames : ∀ c ∈ commands, c.1.length < cmdlineBufferSize ∧ 0 ∉ c.1) (input : List UInt8) :
    (∀ front, front <+: input → ∃ s, session commands front = some s ∧
      remembered s = (Terminal.run intended front).editor.history) ↔
    ∀ front, front ++ [asciiCr] <+: input → ¬Forgets (Terminal.run intended front) := by
  rw [← agree_iff]
  apply forall_congr'
  intro front
  apply imp_congr_right
  intro _
  obtain ⟨s, hs, hrem⟩ := remembered_eq commands hcount hnames front
  constructor
  · rintro ⟨s', hs', hrem'⟩
    rw [hs, Option.some.injEq] at hs'
    subst hs'
    rw [← hrem, hrem']
  · intro heq
    exact ⟨s, hs, hrem.trans heq⟩

/-- `ab` and, after a recall, `abc`. -/
def recallAndType : List UInt8 := [0x61, 0x62, 0x0D, 0x1B, 0x5B, 0x41, 0x63, 0x0D]

theorem typed_after_recall_kept : ∃ s : Cmdline ℕ,
    session [] recallAndType = some s ∧ remembered s = [[0x61, 0x62, 0x63], [0x61, 0x62]] := by
  apply (history_kept_exactly_when (F := ℕ) [] (by decide) (by simp) recallAndType).mpr
    ?_ recallAndType (List.prefix_refl _)
  rintro front hfront ⟨-, -, horigin, -⟩
  have hle := hfront.length_le
  have htake := List.prefix_iff_eq_take.mp ((List.prefix_append _ _).trans hfront)
  rw [htake] at horigin
  rw [List.length_append, List.length_singleton] at hle
  generalize front.length = n at hle horigin
  have hn : n ≤ 7 := Nat.le_of_succ_le_succ hle
  interval_cases n <;> exact absurd horigin (by decide)

/-- `ab` and, after a recall, `a`: the code drops `ab`. -/
def recallAndDelete : List UInt8 := [0x61, 0x62, 0x0D, 0x1B, 0x5B, 0x41, 0x7F, 0x0D]

theorem deleted_after_recall_forgotten : ∃ s : Cmdline ℕ,
    session [] recallAndDelete = some s ∧ remembered s = [[0x61]] ∧
      (Terminal.run intended recallAndDelete).editor.history = [[0x61], [0x61, 0x62]] := by
  obtain ⟨s, hs, hrem⟩ := remembered_eq (F := ℕ) [] (by decide) (by simp) recallAndDelete
  exact ⟨s, hs, hrem, rfl⟩

end Vp2Motion.Proofs.History
