import Mathlib.Data.List.Induction
import Vp2Motion.Line.Editor

namespace Vp2Motion.Line

/-- How much of an escape sequence has come in. -/
inductive Sequence where
  | none
  | escape
  | bracket
deriving DecidableEq

/-- One line of a VT100 terminal. -/
structure Screen where
  cells : Zipper UInt8
  sequence : Sequence

namespace Screen

def blank : UInt8 := 0x20

def Printable (c : UInt8) : Prop := 0x20 ≤ c ∧ c < 0x7F

instance (c : UInt8) : Decidable (Printable c) :=
  inferInstanceAs (Decidable (0x20 ≤ c ∧ c < 0x7F))

/-- An empty line of `width` cells, with the cursor at its left margin. -/
def clear (width : ℕ) : Screen := ⟨⟨[], List.replicate width blank⟩, .none⟩

/-- A character at the cursor, which must not leave the line. -/
def print (c : UInt8) (z : Zipper UInt8) : Option (Zipper UInt8) :=
  match z.after with
  | _ :: d :: cells => some ⟨z.before ++ [c], d :: cells⟩
  | _ => none

/-- One byte. `none` is a byte that would leave the line or that is not understood. -/
def receive (c : UInt8) (s : Screen) : Option Screen :=
  match s.sequence with
  | .none =>
    if Printable c then (print c s.cells).map fun z => ⟨z, .none⟩
    else if c = 0x0D then some ⟨⟨[], s.cells.whole⟩, .none⟩
    else if c = 0x08 then some ⟨s.cells.left, .none⟩
    else if c = 0x07 then some s
    else if c = 0x1B then some ⟨s.cells, .escape⟩
    else none
  | .escape => if c = 0x5B then some ⟨s.cells, .bracket⟩ else none
  | .bracket =>
    if c = 0x43 then some ⟨s.cells.right, .none⟩
    else if c = 0x4B then
      some ⟨⟨s.cells.before, List.replicate s.cells.after.length blank⟩, .none⟩
    else none

def run (s : Screen) (bytes : List UInt8) : Option Screen :=
  bytes.foldlM (fun s c => receive c s) s

variable {s t u : Screen}

theorem run_append (h : s.run x = some t) (h' : t.run y = some u) :
    s.run (x ++ y) = some u := by
  rw [run, List.foldlM_append]
  change (s.run x).bind (fun s => s.run y) = some u
  rw [h]
  exact h'

theorem run_cons (h : receive c s = some t) (h' : t.run ys = some u) :
    s.run (c :: ys) = some u := by
  rw [run, List.foldlM_cons, h]
  exact h'

/-- Text over as many cells, with a cell left for the cursor. -/
theorem run_text {text cells rest : List UInt8} (hprint : ∀ c ∈ text, Printable c)
    (hlen : cells.length = text.length) (hrest : rest ≠ []) (before : List UInt8) :
    run ⟨⟨before, cells ++ rest⟩, .none⟩ text = some ⟨⟨before ++ text, rest⟩, .none⟩ := by
  induction text generalizing before cells with
  | nil =>
    obtain rfl := List.length_eq_zero_iff.mp hlen
    rw [List.append_nil]
    rfl
  | cons c text ih =>
    cases cells with
    | nil => simp at hlen
    | cons d cells =>
      have hnext : print c ⟨before, d :: cells ++ rest⟩ = some ⟨before ++ [c], cells ++ rest⟩ := by
        cases hcells : cells ++ rest with
        | nil => exact absurd (List.append_eq_nil_iff.mp hcells).2 hrest
        | cons d' cells' => simp only [print, List.cons_append, hcells]
      have hstep : receive c ⟨⟨before, d :: cells ++ rest⟩, .none⟩ =
          some ⟨⟨before ++ [c], cells ++ rest⟩, .none⟩ := by
        rw [receive, if_pos (hprint c (List.mem_cons_self ..)), hnext]
        rfl
      refine run_cons hstep ?_
      rw [ih (fun d hd => hprint d (List.mem_cons_of_mem _ hd)) (by simpa using hlen),
        List.append_assoc, List.singleton_append]

theorem run_char (hprint : Printable c) (hrest : rest ≠ []) (before : List UInt8) (d : UInt8) :
    run ⟨⟨before, d :: rest⟩, .none⟩ [c] = some ⟨⟨before ++ [c], rest⟩, .none⟩ := by
  have htext : ∀ b ∈ [c], Printable b := by simpa using hprint
  have hlen : [d].length = [c].length := rfl
  exact run_text htext hlen hrest before

theorem left_concat (before : List UInt8) (c : UInt8) (after : List UInt8) :
    (⟨before ++ [c], after⟩ : Zipper UInt8).left = ⟨before, c :: after⟩ := by
  simp [Zipper.left]

/-- Backspaces over the characters `back`. -/
theorem run_backspaces (before back after : List UInt8) :
    run ⟨⟨before ++ back, after⟩, .none⟩ (List.replicate back.length 0x08) =
      some ⟨⟨before, back ++ after⟩, .none⟩ := by
  induction back using List.reverseRecOn generalizing after with
  | nil => simp [run]
  | append_singleton back c ih =>
    rw [List.length_append, List.length_singleton, List.replicate_succ, ← List.append_assoc]
    refine run_cons (t := ⟨⟨before ++ back, c :: after⟩, .none⟩) ?_ ?_
    · rw [← left_concat]
      rfl
    · rw [ih, List.append_assoc, List.singleton_append]

theorem run_backspace (before : List UInt8) (c : UInt8) (after : List UInt8) :
    run ⟨⟨before ++ [c], after⟩, .none⟩ [0x08] = some ⟨⟨before, c :: after⟩, .none⟩ :=
  run_backspaces before [c] after

theorem run_return (z : Zipper UInt8) : run ⟨z, .none⟩ [0x0D] = some ⟨⟨[], z.whole⟩, .none⟩ := rfl

theorem run_bell (z : Zipper UInt8) : run ⟨z, .none⟩ [0x07] = some ⟨z, .none⟩ := rfl

theorem run_right (z : Zipper UInt8) :
    run ⟨z, .none⟩ [0x1B, 0x5B, 0x43] = some ⟨z.right, .none⟩ := rfl

theorem run_erase (z : Zipper UInt8) :
    run ⟨z, .none⟩ [0x1B, 0x5B, 0x4B] =
      some ⟨⟨z.before, List.replicate z.after.length blank⟩, .none⟩ := rfl

end Screen

end Vp2Motion.Line
