import Mathlib.Data.List.Basic
import Mathlib.Data.Int.Notation
import Mathlib.Order.Lattice

namespace Vp2Motion.Line

variable {χ : Type}

/-- A line with a cursor between its two halves. -/
structure Zipper (χ : Type) where
  before : List χ
  after : List χ

namespace Zipper

def empty : Zipper χ := ⟨[], []⟩

def whole (z : Zipper χ) : List χ := z.before ++ z.after

def insert (c : χ) (z : Zipper χ) : Zipper χ := ⟨z.before ++ [c], z.after⟩

def delete (z : Zipper χ) : Zipper χ := ⟨z.before.dropLast, z.after⟩

def right (z : Zipper χ) : Zipper χ :=
  match z.after with
  | [] => z
  | c :: cs => ⟨z.before ++ [c], cs⟩

def left (z : Zipper χ) : Zipper χ :=
  match z.before.getLast? with
  | none => z
  | some c => ⟨z.before.dropLast, c :: z.after⟩

@[simp] theorem whole_right (z : Zipper χ) : z.right.whole = z.whole := by
  unfold right
  split
  · rfl
  · rename_i c cs h
    simp [whole, h]

@[simp] theorem whole_left (z : Zipper χ) : z.left.whole = z.whole := by
  unfold left
  split
  · rfl
  · rename_i c h
    obtain ⟨cs, hcs⟩ := List.getLast?_eq_some_iff.mp h
    simp [whole, hcs]

end Zipper

inductive Key (χ : Type) where
  | insert (c : χ)
  | delete
  | right
  | left
  | older
  | newer
  | submit
  | other

/-- Where the line comes from: typed in part, recalled from the history, or
recalled and then only deleted from. -/
inductive Origin where
  | typed
  | recalled
  | trimmed
deriving DecidableEq

/-- An editor for lines of at most `capacity` characters and `size` entries.
`replaces` tells which lines take the place of the entry they came from when
they are submitted; any other line is a new entry. -/
structure Rules where
  capacity : ℕ
  size : ℕ
  replaces : Origin → Bool

structure Editor (χ : Type) where
  line : Zipper χ
  history : List (List χ)
  idx : ℤ
  origin : Origin

namespace Editor

def initial : Editor χ := ⟨.empty, [], -1, .typed⟩

/-- The history after a line has been submitted, most recent entry first. -/
def saved (rules : Rules) (e : Editor χ) : List (List χ) :=
  if e.line.whole = [] then e.history
  else if rules.replaces e.origin then e.line.whole :: e.history.eraseIdx e.idx.toNat
  else (e.line.whole :: e.history).take rules.size

/-- Replace the line by the entry at `idx`, moved into the range of the history. -/
def select (idx : ℤ) (e : Editor χ) : Editor χ :=
  let k := max 0 (min idx (e.history.length - 1))
  { e with line := ⟨e.history.getD k.toNat [], []⟩, idx := k, origin := .recalled }

def step (rules : Rules) (key : Key χ) (e : Editor χ) : Editor χ :=
  match key with
  | .insert c =>
    if e.line.whole.length < rules.capacity then
      { e with line := e.line.insert c, origin := .typed }
    else e
  | .delete =>
    if e.line.before = [] then e
    else
      { e with
        line := e.line.delete
        origin := if e.origin = .typed then .typed else .trimmed }
  | .right => { e with line := e.line.right }
  | .left => { e with line := e.line.left }
  | .older => e.select (e.idx + 1)
  | .newer => e.select (e.idx - 1)
  | .submit => { line := .empty, history := e.saved rules, idx := -1, origin := .typed }
  | .other => e

end Editor

end Vp2Motion.Line
