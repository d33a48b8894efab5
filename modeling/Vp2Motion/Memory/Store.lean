import Mathlib.Tactic.Common
import Mathlib.Data.BitVec
import Mathlib.Data.List.GetD

namespace Vp2Motion.Memory

/-- Addresses are words and wrap around. -/
abbrev Store (w : ℕ) := BitVec w → BitVec 8

variable {w : ℕ}

/-- The bytes stored from `a` on. -/
def put (m : Store w) (a : BitVec w) (bytes : List (BitVec 8)) : Store w := fun x =>
  if (x - a).toNat < bytes.length then bytes.getD (x - a).toNat 0 else m x

/-- The byte `b` in `n` places from `a` on. -/
def fill (m : Store w) (a : BitVec w) (b : BitVec 8) (n : ℕ) : Store w := fun x =>
  if (x - a).toNat < n then b else m x

/-- Big-endian reads. -/
def half (m : Store w) (a : BitVec w) : BitVec 16 := m a ++ m (a + 1)
def word (m : Store w) (a : BitVec w) : BitVec 32 := m a ++ m (a + 1) ++ m (a + 2) ++ m (a + 3)

theorem put_outside {m : Store w} (h : bytes.length ≤ (x - a).toNat) : put m a bytes x = m x :=
  if_neg (Nat.not_lt.mpr h)

theorem fill_outside {m : Store w} (h : n ≤ (x - a).toNat) : fill m a b n x = m x :=
  if_neg (Nat.not_lt.mpr h)

theorem put_inside {m : Store w} {a : BitVec w} (h : k < bytes.length) (hk : k < 2 ^ w) :
    put m a bytes (a + BitVec.ofNat w k) = bytes.getD k 0 := by
  have hsub : (a + BitVec.ofNat w k - a).toNat = k := by
    rw [BitVec.add_comm, BitVec.add_sub_cancel, BitVec.toNat_ofNat, Nat.mod_eq_of_lt hk]
  rw [put, hsub, if_pos h]

/-- How far an address is from a base that has moved up to it. -/
theorem sub_add_toNat {x a c : BitVec w} (h : c.toNat ≤ (x - a).toNat) :
    (x - (a + c)).toNat = (x - a).toNat - c.toNat := by
  rw [sub_add_eq_sub_sub, BitVec.toNat_sub_of_le (BitVec.le_def.mpr h)]

/-- An address in a stretch that does not wrap around, and how far it is into it. -/
theorem sub_toNat_lt_iff {x a : BitVec w} (h : a.toNat + n ≤ 2 ^ w) :
    (x - a).toNat < n ↔ a.toNat ≤ x.toNat ∧ x.toNat < a.toNat + n := by
  have hx := x.isLt
  rw [BitVec.toNat_sub]
  rcases Nat.lt_or_ge x.toNat a.toNat with hlt | hge
  · rw [Nat.mod_eq_of_lt (by omega)]
    omega
  · rw [show 2 ^ w - a.toNat + x.toNat = x.toNat - a.toNat + 2 ^ w by omega,
      Nat.add_mod_right, Nat.mod_eq_of_lt (by omega)]
    omega

/-- Two stretches of `n` bytes with the same contents. -/
def Agree (m : Store w) (a : BitVec w) (m' : Store w) (a' : BitVec w) (n : ℕ) : Prop :=
  ∀ k, k < n → m (a + BitVec.ofNat w k) = m' (a' + BitVec.ofNat w k)

section Agree
variable {m m' : Store w} {a a' : BitVec w} {n : ℕ}

theorem Agree.part (h : Agree m a m' a' n) (hj : j + l ≤ n) :
    Agree m (a + BitVec.ofNat w j) m' (a' + BitVec.ofNat w j) l := by
  intro k hk
  have hjk := h (j + k) (by omega)
  simpa only [BitVec.ofNat_add, ← BitVec.add_assoc] using hjk

theorem Agree.first (h : Agree m a m' a' n) (hn : 0 < n) : m a = m' a' := by
  simpa using h 0 hn

theorem Agree.half (h : Agree m a m' a' n) (hn : 2 ≤ n) : half m a = half m' a' := by
  have h1 : m (a + 1) = m' (a' + 1) := h 1 (by omega)
  rw [Memory.half, Memory.half, h.first (by omega), h1]

theorem Agree.word (h : Agree m a m' a' n) (hn : 4 ≤ n) : word m a = word m' a' := by
  have h1 : m (a + 1) = m' (a' + 1) := h 1 (by omega)
  have h2 : m (a + 2) = m' (a' + 2) := h 2 (by omega)
  have h3 : m (a + 3) = m' (a' + 3) := h 3 (by omega)
  rw [Memory.word, Memory.word, h.first (by omega), h1, h2, h3]

end Agree

end Vp2Motion.Memory
