import Mathlib.Data.List.Chain
import Mathlib.Algebra.BigOperators.Group.List.Basic
import Mathlib.Tactic.Ring

namespace Vp2Motion.Storage

variable {α β : Type}

section Blocks
variable {f : α → List β} {b : ℕ} {l : List α}

theorem flat_map_length (h : ∀ x ∈ l, (f x).length = b) : (l.flatMap f).length = l.length * b := by
  rw [List.length_flatMap, List.map_congr_left h]
  simp

theorem drop_flat_map (h : ∀ x ∈ l, (f x).length = b) (i : ℕ) :
    (l.flatMap f).drop (i * b) = (l.drop i).flatMap f := by
  induction i generalizing l with
  | zero => simp
  | succ i ih =>
    cases l with
    | nil => simp
    | cons x l =>
      have hx := h x (List.mem_cons_self ..)
      rw [List.flatMap_cons, List.drop_succ_cons, ← ih fun y hy => h y (List.mem_cons_of_mem _ hy),
        show (i + 1) * b = (f x).length + i * b by rw [hx]; ring, ← List.drop_drop, List.drop_left]

/-- A stretch within one block. -/
theorem within_block (h : ∀ x ∈ l, (f x).length = b) (hi : i < l.length) (hr : r + n ≤ b) :
    ((l.flatMap f).drop (i * b + r)).take n = ((f l[i]).drop r).take n := by
  have hb := h l[i] (List.getElem_mem hi)
  rw [← List.drop_drop, drop_flat_map h, List.drop_eq_getElem_cons hi, List.flatMap_cons,
    List.drop_append_of_le_length (by omega), List.take_append_of_le_length (by simp; omega)]

/-- A stretch of whole blocks. -/
theorem whole_blocks (h : ∀ x ∈ l, (f x).length = b) (i m : ℕ) :
    ((l.flatMap f).drop (i * b)).take (m * b) = ((l.drop i).take m).flatMap f := by
  rw [drop_flat_map h]
  induction m generalizing i with
  | zero => simp
  | succ m ih =>
    rcases Nat.lt_or_ge i l.length with hi | hi
    · rw [List.drop_eq_getElem_cons hi, List.flatMap_cons, List.take_succ_cons, List.flatMap_cons,
        ← ih (i + 1), show (m + 1) * b = (f l[i]).length + m * b by
          rw [h l[i] (List.getElem_mem hi)]; ring, List.take_length_add_append]
    · rw [List.drop_of_length_le hi]
      simp

end Blocks

/-- The bytes of `n` sectors from `first` on. -/
def sectors (image : ℕ → List β) (first n : ℕ) : List β :=
  (List.range n).flatMap fun k => image (first + k)

/-- The bytes of a list of clusters with `per` sectors each, the first of which is given
by `base`. -/
def contents (image : ℕ → List β) (base : ℕ → ℕ) (per : ℕ) (clusters : List ℕ) : List β :=
  clusters.flatMap fun c => sectors image (base c) per

section Contents
variable {image : ℕ → List β} {base : ℕ → ℕ} {per b : ℕ} {clusters : List ℕ}

theorem sectors_length (hsize : ∀ k, (image k).length = b) (first n : ℕ) :
    (sectors image first n).length = n * b := by
  rw [sectors, flat_map_length fun k _ => hsize (first + k), List.length_range]

theorem contents_length (hsize : ∀ k, (image k).length = b) (clusters : List ℕ) :
    (contents image base per clusters).length = clusters.length * (per * b) :=
  flat_map_length fun c _ => sectors_length hsize (base c) per

theorem sectors_succ (image : ℕ → List β) (first n : ℕ) :
    sectors image first (n + 1) = image first ++ sectors image (first + 1) n := by
  simp only [sectors, List.range_succ_eq_map, List.flatMap_cons, List.flatMap_map, Nat.add_zero]
  refine congrArg (image first ++ ·) (List.flatMap_congr fun k _ => ?_)
  rw [Nat.succ_eq_add_one, Nat.add_right_comm, Nat.add_assoc]

theorem sectors_one (image : ℕ → List β) (first : ℕ) : sectors image first 1 = image first := by
  simp [sectors]

/-- A stretch within sector `k` of cluster `i`. -/
theorem part_of_sector (hsize : ∀ k, (image k).length = b) (hi : i < clusters.length)
    (hk : k < per) (hr : r + n ≤ b) :
    ((contents image base per clusters).drop ((i * per + k) * b + r)).take n =
      ((image (base clusters[i] + k)).drop r).take n := by
  have hfit : k * b + r + n ≤ per * b := by
    have hle : (k + 1) * b ≤ per * b := Nat.mul_le_mul_right b hk
    rw [Nat.add_mul] at hle
    omega
  rw [contents, show (i * per + k) * b + r = i * (per * b) + (k * b + r) by ring,
    within_block (fun c _ => sectors_length hsize (base c) per) hi hfit, sectors,
    within_block (fun q _ => hsize (base clusters[i] + q)) (by rwa [List.length_range]) hr,
    List.getElem_range]

/-- `m` whole sectors from sector `k` of cluster `i` on. -/
theorem run_of_sectors (hsize : ∀ k, (image k).length = b) (hi : i < clusters.length)
    (hk : k + m ≤ per) :
    ((contents image base per clusters).drop ((i * per + k) * b)).take (m * b) =
      sectors image (base clusters[i] + k) m := by
  have hfit : k * b + m * b ≤ per * b := by
    rw [← Nat.add_mul]
    exact Nat.mul_le_mul_right b hk
  have hrange : ((List.range per).drop k).take m = (List.range m).map (k + ·) := by
    apply List.ext_getElem
    · simp
      omega
    · intro q _ _
      simp
  rw [contents, show (i * per + k) * b = i * (per * b) + k * b by ring,
    within_block (fun c _ => sectors_length hsize (base c) per) hi hfit, sectors,
    whole_blocks (fun q _ => hsize (base clusters[i] + q)), hrange, List.flatMap_map, sectors]
  simp only [Nat.add_assoc]

end Contents

/-- The cluster, the sector in it and the byte in that. -/
theorem position_eq (per b p : ℕ) : (p / (per * b) * per + p / b % per) * b + p % b = p := by
  rw [Nat.mul_comm per b, ← Nat.div_div_eq_div_mul, Nat.div_add_mod', Nat.div_add_mod']

theorem div_eq_of_within {q b p : ℕ} (hlow : q * b ≤ p) (hhigh : p < (q + 1) * b) : p / b = q :=
  Nat.div_eq_of_lt_le hlow hhigh

/-- The block that ends at `p` or has it inside. -/
theorem pred_div_eq {q b p : ℕ} (hlow : q * b < p) (hhigh : p ≤ (q + 1) * b) :
    (p - 1) / b = q :=
  div_eq_of_within (by omega) (by omega)

theorem within_div {b : ℕ} (hb : 0 < b) (p : ℕ) : p / b * b ≤ p ∧ p < (p / b + 1) * b :=
  ⟨Nat.div_mul_le_self p b, Nat.lt_mul_of_div_lt (Nat.lt_succ_self _) hb⟩

end Vp2Motion.Storage
