import Mathlib.Data.List.GetD
import Mathlib.Data.List.TakeWhile

namespace Vp2Motion.CString

variable {χ : Type} [DecidableEq χ] {sep prev c : χ} {line word rest : List χ}

def firstWord (sep : χ) (line : List χ) : List χ := line.takeWhile (· ≠ sep)

/-- The places of a line where a word begins, if `prev` stands before the line: those
of a character right behind a separator that is none itself. -/
def startsAfter (sep prev : χ) (cs : List χ) : List ℕ :=
  (List.range cs.length).filter fun i => cs[i]? ≠ some sep ∧ (prev :: cs)[i]? = some sep

def wordStarts (sep : χ) (line : List χ) : List ℕ := startsAfter sep sep line

/-- Where word `n` begins, or the end of a line with fewer words. -/
def wordStart (sep : χ) (line : List χ) (n : ℕ) : ℕ := (wordStarts sep line).getD n line.length

theorem first_word_length_le (sep : χ) (line : List χ) :
    (firstWord sep line).length ≤ line.length :=
  (List.takeWhile_sublist _).length_le

theorem starts_after_cons (sep prev c : χ) (line : List χ) :
    startsAfter sep prev (c :: line) =
      (if c ≠ sep ∧ prev = sep then [0] else []) ++ (startsAfter sep c line).map (· + 1) := by
  have htail : ((List.range line.length).map Nat.succ).filter (fun i =>
      (c :: line)[i]? ≠ some sep ∧ (prev :: c :: line)[i]? = some sep) =
        (startsAfter sep c line).map (· + 1) := by
    rw [List.filter_map]
    rfl
  rw [startsAfter, List.length_cons, List.range_succ_eq_map, List.filter_cons, htail]
  simp only [List.getElem?_cons_zero, Option.some.injEq, decide_eq_true_eq, ne_eq]
  split <;> rfl

/-- Within a word no other begins; at its end it does not matter what was before. -/
theorem starts_after_word (hprev : prev ≠ sep) (hword : sep ∉ word)
    (hrest : rest.head?.getD sep = sep) :
    startsAfter sep prev (word ++ rest) = (wordStarts sep rest).map (· + word.length) := by
  induction word generalizing prev with
  | nil =>
    cases rest with
    | nil => rfl
    | cons c rest =>
      have hc : c = sep := hrest
      simp [wordStarts, starts_after_cons, hc]
  | cons c word ih =>
    obtain ⟨hc, hword⟩ := not_or.mp (mt List.mem_cons.mpr hword)
    rw [List.cons_append, starts_after_cons, ih (Ne.symm hc) hword, if_neg (fun h => hprev h.2),
      List.nil_append, List.map_map]
    refine List.map_congr_left fun i _ => ?_
    simp only [Function.comp_apply, List.length_cons]
    omega

theorem word_starts_word (hne : word ≠ []) (hword : sep ∉ word)
    (hrest : rest.head?.getD sep = sep) :
    wordStarts sep (word ++ rest) = 0 :: (wordStarts sep rest).map (· + word.length) := by
  cases word with
  | nil => exact absurd rfl hne
  | cons c word =>
    obtain ⟨hc, hword⟩ := not_or.mp (mt List.mem_cons.mpr hword)
    rw [wordStarts, List.cons_append, starts_after_cons, if_pos ⟨Ne.symm hc, rfl⟩,
      starts_after_word (Ne.symm hc) hword hrest, List.map_map]
    simp [Function.comp_def, Nat.add_assoc]

theorem word_starts_separators (k : ℕ) (rest : List χ) :
    wordStarts sep (List.replicate k sep ++ rest) = (wordStarts sep rest).map (· + k) := by
  induction k with
  | zero => simp
  | succ k ih =>
    rw [wordStarts] at ih
    rw [wordStarts, List.replicate_succ, List.cons_append, starts_after_cons, ih]
    simp [Function.comp_def, Nat.add_assoc]

/-- Separators in front only move the words. -/
theorem word_start_skip (sep : χ) (line : List χ) (n : ℕ) :
    wordStart sep line n =
      (line.takeWhile (· = sep)).length + wordStart sep (line.dropWhile (· = sep)) n := by
  have hfront : line.takeWhile (· = sep) =
      List.replicate (line.takeWhile (· = sep)).length sep := by
    refine List.eq_replicate_of_mem fun c hc => ?_
    simpa using List.mem_takeWhile_imp hc
  have hline : line = List.replicate (line.takeWhile (· = sep)).length sep ++
      line.dropWhile (· = sep) := by
    rw [← hfront, List.takeWhile_append_dropWhile]
  generalize (line.takeWhile (· = sep)).length = k at hline
  generalize line.dropWhile (· = sep) = rest at hline
  subst hline
  rw [wordStart, word_starts_separators, List.length_append, List.length_replicate,
    Nat.add_comm k rest.length, Nat.add_comm k (wordStart sep rest n)]
  exact List.getD_map _ _ (· + k)

/-- The words behind the first. -/
theorem word_start_next (hhead : line.head? ≠ some sep) (n : ℕ) :
    wordStart sep line (n + 1) =
      (line.takeWhile (· ≠ sep)).length + wordStart sep (line.dropWhile (· ≠ sep)) n := by
  cases hnil : line with
  | nil => rfl
  | cons c cs =>
    have hc : c ≠ sep := fun h => hhead (by rw [hnil, h]; rfl)
    rw [← hnil]
    have hne : line.takeWhile (· ≠ sep) ≠ [] := by
      rw [hnil, List.takeWhile_cons_of_pos (by simpa using hc)]
      exact List.cons_ne_nil _ _
    have hword : sep ∉ line.takeWhile (· ≠ sep) := by
      intro hmem
      simpa using List.mem_takeWhile_imp hmem
    have hrest : (line.dropWhile (· ≠ sep)).head?.getD sep = sep := by
      have hstop := List.head?_dropWhile_not (· ≠ sep) line
      cases hdrop : (line.dropWhile (· ≠ sep)).head? with
      | none => rfl
      | some d =>
        rw [hdrop] at hstop
        simpa using hstop
    have hline : line = line.takeWhile (· ≠ sep) ++ line.dropWhile (· ≠ sep) :=
      List.takeWhile_append_dropWhile.symm
    generalize line.takeWhile (· ≠ sep) = word at hne hword hline
    generalize line.dropWhile (· ≠ sep) = rest at hrest hline
    rw [hline, wordStart, word_starts_word hne hword hrest, List.getD_cons_succ,
      List.length_append, Nat.add_comm word.length rest.length,
      Nat.add_comm word.length (wordStart sep rest n)]
    exact List.getD_map _ _ (· + word.length)

theorem word_start_zero (hhead : line.head? ≠ some sep) : wordStart sep line 0 = 0 := by
  cases line with
  | nil => rfl
  | cons c line =>
    have hc : c ≠ sep := fun h => hhead (congrArg some h)
    rw [wordStart, wordStarts, starts_after_cons, if_pos ⟨hc, rfl⟩]
    rfl

end Vp2Motion.CString
