import Vp2Motion.Firmware.Cmdline

namespace Vp2Motion.Proofs.HistoryRows
open CString Firmware Firmware.Cmdline

def texts (rows : Vector Row cmdlineHistorySize) : List (List UInt8) :=
  rows.toList.map fun row => text row.bytes

def Terminated (rows : Vector Row cmdlineHistorySize) : Prop :=
  ∀ row ∈ rows.toList, 0 ∈ row.bytes

theorem texts_length (rows : Vector Row cmdlineHistorySize) :
    (texts rows).length = cmdlineHistorySize := by
  simp [texts]

theorem row_eq (rows : Vector Row cmdlineHistorySize) (ht : Terminated rows)
    (hi : i < cmdlineHistorySize) :
    ∃ row, rows[i]? = some row ∧ 0 ∈ row.bytes ∧ (texts rows)[i]? = some (text row.bytes) := by
  refine ⟨rows[i], Vector.getElem?_eq_getElem hi, ?_, ?_⟩
  · exact ht _ (by simp)
  · simp [texts, hi]

theorem copy_row_eq (rows : Vector Row cmdlineHistorySize) (ht : Terminated rows)
    (hi : i < cmdlineHistorySize) (src : Row) (hs : 0 ∈ src.bytes) :
    ∃ rows', copyRow rows i src = some rows' ∧ Terminated rows' ∧
      texts rows' = (texts rows).set i (text src.bytes) := by
  obtain ⟨row, hrow, htext, hzero⟩ := rows[i].strcpy_row src hs
  refine ⟨rows.set i row, ?_, ?_, ?_⟩
  · simp [copyRow, hi, hrow]
  · intro q hq
    rw [Vector.toList_set] at hq
    rcases List.mem_or_eq_of_mem_set hq with hq | rfl
    · exact ht q hq
    · exact hzero
  · rw [texts, Vector.toList_set, List.map_set, htext, texts]

theorem shift_history_eq (rows : Vector Row cmdlineHistorySize) (ht : Terminated rows)
    (hi : i < cmdlineHistorySize) :
    ∃ rows', shiftHistory rows i = some rows' ∧ Terminated rows' ∧
      ∀ k, (texts rows')[k]? =
        if 1 ≤ k ∧ k ≤ i then (texts rows)[k - 1]? else (texts rows)[k]? := by
  induction i generalizing rows with
  | zero =>
    refine ⟨rows, rfl, ht, ?_⟩
    intro k
    rw [if_neg (by omega)]
  | succ i ih =>
    obtain ⟨src, hsrc, hzero, htext⟩ := row_eq rows ht (i := i) (by omega)
    obtain ⟨next, hnext, hterm, hset⟩ := copy_row_eq rows ht hi src hzero
    obtain ⟨last, hlast, hlterm, hspec⟩ := ih next hterm (by omega)
    refine ⟨last, ?_, hlterm, ?_⟩
    · simp [shiftHistory, hsrc, hnext, hlast]
    · intro k
      have hlen := texts_length rows
      rw [hspec, hset]
      grind

/-- Saving a line at slot `i` drops that entry and puts the line in front. -/
theorem replace_eq (rows : Vector Row cmdlineHistorySize) (ht : Terminated rows)
    (hi : i < cmdlineHistorySize) (src : Row) (hs : 0 ∈ src.bytes) :
    ∃ rows', (shiftHistory rows i).bind (fun rows => copyRow rows 0 src) = some rows' ∧
      Terminated rows' ∧ texts rows' = text src.bytes :: (texts rows).eraseIdx i := by
  obtain ⟨shifted, hshift, hterm, hspec⟩ := shift_history_eq rows ht hi
  obtain ⟨rows', hcopy, hterm', hset⟩ := copy_row_eq shifted hterm (i := 0) (by decide) src hs
  refine ⟨rows', by rw [hshift]; exact hcopy, hterm', ?_⟩
  have hlen := texts_length rows
  have hlen' := texts_length shifted
  rw [hset]
  apply List.ext_getElem?
  intro k
  cases k with
  | zero => simp [hlen', cmdlineHistorySize]
  | succ k =>
    rw [List.getElem?_set_ne (by omega), hspec, List.getElem?_cons_succ, List.getElem?_eraseIdx]
    by_cases hk : k < i
    · rw [if_pos (by omega), if_pos hk, Nat.add_sub_cancel]
    · rw [if_neg (by omega), if_neg hk]

/-- The first `cnt` rows are the history; the rows behind it have never been
used. -/
structure Remembers (rows : Vector Row cmdlineHistorySize) (cnt : ℕ) (h : List (List UInt8)) :
    Prop where
  terminated : Terminated rows
  rows : texts rows = h ++ List.replicate (cmdlineHistorySize - h.length) []
  cnt : cnt = h.length
  full : h.length ≤ cmdlineHistorySize
  entries : ∀ l ∈ h, l ≠ [] ∧ l.length ≤ cmdlineBufferSize - 2

namespace Remembers
variable {rows : Vector Row cmdlineHistorySize} {cnt : ℕ} {h : List (List UInt8)}

theorem replace (hr : Remembers rows cnt h) (hk : k < h.length) (src : Row) (hs : 0 ∈ src.bytes)
    (hne : text src.bytes ≠ []) (hle : (text src.bytes).length ≤ cmdlineBufferSize - 2) :
    ∃ rows', (shiftHistory rows k).bind (fun rows => copyRow rows 0 src) = some rows' ∧
      Remembers rows' cnt (text src.bytes :: h.eraseIdx k) := by
  have hfull := hr.full
  obtain ⟨rows', hrows, hterm, htexts⟩ := replace_eq rows hr.terminated (i := k) (by omega) src hs
  have hlen : (text src.bytes :: h.eraseIdx k).length = h.length := by
    rw [List.length_cons, List.length_eraseIdx, if_pos hk]
    omega
  refine ⟨rows', hrows, hterm, ?_, by rw [hlen, hr.cnt], by rw [hlen]; exact hfull, ?_⟩
  · rw [htexts, hr.rows, List.eraseIdx_append_of_lt_length hk, hlen, List.cons_append]
  · intro l hl
    rcases List.mem_cons.mp hl with rfl | hl
    · exact ⟨hne, hle⟩
    · exact hr.entries l (List.mem_of_mem_eraseIdx hl)

/-- A line in front of all entries, the oldest of ten being lost. -/
theorem push (hr : Remembers rows cnt h) (src : Row) (hs : 0 ∈ src.bytes)
    (hne : text src.bytes ≠ []) (hle : (text src.bytes).length ≤ cmdlineBufferSize - 2) :
    ∃ rows', (shiftHistory rows (min cnt (cmdlineHistorySize - 1))).bind
        (fun rows => copyRow rows 0 src) = some rows' ∧
      Remembers rows' (min cnt (cmdlineHistorySize - 1) + 1)
        ((text src.bytes :: h).take cmdlineHistorySize) := by
  have hfull := hr.full
  have hcnt := hr.cnt
  by_cases hten : h.length = cmdlineHistorySize
  · -- the oldest entry makes room
    have hmin : min cnt (cmdlineHistorySize - 1) = cmdlineHistorySize - 1 := by omega
    have htake : (text src.bytes :: h).take cmdlineHistorySize =
        text src.bytes :: h.eraseIdx (cmdlineHistorySize - 1) := by
      have hdrop : h.drop (cmdlineHistorySize - 1 + 1) = [] :=
        List.drop_eq_nil_of_le (Nat.le_of_eq hten)
      rw [List.eraseIdx_eq_take_drop_succ, hdrop, List.append_nil]
      rfl
    rw [hmin, htake, show cmdlineHistorySize - 1 + 1 = cnt by rw [hcnt, hten]; rfl]
    exact hr.replace (by rw [hten]; decide) src hs hne hle
  · have hmin : min cnt (cmdlineHistorySize - 1) = h.length := by omega
    have htake : (text src.bytes :: h).take cmdlineHistorySize = text src.bytes :: h :=
      List.take_of_length_le (by rw [List.length_cons]; omega)
    rw [hmin, htake]
    obtain ⟨rows', hrows, hterm, htexts⟩ := replace_eq rows hr.terminated (i := h.length) (by omega)
      src hs
    refine ⟨rows', hrows, hterm, ?_, by simp, by rw [List.length_cons]; omega, ?_⟩
    · rw [htexts, hr.rows, List.eraseIdx_append_of_length_le (Nat.le_refl _), Nat.sub_self,
        List.eraseIdx_replicate, if_pos (by omega), List.length_cons, Nat.sub_sub]
      rfl
    · intro l hl
      rcases List.mem_cons.mp hl with rfl | hl
      · exact ⟨hne, hle⟩
      · exact hr.entries l hl

end Remembers

end Vp2Motion.Proofs.HistoryRows
