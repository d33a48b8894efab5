import Vp2Motion.Firmware.Cmdline
import Vp2Motion.Line.Editor

namespace Vp2Motion.Proofs.LineBuffer
open CString Firmware Firmware.Cmdline Line

theorem shift_up_eq (a : Row) (pos i : ℕ) (hi : i < cmdlineBufferSize) :
    ∃ b, shiftUp pos a i = some b ∧
      ∀ k, b.bytes[k]? = if pos < k ∧ k ≤ i then a.bytes[k - 1]? else a.bytes[k]? := by
  induction i generalizing a with
  | zero =>
    refine ⟨a, rfl, ?_⟩
    intro k
    rw [if_neg (by omega)]
  | succ i ih =>
    by_cases hp : pos < i + 1
    · obtain ⟨c, hget, hc⟩ := a.get_eq (i := i) (by omega)
      obtain ⟨b, hset, hb⟩ := a.set_eq hi c
      obtain ⟨b', hb', hspec⟩ := ih b (by omega)
      refine ⟨b', ?_, ?_⟩
      · simp [shiftUp, hp, hget, hset, hb']
      · intro k
        have hsize := a.size
        rw [hspec, hb]
        grind
    · refine ⟨a, by simp [shiftUp, hp], ?_⟩
      intro k
      rw [if_neg (by omega)]

theorem shift_down_eq (a : Row) (i left : ℕ) (hi : i + left < cmdlineBufferSize) :
    ∃ b, shiftDown a i left = some b ∧
      ∀ k, b.bytes[k]? = if i ≤ k ∧ k < i + left then a.bytes[k + 1]? else a.bytes[k]? := by
  induction left generalizing a i with
  | zero =>
    refine ⟨a, rfl, ?_⟩
    intro k
    rw [if_neg (by omega)]
  | succ left ih =>
    obtain ⟨c, hget, hc⟩ := a.get_eq (i := i + 1) (by omega)
    obtain ⟨b, hset, hb⟩ := a.set_eq (i := i) (by omega) c
    obtain ⟨b', hb', hspec⟩ := ih b (i + 1) (by omega)
    refine ⟨b', ?_, ?_⟩
    · simp [shiftDown, hget, hset, hb']
    · intro k
      have hsize := a.size
      rw [hspec, hb]
      grind

/-- The first `length` bytes are the line, with the cursor at `pos`. -/
structure Shows (a : Row) (length pos : ℕ) (z : Zipper UInt8) : Prop where
  text : a.bytes.take length = z.whole
  length : length = z.whole.length
  pos : pos = z.before.length
  short : z.whole.length ≤ cmdlineBufferSize - 2
  plain : 0 ∉ z.whole

namespace Shows
variable {a : Row} {length pos : ℕ} {z : Zipper UInt8}

theorem pos_le (h : Shows a length pos z) : pos ≤ length := by
  rw [h.pos, h.length, Zipper.whole, List.length_append]
  omega

theorem length_le (h : Shows a length pos z) : length ≤ cmdlineBufferSize - 2 := by
  rw [h.length]
  exact h.short

theorem get (h : Shows a length pos z) (hk : k < length) : a.bytes[k]? = z.whole[k]? := by
  rw [← h.text, List.getElem?_take_of_lt hk]

theorem of_get {b : Row} (hz : z.whole.length ≤ cmdlineBufferSize - 2) (hp : 0 ∉ z.whole)
    (hk : ∀ k, k < z.whole.length → b.bytes[k]? = z.whole[k]?) :
    Shows b z.whole.length z.before.length z := by
  refine ⟨?_, rfl, rfl, hz, hp⟩
  apply List.ext_getElem?
  intro k
  by_cases hlt : k < z.whole.length
  · rw [List.getElem?_take_of_lt hlt, hk k hlt]
  · rw [List.getElem?_take, if_neg hlt, List.getElem?_eq_none (by omega)]

/-- A byte at the cursor, with everything behind it moved up by one. -/
theorem inserted {b : Row} (h : Shows a length pos z) (hlt : length < cmdlineBufferSize - 2)
    (hc : c ≠ 0)
    (hb : ∀ k, k ≤ length → b.bytes[k]? =
      if k = pos then some c else if pos < k then a.bytes[k - 1]? else a.bytes[k]?) :
    Shows b (u8 (length + 1)) (u8 (pos + 1)) (z.insert c) := by
  have hle := h.pos_le
  have hwhole : z.whole = z.before ++ z.after := rfl
  have hpos := h.pos
  have hlen : length = (z.before ++ z.after).length := h.length
  have hu8 : u8 (length + 1) = (z.insert c).whole.length ∧
      u8 (pos + 1) = (z.insert c).before.length := by
    simp only [u8, cmdlineBufferSize, Zipper.whole, Zipper.insert, List.length_append,
      List.length_singleton] at hlt hlen ⊢
    omega
  rw [hu8.1, hu8.2]
  apply of_get
  · simp only [Zipper.whole, Zipper.insert, List.length_append, List.length_singleton] at hlen ⊢
    omega
  · have hplain := h.plain
    simp only [Zipper.whole, Zipper.insert, List.mem_append, List.mem_singleton] at hplain ⊢
    tauto
  · intro k hk
    simp only [Zipper.whole, Zipper.insert, List.length_append, List.length_singleton] at hk hlen ⊢
    rw [hb k (by omega)]
    rcases Nat.lt_trichotomy k pos with hl | rfl | hg
    · rw [if_neg (by omega), if_neg (by omega), h.get (by omega), hwhole]
      grind
    · rw [if_pos rfl]
      grind
    · rw [if_neg (by omega), if_pos hg, h.get (by omega), hwhole]
      grind

theorem append (h : Shows a length pos z) (hend : pos = length)
    (hlt : length < cmdlineBufferSize - 2) (hc : c ≠ 0) :
    ∃ b, a.set pos c = some b ∧ Shows b (u8 (length + 1)) (u8 (pos + 1)) (z.insert c) := by
  obtain ⟨b, hb, hset⟩ := a.set_eq (i := pos) (by omega) c
  refine ⟨b, hb, h.inserted hlt hc ?_⟩
  intro k hk
  have hsize := a.size
  rw [hset, List.getElem?_set]
  by_cases he : k = pos
  · rw [if_pos he.symm, if_pos he, if_pos (by omega)]
  · rw [if_neg (Ne.symm he), if_neg he, if_neg (by omega)]

theorem insert (h : Shows a length pos z) (hlt : length < cmdlineBufferSize - 2) (hc : c ≠ 0) :
    ∃ b b', shiftUp pos a (u8 (length + 1)) = some b ∧ b.set pos c = some b' ∧
      Shows b' (u8 (length + 1)) (u8 (pos + 1)) (z.insert c) := by
  have hle := h.pos_le
  have hu8 : u8 (length + 1) = length + 1 := u8_eq (by simp only [cmdlineBufferSize] at hlt; omega)
  obtain ⟨b, hb, hspec⟩ := shift_up_eq a pos (length + 1) (by omega)
  obtain ⟨b', hb', hset⟩ := b.set_eq (i := pos) (by omega) c
  refine ⟨b, b', by rw [hu8]; exact hb, hb', h.inserted hlt hc ?_⟩
  intro k hk
  have hsize := b.size
  rw [hset, List.getElem?_set, hspec]
  by_cases he : k = pos
  · rw [if_pos he.symm, if_pos he, if_pos (by omega)]
  · rw [if_neg (Ne.symm he), if_neg he]
    by_cases hp : pos < k
    · rw [if_pos ⟨hp, by omega⟩, if_pos hp]
    · rw [if_neg (fun hand => hp hand.1), if_neg hp]

/-- Everything behind the cursor moves down by one. -/
theorem deleted {b : Row} (h : Shows a length pos z) (hp : 0 < pos)
    (hb : ∀ k, k + 1 < length → b.bytes[k]? =
      if pos - 1 ≤ k then a.bytes[k + 1]? else a.bytes[k]?) :
    Shows b (u8 (length + 255)) (u8 (pos + 255)) z.delete := by
  have hle := h.pos_le
  have hshort := h.length_le
  have hwhole : z.whole = z.before ++ z.after := rfl
  have hpos := h.pos
  have hlen : length = (z.before ++ z.after).length := h.length
  have hu8 : u8 (length + 255) = z.delete.whole.length ∧
      u8 (pos + 255) = z.delete.before.length := by
    simp only [u8, cmdlineBufferSize, Zipper.whole, Zipper.delete, List.length_append,
      List.length_dropLast] at hshort hlen ⊢
    omega
  rw [hu8.1, hu8.2]
  apply of_get
  · simp only [Zipper.whole, Zipper.delete, List.length_append, List.length_dropLast] at hlen ⊢
    omega
  · have hplain := h.plain
    simp only [Zipper.whole, Zipper.delete, List.mem_append, not_or] at hplain ⊢
    exact ⟨fun hm => hplain.1 (List.dropLast_subset _ hm), hplain.2⟩
  · intro k hk
    simp only [Zipper.whole, Zipper.delete, List.length_append, List.length_dropLast] at hk hlen ⊢
    rw [hb k (by omega)]
    by_cases hk' : pos - 1 ≤ k
    · rw [if_pos hk', h.get (by omega), hwhole]
      grind
    · rw [if_neg hk', h.get (by omega), hwhole]
      grind

theorem truncate (h : Shows a length pos z) (hend : pos = length) (hp : 0 < pos) :
    Shows a (u8 (length + 255)) (u8 (pos + 255)) z.delete := by
  apply h.deleted hp
  intro k hk
  rw [if_neg (by omega)]

theorem delete (h : Shows a length pos z) (hp : 0 < pos) :
    ∃ b, shiftDown a (u8 (pos + 255)) (u8 (length + 255) - u8 (pos + 255)) = some b ∧
      Shows b (u8 (length + 255)) (u8 (pos + 255)) z.delete := by
  have hle := h.pos_le
  have hshort := h.length_le
  have hu8 : u8 (length + 255) = length - 1 ∧ u8 (pos + 255) = pos - 1 := by
    simp only [u8, cmdlineBufferSize] at hshort ⊢
    omega
  obtain ⟨b, hb, hspec⟩ := shift_down_eq a (pos - 1) (length - 1 - (pos - 1)) (by omega)
  refine ⟨b, by rw [hu8.1, hu8.2]; exact hb, h.deleted hp ?_⟩
  intro k hk
  rw [hspec]
  by_cases hk' : pos - 1 ≤ k
  · rw [if_pos ⟨hk', by omega⟩, if_pos hk']
  · rw [if_neg (fun hand => hk' hand.1), if_neg hk']

/-- A C string in the buffer, with the cursor behind it. -/
theorem of_text (hz : 0 ∈ a.bytes) (hl : (CString.text a.bytes).length ≤ cmdlineBufferSize - 2) :
    Shows a (u8 (CString.text a.bytes).length) (u8 (CString.text a.bytes).length)
      ⟨CString.text a.bytes, []⟩ := by
  have hu8 : u8 (CString.text a.bytes).length = (CString.text a.bytes).length :=
    u8_eq (by simp only [cmdlineBufferSize] at hl; omega)
  have hwhole : (⟨CString.text a.bytes, []⟩ : Zipper UInt8).whole = CString.text a.bytes := by
    rw [Zipper.whole, List.append_nil]
  refine ⟨?_, by rw [hu8, hwhole], hu8, by rw [hwhole]; exact hl, ?_⟩
  · obtain ⟨rest, hrest⟩ := exists_of_mem hz
    rw [hu8, hwhole]
    conv_lhs => rw [hrest, List.take_left' (by rw [← hrest])]
  · rw [hwhole]
    exact text_not_mem _

theorem moved {z' : Zipper UInt8} (h : Shows a length pos z) (hw : z'.whole = z.whole)
    (hp : pos' = z'.before.length) : Shows a length pos' z' :=
  ⟨by rw [hw, h.text], by rw [hw, h.length], hp, by rw [hw]; exact h.short,
    by rw [hw]; exact h.plain⟩

theorem right (h : Shows a length pos z) :
    Shows a length (if pos < length then u8 (pos + 1) else pos) z.right := by
  apply h.moved z.whole_right
  have hlen := h.length
  have hpos := h.pos
  have hshort := h.length_le
  simp only [Zipper.whole, List.length_append, cmdlineBufferSize] at hlen hshort
  cases ha : z.after with
  | nil =>
    rw [ha, List.length_nil] at hlen
    simp only [Zipper.right, ha]
    rw [if_neg (by omega), hpos]
  | cons c cs =>
    rw [ha, List.length_cons] at hlen
    simp only [Zipper.right, ha]
    rw [if_pos (by omega), u8, List.length_append, List.length_singleton]
    omega

theorem left (h : Shows a length pos z) :
    Shows a length (if pos ≠ 0 then u8 (pos + 255) else pos) z.left := by
  apply h.moved z.whole_left
  have hpos := h.pos
  have hle := h.pos_le
  have hshort := h.length_le
  simp only [cmdlineBufferSize] at hshort
  cases hb : z.before.getLast? with
  | none =>
    simp only [Zipper.left, hb]
    rw [List.getLast?_eq_none_iff] at hb
    rw [hb, List.length_nil] at hpos
    rw [if_neg (by omega), hb, List.length_nil, hpos]
  | some c =>
    simp only [Zipper.left, hb]
    obtain ⟨cs, hcs⟩ := List.getLast?_eq_some_iff.mp hb
    rw [hcs, List.length_append, List.length_singleton] at hpos
    rw [if_pos (by omega), u8, hcs, List.dropLast_concat]
    omega

/-- The zero of a carriage return ends the line. -/
theorem terminate (h : Shows a length pos z) :
    ∃ b, a.set length 0 = some b ∧ CString.text b.bytes = z.whole ∧ 0 ∈ b.bytes := by
  have hle := h.length_le
  obtain ⟨b, hb, hset⟩ := a.set_eq (i := length) (by simp only [cmdlineBufferSize] at hle ⊢; omega) 0
  have hlt : length < a.bytes.length := by
    rw [a.size]
    simp only [cmdlineBufferSize] at hle ⊢
    omega
  have hsplit : b.bytes = z.whole ++ 0 :: a.bytes.drop (length + 1) := by
    rw [hset, List.set_eq_take_append_cons_drop, if_pos hlt, h.text]
  refine ⟨b, hb, ?_, ?_⟩
  · rw [hsplit]
    exact text_append h.plain
  · rw [hsplit]
    simp

end Shows

end Vp2Motion.Proofs.LineBuffer
