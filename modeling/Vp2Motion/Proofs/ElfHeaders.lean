import Vp2Motion.Firmware.Bootelf

namespace Vp2Motion.Proofs.ElfHeaders
open Memory Firmware

/-- The file as a memory that starts at address 0. -/
def contents (file : List Byte) : Store 32 := fun a => file.getD a.toNat 0

def fileEhdr (file : List Byte) : Ehdr := ehdr (contents file) 0

/-- Where the file has program header `i`. -/
def phdrOffset (file : List Byte) (i : ℕ) : BitVec 32 :=
  (fileEhdr file).phoff + (fileEhdr file).phentsize.setWidth 32 * BitVec.ofNat 32 i

def filePhdr (file : List Byte) (i : ℕ) : Phdr := phdr (contents file) (phdrOffset file i)

theorem ehdr_congr (h : Agree m a m' a' ehdrSize) : ehdr m a = ehdr m' a' := by
  have hident : ∀ j, j + 1 ≤ ehdrSize → m (a + BitVec.ofNat 32 j) = m' (a' + BitVec.ofNat 32 j) :=
    fun j hj => h j hj
  have hword : ∀ j, j + 4 ≤ ehdrSize →
      word m (a + BitVec.ofNat 32 j) = word m' (a' + BitVec.ofNat 32 j) :=
    fun j hj => (h.part hj).word (Nat.le_refl 4)
  have hhalf : ∀ j, j + 2 ≤ ehdrSize →
      half m (a + BitVec.ofNat 32 j) = half m' (a' + BitVec.ofNat 32 j) :=
    fun j hj => (h.part hj).half (Nat.le_refl 2)
  have h1 : m (a + 1) = m' (a' + 1) := hident 1 (by decide)
  have h2 : m (a + 2) = m' (a' + 2) := hident 2 (by decide)
  have h3 : m (a + 3) = m' (a' + 3) := hident 3 (by decide)
  have hentry : word m (a + 24) = word m' (a' + 24) := hword 24 (by decide)
  have hphoff : word m (a + 28) = word m' (a' + 28) := hword 28 (by decide)
  have hsize : half m (a + 42) = half m' (a' + 42) := hhalf 42 (by decide)
  have hnum : half m (a + 44) = half m' (a' + 44) := hhalf 44 (by decide)
  rw [ehdr, ehdr, h.first (by decide), h1, h2, h3, hentry, hphoff, hsize, hnum]

/-- The bytes of a program header that are used: not those of `p_paddr`, `p_flags` and
`p_align`. -/
def Used (k : ℕ) : Prop := k < 12 ∨ 16 ≤ k ∧ k < 24

theorem Used.lt (h : Used k) : k < phdrSize := by
  rw [Used] at h
  rw [phdrSize]
  omega

theorem phdr_congr (h : ∀ k, Used k → m (a + BitVec.ofNat 32 k) = m' (a' + BitVec.ofNat 32 k)) :
    phdr m a = phdr m' a' := by
  have hword : ∀ j, (∀ k < 4, Used (j + k)) →
      word m (a + BitVec.ofNat 32 j) = word m' (a' + BitVec.ofNat 32 j) := by
    intro j hj
    refine Agree.word (n := 4) ?_ (Nat.le_refl 4)
    intro k hk
    simpa only [BitVec.ofNat_add, ← BitVec.add_assoc] using h (j + k) (hj k hk)
  have htype : word m a = word m' a' := by
    simpa using hword 0 fun k hk => .inl (by omega)
  have hoffset : word m (a + 4) = word m' (a' + 4) := hword 4 fun k hk => .inl (by omega)
  have hvaddr : word m (a + 8) = word m' (a' + 8) := hword 8 fun k hk => .inl (by omega)
  have hfilesz : word m (a + 16) = word m' (a' + 16) := hword 16 fun k hk => .inr (by omega)
  have hmemsz : word m (a + 20) = word m' (a' + 20) := hword 20 fun k hk => .inr (by omega)
  rw [phdr, phdr, htype, hoffset, hvaddr, hfilesz, hmemsz]

/-- The first `n` bytes of the file stand in `buf`. -/
def Holds (file : List Byte) (buf : BitVec 32) (n : ℕ) (m : Store 32) : Prop :=
  Agree m buf (contents file) 0 n

theorem holds_put (mem : Store 32) (buf : BitVec 32) :
    Holds file buf (min mmcBlockSize file.length) (put mem buf (file.take mmcBlockSize)) := by
  intro k hk
  have hlt : k < 2 ^ 32 := by
    have : mmcBlockSize = 512 := rfl
    omega
  have hcontents : contents file (0 + BitVec.ofNat 32 k) = file.getD k 0 := by
    rw [contents, zero_add, BitVec.toNat_ofNat, Nat.mod_eq_of_lt hlt]
  have hblock : k < mmcBlockSize := Nat.lt_of_lt_of_le hk (Nat.min_le_left ..)
  rw [put_inside (by simpa using hk) hlt, hcontents]
  simp only [List.getD_eq_getElem?_getD, List.getElem?_take_of_lt hblock]

theorem ident_eq (h : Holds file buf n m) (hn : 4 ≤ n) (hmag : file.take 4 = elfmag) :
    (ehdr m buf).ident = elfmag := by
  have hfile : file = elfmag ++ file.drop 4 := by
    rw [← hmag, List.take_append_drop]
  have h1 : m (buf + 1) = contents file 1 := h 1 (by omega)
  have h2 : m (buf + 2) = contents file 2 := h 2 (by omega)
  have h3 : m (buf + 3) = contents file 3 := h 3 (by omega)
  have hident : (ehdr m buf).ident =
      [contents file 0, contents file 1, contents file 2, contents file 3] := by
    rw [← h1, ← h2, ← h3, ← h.first (by omega)]
    rfl
  rw [hident, hfile]
  rfl

/-- The headers of the file lie within the bytes that fit into `buf`. -/
structure HeadersIn (file : List Byte) : Prop where
  header : ehdrSize ≤ min mmcBlockSize file.length
  table : ∀ i, i < (fileEhdr file).phnum.toNat →
    (fileEhdr file).phoff.toNat + (fileEhdr file).phentsize.toNat * i + phdrSize ≤
      min mmcBlockSize file.length

/-- None of the `n` bytes from `a` on is in `buf`. -/
def Misses (buf a : BitVec 32) (n : ℕ) : Prop :=
  ∀ k, k < mmcBlockSize → n ≤ (buf + BitVec.ofNat 32 k - a).toNat

/-- A part of such a stretch, from offset `c` on. -/
theorem Misses.part {c : BitVec 32} (h : Misses buf a n) (hc : c.toNat + l ≤ n) :
    Misses buf (a + c) l := by
  intro k hk
  have hout := h k hk
  rw [sub_add_toNat (by omega)]
  omega

theorem Holds.put (h : Holds file buf n m) (hn : n ≤ mmcBlockSize)
    (hmisses : Misses buf a bytes.length) : Holds file buf n (put m a bytes) := by
  intro k hk
  rw [put_outside (hmisses k (Nat.lt_of_lt_of_le hk hn))]
  exact h k hk

theorem Holds.fill (h : Holds file buf n m) (hn : n ≤ mmcBlockSize) (hmisses : Misses buf a l) :
    Holds file buf n (fill m a b l) := by
  intro k hk
  rw [fill_outside (hmisses k (Nat.lt_of_lt_of_le hk hn))]
  exact h k hk

end Vp2Motion.Proofs.ElfHeaders
