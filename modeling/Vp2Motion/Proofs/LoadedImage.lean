import Vp2Motion.Proofs.Bootelf

namespace Vp2Motion.Proofs.LoadedImage
open Memory Firmware ElfHeaders LoaderSteps SegmentLoop

/-- The first `n` bytes of a segment at its address. -/
def copied (file : List Byte) (p : Phdr) (n : ℕ) (m : Store 32) : Store 32 := fun a =>
  if p.vaddr.toNat ≤ a.toNat ∧ a.toNat < p.vaddr.toNat + n then
    file.getD (p.offset.toNat + (a.toNat - p.vaddr.toNat)) 0
  else m a

/-- All bytes that the file has of a segment, and zeros behind them. -/
def placed (file : List Byte) (p : Phdr) (m : Store 32) : Store 32 := fun a =>
  if p.vaddr.toNat + p.filesz.toNat ≤ a.toNat ∧ a.toNat < p.vaddr.toNat + p.memsz.toNat then 0
  else copied file p p.filesz.toNat m a

/-- The segments of the first `n` program headers, one over the other. -/
def image (file : List Byte) : ℕ → Store 32 → Store 32
  | 0, m => m
  | n + 1, m =>
    if (filePhdr file n).type = 1 then placed file (filePhdr file n) (image file n m)
    else image file n m

/-- `a` is in no part of a segment. -/
def Beside (p : Phdr) (a : BitVec 32) : Prop :=
  a.toNat < p.vaddr.toNat ∨ p.vaddr.toNat + max p.filesz.toNat p.memsz.toNat ≤ a.toNat

/-- An image that can be loaded by a program whose own data is at `own`. -/
structure WellFormed (file : List Byte) (own : BitVec 32 → Prop) : Prop where
  magic : file.take 4 = elfmag
  headers : HeadersIn file
  inside : ∀ i, i < (fileEhdr file).phnum.toNat → (filePhdr file i).type = 1 →
    0 < (filePhdr file i).filesz.toNat →
    (filePhdr file i).offset.toNat + (filePhdr file i).filesz.toNat ≤ file.length
  size : ∀ i, i < (fileEhdr file).phnum.toNat → (filePhdr file i).type = 1 →
    (filePhdr file i).filesz.toNat < 2 ^ 31
  unwrapped : ∀ i, i < (fileEhdr file).phnum.toNat → (filePhdr file i).type = 1 →
    (filePhdr file i).vaddr.toNat +
      max (filePhdr file i).filesz.toNat (filePhdr file i).memsz.toNat ≤ 2 ^ 32
  apart : ∀ i, i < (fileEhdr file).phnum.toNat → (filePhdr file i).type = 1 →
    ∀ a, own a → Beside (filePhdr file i) a

/-- Whether an address is loaded, and with what, does not depend on the memory before. -/
theorem image_congr {m m' : Store 32} (n : ℕ) (h : m a = m' a) :
    image file n m a = image file n m' a := by
  induction n with
  | zero => exact h
  | succ n ih =>
    simp only [image]
    split
    · simp only [placed, copied, ih]
    · exact ih

theorem placed_beside {p : Phdr} {m : Store 32} (h : Beside p a) : placed file p m a = m a := by
  rw [Beside] at h
  rw [placed, if_neg (by omega), copied, if_neg (by omega)]

theorem image_beside {m : Store 32} {n : ℕ}
    (h : ∀ i, i < n → (filePhdr file i).type = 1 → Beside (filePhdr file i) a) :
    image file n m a = m a := by
  induction n with
  | zero => rfl
  | succ n ih =>
    have hbefore := ih fun i hi => h i (Nat.lt_succ_of_lt hi)
    rw [image]
    split
    · rename_i htype
      rw [placed_beside (h n (Nat.lt_succ_self n) htype), hbefore]
    · exact hbefore

variable {p : Phdr}

theorem copied_zero (file : List Byte) (p : Phdr) (m : Store 32) : copied file p 0 m = m := by
  funext a
  exact if_neg (by omega)

/-- Read as an `int`, the rest of a segment is not negative. -/
theorem to_read_le {filesz chunk : BitVec 32} (hlt : chunk < filesz)
    (hsize : filesz.toNat < 2 ^ 31) : (toRead filesz chunk).toNat ≤ 32768 := by
  have hrest : (filesz - chunk).toNat = filesz.toNat - chunk.toNat :=
    BitVec.toNat_sub_of_le (BitVec.le_of_lt hlt)
  rw [toRead]
  split
  · exact Nat.le_refl 32768
  · rename_i hslt
    have hint : (filesz - chunk).toInt ≤ 32768 := by
      simpa [BitVec.slt, chunkSize] using hslt
    rw [BitVec.toInt_eq_toNat_cond] at hint
    split at hint <;> omega

/-- The next bytes of a segment, right behind those that are there. -/
theorem put_copied {chunk : BitVec 32} (hsize : file.length < 2 ^ 32) (hlt : chunk < p.filesz)
    (hinside : p.offset.toNat + p.filesz.toNat ≤ file.length)
    (hwrap : p.vaddr.toNat + p.filesz.toNat ≤ 2 ^ 32) (m : Store 32) :
    put (copied file p chunk.toNat m) (p.vaddr + chunk) (delivered file p chunk) =
      copied file p (chunk.toNat + (toRead p.filesz chunk).toNat) m := by
  obtain ⟨hpos, hwithin, -⟩ := chunk_of_lt hlt
  have hnat : chunk.toNat < p.filesz.toNat := hlt
  have hoffset : (p.offset + chunk).toNat = p.offset.toNat + chunk.toNat :=
    BitVec.toNat_add_of_lt (by omega)
  have hvaddr : (p.vaddr + chunk).toNat = p.vaddr.toNat + chunk.toNat :=
    BitVec.toNat_add_of_lt (by omega)
  have hlength : (delivered file p chunk).length = (toRead p.filesz chunk).toNat := by
    rw [delivered_length]
    omega
  funext a
  have hin := sub_toNat_lt_iff (x := a) (a := p.vaddr + chunk)
    (n := (toRead p.filesz chunk).toNat) (by omega)
  rw [hvaddr] at hin
  rw [put, hlength]
  by_cases hnew : (a - (p.vaddr + chunk)).toNat < (toRead p.filesz chunk).toNat
  · have hrange := hin.mp hnew
    have hsub : (a - (p.vaddr + chunk)).toNat = a.toNat - (p.vaddr.toNat + chunk.toNat) := by
      rw [BitVec.toNat_sub_of_le (BitVec.le_def.mpr (by omega)), hvaddr]
    rw [if_pos hnew, copied, if_pos (by omega), hsub, delivered]
    simp only [List.getD_eq_getElem?_getD]
    rw [List.getElem?_take_of_lt (by omega), List.getElem?_drop, hoffset]
    congr 2
    omega
  · rw [if_neg hnew, copied, copied]
    refine if_congr ?_ rfl rfl
    have hrange := mt hin.mpr hnew
    omega

theorem fill_copied (hwrap : p.vaddr.toNat + max p.filesz.toNat p.memsz.toNat ≤ 2 ^ 32)
    (m : Store 32) :
    (if p.filesz < p.memsz then
      fill (copied file p p.filesz.toNat m) (p.vaddr + p.filesz) 0 (p.memsz - p.filesz).toNat
    else copied file p p.filesz.toNat m) = placed file p m := by
  funext a
  by_cases hlt : p.filesz < p.memsz
  · have hnat : p.filesz.toNat < p.memsz.toNat := hlt
    have hsub := BitVec.toNat_sub_of_le (BitVec.le_of_lt hlt)
    have hvaddr : (p.vaddr + p.filesz).toNat = p.vaddr.toNat + p.filesz.toNat :=
      BitVec.toNat_add_of_lt (by omega)
    have hin := sub_toNat_lt_iff (x := a) (a := p.vaddr + p.filesz)
      (n := (p.memsz - p.filesz).toNat) (by omega)
    rw [if_pos hlt, fill, placed]
    refine if_congr ?_ rfl rfl
    rw [hin, hvaddr]
    omega
  · have hnat : p.memsz.toNat ≤ p.filesz.toNat := Nat.not_lt.mp hlt
    rw [if_neg hlt, placed, if_neg (by omega)]

variable {σ : Type} {fs : Ff σ} {file : List Byte} {pos : σ → ℕ} {buf : BitVec 32}
variable {own : BitVec 32 → Prop} {m : Store 32} {s : Loader σ}

/-- The 512 bytes of `buf` belong to the loader. -/
def Owns (own : BitVec 32 → Prop) (buf : BitVec 32) : Prop :=
  ∀ k, k < mmcBlockSize → own (buf + BitVec.ofNat 32 k)

/-- No segment is loaded over `buf`. -/
def Spared (file : List Byte) (buf : BitVec 32) : Prop :=
  ∀ i, i < (fileEhdr file).phnum.toNat → (filePhdr file i).type = 1 →
    Misses buf (filePhdr file i).vaddr (filePhdr file i).filesz.toNat ∧
    Misses buf (filePhdr file i).vaddr (filePhdr file i).memsz.toNat

theorem WellFormed.spared (h : WellFormed file own) (hown : Owns own buf) : Spared file buf := by
  have hmisses : ∀ i, i < (fileEhdr file).phnum.toNat → (filePhdr file i).type = 1 →
      ∀ n, n ≤ max (filePhdr file i).filesz.toNat (filePhdr file i).memsz.toNat →
        Misses buf (filePhdr file i).vaddr n := by
    intro i hi htype n hn k hk
    have hwrap := h.unwrapped i hi htype
    have hapart := h.apart i hi htype _ (hown k hk)
    rw [Beside] at hapart
    rw [← Nat.not_lt, sub_toNat_lt_iff (by omega)]
    omega
  intro i hi htype
  exact ⟨hmisses i hi htype _ (Nat.le_max_left ..), hmisses i hi htype _ (Nat.le_max_right ..)⟩

/-- The program headers then are not loaded over either. -/
theorem Spared.table (h : Spared file buf) (hheaders : HeadersIn file) : TableSpared file buf := by
  intro i hi j hj htype
  obtain ⟨l, hoffset, hl⟩ := HeadersIn.offset_eq hheaders hi
  have hbehind : ∀ n, Misses buf (filePhdr file j).vaddr n → ∀ k, Used k →
      n ≤ behind file buf (filePhdr file j) i k := by
    intro n hmisses k hk
    have hlt := hk.lt
    have hout := hmisses (l + k) (by omega)
    rwa [BitVec.ofNat_add, ← hoffset, ← BitVec.add_assoc] at hout
  obtain ⟨hfilesz, hmemsz⟩ := h j (Nat.lt_of_le_of_lt hj hi) htype
  constructor
  · intro k hk hlt
    exact absurd hlt (Nat.not_lt.mpr (hbehind _ hfilesz k hk))
  · intro _ k hk _ hlt
    exact absurd hlt (Nat.not_lt.mpr (hbehind _ hmemsz k hk))

theorem WellFormed.filesz_le (h : WellFormed file own) (hi : i < (fileEhdr file).phnum.toNat)
    (htype : (filePhdr file i).type = 1) : (filePhdr file i).filesz.toNat ≤ maxFilesz := by
  have hsize := h.size i hi htype
  rw [maxFilesz]
  omega

theorem WellFormed.segments_in (h : WellFormed file own) : Bootelf.SegmentsIn file :=
  fun i hi htype hpos => ⟨h.inside i hi htype hpos, h.filesz_le hi htype⟩

/-- `buf` still holds the headers that the file has. -/
structure Kept (file : List Byte) (buf : BitVec 32) (s : Loader σ) : Prop where
  phOffset : s.phOffset = (fileEhdr file).phoff
  phNum : s.phNum = (fileEhdr file).phnum.toNat
  phSize : s.phSize = (fileEhdr file).phentsize.setWidth 32
  holds : Holds file buf (min mmcBlockSize file.length) s.mem

theorem kept_of_opened (h : Opened file buf s) (hheaders : HeadersIn file) : Kept file buf s := by
  have hpending := pending_of_opened h hheaders
  exact ⟨hpending.phOffset, hpending.phNum, hpending.phSize, h.holds⟩

theorem Kept.phdr_eq (h : Kept file buf s) (hheaders : HeadersIn file)
    (hi : i < (fileEhdr file).phnum.toNat) : s.phdr buf i = filePhdr file i :=
  Pending.phdr_eq ⟨h.phOffset, h.phNum, h.phSize,
    fun _ _ hj => standing_of_holds hheaders hj h.holds⟩ hi

theorem Kept.entry_eq (h : Kept file buf s) (hheaders : HeadersIn file) :
    (ehdr s.mem buf).entry = (fileEhdr file).entry := by
  rw [ehdr_congr fun k hk => h.holds k (Nat.lt_of_lt_of_le hk hheaders.header), fileEhdr]

theorem Kept.goto (h : Kept file buf s) (control : Control) :
    Kept file buf { s with control := control } :=
  ⟨h.phOffset, h.phNum, h.phSize, h.holds⟩

theorem chunk_kept (hcontract : fs.Contract file pos) (hk : Kept file buf s)
    (hmisses : Misses buf p.vaddr p.filesz.toNat) {chunk : BitVec 32} (hlt : chunk < p.filesz)
    (i : ℕ) : Kept file buf (readChunk fs p i chunk s) := by
  obtain ⟨fil, heq⟩ := read_chunk_eq (s := s) hcontract p i chunk
  have hwithin := (chunk_of_lt hlt).within
  rw [heq]
  refine ⟨hk.phOffset, hk.phNum, hk.phSize, hk.holds.put (Nat.min_le_left ..) (hmisses.part ?_)⟩
  rw [delivered_length]
  omega

theorem fill_kept (fs : Ff σ) (hk : Kept file buf s) (hp : s.phdr buf i = p)
    (hmisses : Misses buf p.vaddr p.memsz.toNat) (hc : s.control = .fill i) :
    Kept file buf (step fs buf s) := by
  simp only [step, hc, hp]
  refine ⟨hk.phOffset, hk.phNum, hk.phSize, ?_⟩
  split
  · rename_i hlt
    have hnat : p.filesz.toNat < p.memsz.toNat := hlt
    have hsub := BitVec.toNat_sub_of_le (BitVec.le_of_lt hlt)
    exact hk.holds.fill (Nat.min_le_left ..) (hmisses.part (by omega))
  · exact hk.holds

/-- Where the call is tells how much of the image stands in memory. -/
def Progress (file : List Byte) (m : Store 32) (mem : Store 32) : Control → Prop
  | .segment i => i ≤ (fileEhdr file).phnum.toNat ∧ mem = image file i m
  | .chunk i chunk => i < (fileEhdr file).phnum.toNat ∧ (filePhdr file i).type = 1 ∧
      mem = copied file (filePhdr file i) (min chunk.toNat (filePhdr file i).filesz.toNat)
        (image file i m)
  | .fill i => i < (fileEhdr file).phnum.toNat ∧ (filePhdr file i).type = 1 ∧
      mem = copied file (filePhdr file i) (filePhdr file i).filesz.toNat (image file i m)
  | .returned _ => False
  | .jumped entry => entry = (fileEhdr file).entry ∧
      mem = image file (fileEhdr file).phnum.toNat m

/-- The invariant of the call. -/
structure Loading (file : List Byte) (buf : BitVec 32) (m : Store 32) (s : Loader σ) : Prop where
  kept : Kept file buf s
  progress : Progress file m s.mem s.control

theorem Loading.segment (h : WellFormed file own) (hs : Loading file buf m s)
    (hc : s.control = .segment i) : Loading file buf m (step fs buf s) := by
  obtain ⟨hk, hprogress⟩ := hs
  rw [hc] at hprogress
  obtain ⟨hle, hmem⟩ := hprogress
  by_cases hi : i < (fileEhdr file).phnum.toNat
  · have hlt : i < s.phNum := hk.phNum ▸ hi
    simp only [step, hc, hk.phdr_eq h.headers hi, if_pos hlt]
    split
    · rename_i htype
      refine ⟨hk.goto _, hi, ?_⟩
      rw [image, if_neg htype, hmem]
    · rename_i htype
      have hload : (filePhdr file i).type = 1 := Classical.not_not.mp htype
      split
      · refine ⟨hk.goto _, hi, hload, ?_⟩
        have hnone : min (0 : BitVec 32).toNat (filePhdr file i).filesz.toNat = 0 := Nat.zero_min _
        rw [hnone, copied_zero, hmem]
      · rename_i hpos
        have hzero : (filePhdr file i).filesz.toNat = 0 := Nat.eq_zero_of_not_pos hpos
        refine ⟨hk.goto _, hi, hload, ?_⟩
        rw [hzero, copied_zero, hmem]
  · have hend : i = (fileEhdr file).phnum.toNat := Nat.le_antisymm hle (Nat.not_lt.mp hi)
    have hnot : ¬i < s.phNum := by rwa [hk.phNum]
    simp only [step, hc, if_neg hnot]
    exact ⟨hk.goto _, hk.entry_eq h.headers, hend ▸ hmem⟩

/-- A chunk ends where the next begins, and the last one where the zeros do. -/
theorem Loading.chunk (hcontract : fs.Contract file pos) (h : WellFormed file own)
    (hown : Owns own buf) (hs : Loading file buf m s) {chunk : BitVec 32}
    (hc : s.control = .chunk i chunk) : Loading file buf m (step fs buf s) := by
  obtain ⟨hk, hprogress⟩ := hs
  rw [hc] at hprogress
  obtain ⟨hi, htype, hmem⟩ := hprogress
  have hphdr := hk.phdr_eq h.headers hi
  by_cases hlt : chunk < (filePhdr file i).filesz
  · have hstep : step fs buf s = readChunk fs (filePhdr file i) i chunk s := by
      simp only [step, hc, hphdr, if_pos hlt]
    have hkept := chunk_kept hcontract hk (h.spared hown i hi htype).1 hlt i
    obtain ⟨fil, heq⟩ := read_chunk_eq (s := s) hcontract (filePhdr file i) i chunk
    have hnat : chunk.toNat < (filePhdr file i).filesz.toNat := hlt
    have hmax := h.filesz_le hi htype
    have hwrap := h.unwrapped i hi htype
    have hnext := chunk_next (Nat.lt_of_lt_of_le hnat hmax)
    have hcount : chunk.toNat + (toRead (filePhdr file i).filesz chunk).toNat =
        min (chunk + chunkSize).toNat (filePhdr file i).filesz.toNat := by
      have hlast := (chunk_of_lt hlt).last
      have hwithin := (chunk_of_lt hlt).within
      have hle : (toRead (filePhdr file i).filesz chunk).toNat ≤ 32768 :=
        to_read_le hlt (h.size i hi htype)
      omega
    rw [hstep]
    refine ⟨hkept, ?_⟩
    rw [heq]
    refine ⟨hi, htype, ?_⟩
    rw [hmem, Nat.min_eq_left (Nat.le_of_lt hnat), put_copied hcontract.size hlt
      (h.inside i hi htype (Nat.zero_lt_of_lt hnat)) (by omega), hcount]
  · simp only [step, hc, hphdr, if_neg hlt]
    refine ⟨hk.goto _, hi, htype, ?_⟩
    rw [hmem, Nat.min_eq_right (Nat.not_lt.mp hlt)]

theorem Loading.fill (h : WellFormed file own) (hown : Owns own buf) (hs : Loading file buf m s)
    (hc : s.control = .fill i) : Loading file buf m (step fs buf s) := by
  obtain ⟨hk, hprogress⟩ := hs
  rw [hc] at hprogress
  obtain ⟨hi, htype, hmem⟩ := hprogress
  have hphdr := hk.phdr_eq h.headers hi
  refine ⟨fill_kept fs hk hphdr (h.spared hown i hi htype).2 hc, ?_⟩
  simp only [step, hc, hphdr]
  refine ⟨hi, ?_⟩
  rw [image, if_pos htype, hmem, fill_copied (h.unwrapped i hi htype)]

theorem Loading.step (hcontract : fs.Contract file pos) (h : WellFormed file own)
    (hown : Owns own buf) (hs : Loading file buf m s) : Loading file buf m (step fs buf s) := by
  cases hc : s.control with
  | segment i => exact hs.segment h hc
  | chunk i chunk => exact hs.chunk hcontract h hown hc
  | fill i => exact hs.fill h hown hc
  | returned r => rwa [step_returned hc]
  | jumped entry => rwa [step_jumped hc]

theorem Loading.iterate (hcontract : fs.Contract file pos) (h : WellFormed file own)
    (hown : Owns own buf) (hs : Loading file buf m s) (n : ℕ) :
    Loading file buf m ((Firmware.step fs buf)^[n] s) := by
  induction n with
  | zero => exact hs
  | succ n ih =>
    rw [Function.iterate_succ_apply']
    exact ih.step hcontract h hown

/-- At first there is only what was read into `buf`. -/
theorem loading_opened (hcontract : fs.Contract file pos) (h : WellFormed file own)
    (buf : BitVec 32) (mem : Store 32) (fil : σ) :
    Loading file buf (put mem buf (file.take mmcBlockSize)) (openElf fs buf mem fil) := by
  have hopened := opened hcontract h.magic buf mem fil
  refine ⟨kept_of_opened hopened h.headers, ?_⟩
  obtain ⟨fil', heq⟩ := open_elf_eq hcontract h.magic buf mem fil
  rw [heq]
  exact ⟨Nat.zero_le _, rfl⟩

theorem Owns.put_outside (hown : Owns own buf) (ha : ¬own a) :
    put mem buf (file.take mmcBlockSize) a = mem a := by
  refine Memory.put_outside ?_
  rw [List.length_take]
  by_contra hlt
  refine ha ?_
  have hat := hown (a - buf).toNat (by omega)
  rwa [BitVec.ofNat_toNat, BitVec.setWidth_eq, BitVec.add_comm, BitVec.sub_add_cancel] at hat

/-- A well-formed image is started, and at its entry, with its segments in memory as
the program headers say, in their order. Nothing else has changed that is not the
loader's own. -/
theorem starts_loaded_image (hcontract : fs.Contract file pos) (h : WellFormed file own)
    (hown : Owns own buf) (mem : Store 32) (fil : σ) :
    (∃ n entry, (bootelf fs buf mem fil n).control = .jumped entry) ∧
    ∀ n entry, (bootelf fs buf mem fil n).control = .jumped entry →
      entry = (fileEhdr file).entry ∧
      ∀ a, ¬own a →
        (bootelf fs buf mem fil n).mem a = image file (fileEhdr file).phnum.toNat mem a ∧
        ((∀ i, i < (fileEhdr file).phnum.toNat → (filePhdr file i).type = 1 →
          Beside (filePhdr file i) a) → (bootelf fs buf mem fil n).mem a = mem a) := by
  have hopened := opened hcontract h.magic buf mem fil
  have hstart := loading_opened hcontract h buf mem fil
  constructor
  · obtain ⟨n, entry, hjumped, -⟩ := Bootelf.ends_jumped hcontract
      ((h.spared hown).table h.headers) (pending_of_opened hopened h.headers) hopened.control
      h.segments_in
    exact ⟨n, entry, hjumped⟩
  · intro n entry hjumped
    have hloading := (hstart.iterate hcontract h hown n).progress
    rw [bootelf] at hjumped ⊢
    rw [hjumped] at hloading
    obtain ⟨hentry, hmem⟩ := hloading
    refine ⟨hentry, ?_⟩
    intro a ha
    have hloaded : ((Firmware.step fs buf)^[n] (openElf fs buf mem fil)).mem a =
        image file (fileEhdr file).phnum.toNat mem a := by
      rw [hmem]
      exact image_congr _ (hown.put_outside ha)
    refine ⟨hloaded, ?_⟩
    intro hbeside
    rw [hloaded, image_beside hbeside]

/-- The least that a loader owns. -/
def inBuf (buf a : BitVec 32) : Prop := (a - buf).toNat < mmcBlockSize

theorem owns_in_buf (buf : BitVec 32) : Owns (inBuf buf) buf := by
  intro k hk
  have hlt : k < 2 ^ 32 := by
    rw [mmcBlockSize] at hk
    omega
  rw [inBuf, BitVec.add_comm, BitVec.add_sub_cancel, BitVec.toNat_ofNat, Nat.mod_eq_of_lt hlt]
  exact hk

theorem small_elf_well_formed : WellFormed Bootelf.smallElf (inBuf 0xFFFC0000) where
  magic := by decide
  headers := ⟨by decide, by decide⟩
  inside := by decide
  size := by decide
  unwrapped := by decide
  apart := by
    have hp : filePhdr Bootelf.smallElf 0 = ⟨1, 84, 0x100, 4, 8⟩ := by rfl
    intro i hi _ a ha
    obtain rfl : i = 0 := Nat.lt_one_iff.mp hi
    have hbuf : (0xFFFC0000 : BitVec 32).toNat = 0xFFFC0000 := rfl
    have hvaddr : (0x100 : BitVec 32).toNat = 0x100 := rfl
    have hfilesz : (4 : BitVec 32).toNat = 4 := rfl
    have hmemsz : (8 : BitVec 32).toNat = 8 := rfl
    rw [inBuf, mmcBlockSize, sub_toNat_lt_iff (by decide), hbuf] at ha
    rw [hp, Beside]
    simp only [hvaddr, hfilesz, hmemsz]
    omega

/-- The headers are those of the first part of the file that holds them. -/
theorem contents_append {head : List Byte} (body : List Byte) (h : l + n ≤ head.length)
    (hsize : head.length < 2 ^ 32) :
    Agree (contents (head ++ body)) (BitVec.ofNat 32 l) (contents head) (BitVec.ofNat 32 l) n := by
  intro k hk
  have hat : (BitVec.ofNat 32 l + BitVec.ofNat 32 k).toNat = l + k := by
    rw [← BitVec.ofNat_add, BitVec.toNat_ofNat, Nat.mod_eq_of_lt (by omega)]
  rw [contents, contents, hat, List.getD_append _ _ _ _ (by omega)]

theorem file_ehdr_append {head : List Byte} (body : List Byte) (h : ehdrSize ≤ head.length)
    (hsize : head.length < 2 ^ 32) : fileEhdr (head ++ body) = fileEhdr head :=
  ehdr_congr (contents_append body (l := 0) (by omega) hsize)

theorem file_phdr_append {head : List Byte} (body : List Byte) (h : HeadersIn head)
    (hi : i < (fileEhdr head).phnum.toNat) (hsize : head.length < 2 ^ 32) :
    filePhdr (head ++ body) i = filePhdr head i := by
  have hheader := h.header
  obtain ⟨l, hoffset, hl⟩ := HeadersIn.offset_eq h hi
  have hsame : phdrOffset (head ++ body) i = phdrOffset head i := by
    rw [phdrOffset, phdrOffset, file_ehdr_append body (by omega) hsize]
  rw [filePhdr, filePhdr, hsame, hoffset]
  exact phdr_congr fun k hk => contents_append body (by omega) hsize k hk.lt

/-- An image with a segment of two chunks and a short one behind it. -/
def largeHead : List Byte :=
  elfmag ++ List.replicate 20 0 ++ [0, 0, 0x10, 0] ++ [0, 0, 0, 52] ++ List.replicate 10 0 ++
    [0, 32] ++ [0, 2] ++ List.replicate 6 0 ++
    [0, 0, 0, 1] ++ [0, 0, 0, 116] ++ [0, 0, 0x10, 0] ++ List.replicate 4 0 ++
    [0, 0, 0x9C, 0x40] ++ [0, 0, 0x9C, 0x48] ++ List.replicate 8 0 ++
    [0, 0, 0, 1] ++ [0, 0, 0x9C, 0xB4] ++ [0, 2, 0, 0] ++ List.replicate 4 0 ++ [0, 0, 0, 4] ++
    [0, 0, 0, 4] ++ List.replicate 8 0

def largeElf : List Byte := largeHead ++ (List.replicate 40000 0x48 ++ [1, 2, 3, 4])

theorem large_head_length : largeHead.length = 116 := by rfl

theorem large_length : largeElf.length = 40120 := by
  rw [largeElf, List.length_append, large_head_length, List.length_append, List.length_replicate]
  rfl

theorem large_head_in : HeadersIn largeHead := ⟨by decide +kernel, by decide +kernel⟩

theorem large_ehdr : fileEhdr largeElf = ⟨elfmag, 0x1000, 52, 32, 2⟩ :=
  (file_ehdr_append _ (by decide) (by decide)).trans (by rfl)

set_option maxRecDepth 2000 in
theorem large_first : filePhdr largeElf 0 = ⟨1, 116, 0x1000, 40000, 40008⟩ :=
  (file_phdr_append _ large_head_in (by decide) (by decide)).trans (by rfl)

set_option maxRecDepth 2000 in
theorem large_second : filePhdr largeElf 1 = ⟨1, 40116, 0x20000, 4, 4⟩ :=
  (file_phdr_append _ large_head_in (by decide) (by decide)).trans (by rfl)

theorem large_get (k : ℕ) : largeElf.getD (116 + k) 0 =
    if k < 40000 then 0x48 else [1, 2, 3, 4].getD (k - 40000) 0 := by
  have hhead := large_head_length
  rw [largeElf, List.getD_append_right _ _ _ _ (by omega), hhead, Nat.add_sub_cancel_left]
  split
  · rename_i hk
    rw [List.getD_append _ _ _ _ (by rwa [List.length_replicate]), List.getD_replicate _ hk]
  · rename_i hk
    rw [List.getD_append_right _ _ _ _ (by rw [List.length_replicate]; omega),
      List.length_replicate]

theorem large_elf_well_formed : WellFormed largeElf (inBuf 0xFFFC0000) := by
  have hnum : (fileEhdr largeElf).phnum.toNat = 2 := by rw [large_ehdr]; rfl
  have hcases : ∀ i < 2, filePhdr largeElf i = ⟨1, 116, 0x1000, 40000, 40008⟩ ∨
      filePhdr largeElf i = ⟨1, 40116, 0x20000, 4, 4⟩ := by
    intro i hi
    match i, hi with
    | 0, _ => exact .inl large_first
    | 1, _ => exact .inr large_second
  refine ⟨by rfl, ⟨?_, ?_⟩, ?_, ?_, ?_, ?_⟩
  · rw [large_length]
    decide
  · rw [large_length, hnum, large_ehdr]
    decide
  · intro i hi _ _
    rw [hnum] at hi
    rw [large_length]
    obtain hp | hp := hcases i hi <;> rw [hp] <;> decide
  · intro i hi _
    rw [hnum] at hi
    obtain hp | hp := hcases i hi <;> rw [hp] <;> decide
  · intro i hi _
    rw [hnum] at hi
    obtain hp | hp := hcases i hi <;> rw [hp] <;> decide
  · intro i hi _ a ha
    have hbuf : (0xFFFC0000 : BitVec 32).toNat = 0xFFFC0000 := rfl
    rw [inBuf, mmcBlockSize, sub_toNat_lt_iff (by decide), hbuf] at ha
    rw [hnum] at hi
    right
    refine Nat.le_trans (m := 0xFFFC0000) ?_ ha.1
    obtain hp | hp := hcases i hi <;> rw [hp] <;> decide

/-- Both chunks of the first segment, its zeros, the second segment, and what is beside them. -/
theorem large_elf_loaded :
    ∃ n, (bootelf (Ff.ofFile largeElf) 0xFFFC0000 (fun _ => 0xFF) 0 n).control =
        .jumped 0x1000 ∧
      (bootelf (Ff.ofFile largeElf) 0xFFFC0000 (fun _ => 0xFF) 0 n).mem 0x1000 = 0x48 ∧
      (bootelf (Ff.ofFile largeElf) 0xFFFC0000 (fun _ => 0xFF) 0 n).mem 0xAC3F = 0x48 ∧
      (bootelf (Ff.ofFile largeElf) 0xFFFC0000 (fun _ => 0xFF) 0 n).mem 0xAC40 = 0 ∧
      (bootelf (Ff.ofFile largeElf) 0xFFFC0000 (fun _ => 0xFF) 0 n).mem 0xAC48 = 0xFF ∧
      (bootelf (Ff.ofFile largeElf) 0xFFFC0000 (fun _ => 0xFF) 0 n).mem 0x20003 = 4 := by
  have hsize : largeElf.length < 2 ^ 32 := by
    rw [large_length]
    decide
  obtain ⟨⟨n, entry, hjumped⟩, h⟩ := starts_loaded_image (Ff.of_file_contract hsize)
    large_elf_well_formed (owns_in_buf 0xFFFC0000) (fun _ => 0xFF) 0
  obtain ⟨hentry, hmem⟩ := h n entry hjumped
  have hstart : entry = 0x1000 := hentry.trans (by rw [large_ehdr])
  have hloaded : ∀ a, ¬inBuf 0xFFFC0000 a →
      (bootelf (Ff.ofFile largeElf) 0xFFFC0000 (fun _ => 0xFF) 0 n).mem a =
        placed largeElf ⟨1, 40116, 0x20000, 4, 4⟩
          (placed largeElf ⟨1, 116, 0x1000, 40000, 40008⟩ fun _ => 0xFF) a := by
    intro a ha
    have hnum : (fileEhdr largeElf).phnum.toNat = 2 := by rw [large_ehdr]; rfl
    rw [(hmem a ha).1, hnum]
    simp only [image, large_first, large_second, ↓reduceIte]
  refine ⟨n, hstart ▸ hjumped, ?_, ?_, ?_, ?_, ?_⟩
  · rw [hloaded 0x1000 (by unfold inBuf; decide)]
    exact large_get 0
  · rw [hloaded 0xAC3F (by unfold inBuf; decide)]
    exact large_get 39999
  · rw [hloaded 0xAC40 (by unfold inBuf; decide)]
    rfl
  · rw [hloaded 0xAC48 (by unfold inBuf; decide)]
    rfl
  · rw [hloaded 0x20003 (by unfold inBuf; decide)]
    exact large_get 40003

end Vp2Motion.Proofs.LoadedImage
