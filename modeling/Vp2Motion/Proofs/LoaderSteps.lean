import Vp2Motion.Proofs.ElfHeaders

namespace Vp2Motion.Proofs.LoaderSteps
open Memory Firmware ElfHeaders

variable {σ : Type} {fs : Ff σ} {file : List Byte} {pos : σ → ℕ} {buf : BitVec 32} {s : Loader σ}

/-- What is asked for at offset `chunk` of a segment: all of the rest, or 32768
bytes of it. -/
structure Chunk (filesz chunk : BitVec 32) : Prop where
  pos : 0 < (toRead filesz chunk).toNat
  within : chunk.toNat + (toRead filesz chunk).toNat ≤ filesz.toNat
  last : chunk.toNat + (toRead filesz chunk).toNat = filesz.toNat ∨
    (toRead filesz chunk).toNat = 32768 ∧ chunk.toNat + 32768 < filesz.toNat

theorem chunk_of_lt {filesz chunk : BitVec 32} (h : chunk < filesz) : Chunk filesz chunk := by
  have hlt : chunk.toNat < filesz.toNat := h
  have hrest : (filesz - chunk).toNat = filesz.toNat - chunk.toNat :=
    BitVec.toNat_sub_of_le (BitVec.le_of_lt h)
  by_cases hslt : chunkSize.slt (filesz - chunk) = true
  · have hread : (toRead filesz chunk).toNat = 32768 := by
      rw [toRead, if_pos hslt]
      rfl
    have hgt : 32768 < (filesz - chunk).toNat := by
      have hint : (32768 : ℤ) < (filesz - chunk).toInt := by
        simpa [BitVec.slt, chunkSize] using hslt
      rw [BitVec.toInt_eq_toNat_cond] at hint
      split at hint <;> omega
    exact ⟨by omega, by omega, .inr ⟨hread, by omega⟩⟩
  · have hread : (toRead filesz chunk).toNat = filesz.toNat - chunk.toNat := by
      rw [toRead, if_neg hslt, hrest]
    exact ⟨by omega, by omega, .inl (by omega)⟩

/-- What `f_read` delivers at offset `chunk` of a segment. -/
def delivered (file : List Byte) (p : Phdr) (chunk : BitVec 32) : List Byte :=
  (file.drop (p.offset + chunk).toNat).take (toRead p.filesz chunk).toNat

def chunkRead (file : List Byte) (p : Phdr) (chunk : BitVec 32) : Read :=
  ⟨p.offset + chunk, p.vaddr + chunk, (delivered file p chunk).length⟩

theorem read_chunk_eq (h : fs.Contract file pos) (p : Phdr) (i : ℕ) (chunk : BitVec 32) :
    ∃ fil, readChunk fs p i chunk s =
      { s with
        mem := put s.mem (p.vaddr + chunk) (delivered file p chunk)
        fil := fil
        control := .chunk i (chunk + chunkSize)
        log := s.log ++ [chunkRead file p chunk] } := by
  have hdata : (fs.fRead (toRead p.filesz chunk) (fs.fLseek (p.offset + chunk) s.fil).2).2.1 =
      delivered file p chunk := by
    rw [h.read_data, h.lseek_pos, delivered]
    by_cases hle : (p.offset + chunk).toNat ≤ file.length
    · rw [Nat.min_eq_left hle]
    · rw [Nat.min_eq_right (by omega), List.drop_length, List.drop_of_length_le (by omega)]
  refine ⟨(fs.fRead (toRead p.filesz chunk) (fs.fLseek (p.offset + chunk) s.fil).2).2.2, ?_⟩
  simp only [readChunk, h.lseek_ok, h.read_ok, hdata, ne_eq, not_true_eq_false, ↓reduceIte]
  rfl

theorem delivered_length (file : List Byte) (p : Phdr) (chunk : BitVec 32) :
    (delivered file p chunk).length =
      min (toRead p.filesz chunk).toNat (file.length - (p.offset + chunk).toNat) := by
  rw [delivered, List.length_take, List.length_drop]

theorem step_jumped (h : s.control = .jumped entry) : step fs buf s = s := by
  simp only [step, h]

theorem step_returned (h : s.control = .returned r) : step fs buf s = s := by
  simp only [step, h]

/-- A step either makes one read, which delivers what the file has of it, or makes
none and does not return. -/
theorem step_cases (h : fs.Contract file pos) (buf : BitVec 32) (s : Loader σ) :
    (∃ i chunk fil, s.control = .chunk i chunk ∧ chunk < (s.phdr buf i).filesz ∧
      step fs buf s =
        { s with
          mem := put s.mem ((s.phdr buf i).vaddr + chunk) (delivered file (s.phdr buf i) chunk)
          fil := fil
          control := .chunk i (chunk + chunkSize)
          log := s.log ++ [chunkRead file (s.phdr buf i) chunk] }) ∨
    (∃ mem control, step fs buf s = { s with mem := mem, control := control } ∧
      (∀ i chunk, s.control = .chunk i chunk → ¬chunk < (s.phdr buf i).filesz) ∧
      ∀ r, control = .returned r → s.control = .returned r) := by
  cases hs : s.control with
  | segment i =>
    refine .inr ⟨s.mem, (step fs buf s).control, ?_, by simp, ?_⟩
    · simp only [step, hs]
      split
      · split
        · rfl
        · split <;> rfl
      · rfl
    · intro r hr
      simp only [step, hs] at hr
      split at hr
      · split at hr
        · cases hr
        · split at hr <;> cases hr
      · cases hr
  | chunk i chunk =>
    by_cases hlt : chunk < (s.phdr buf i).filesz
    · obtain ⟨fil, heq⟩ := read_chunk_eq (s := s) h (s.phdr buf i) i chunk
      refine .inl ⟨i, chunk, fil, rfl, hlt, ?_⟩
      simp only [step, hs, if_pos hlt, heq]
    · refine .inr ⟨s.mem, .fill i, ?_, ?_, by simp⟩
      · simp only [step, hs, if_neg hlt]
      · rintro _ _ ⟨rfl, rfl⟩
        exact hlt
  | fill i =>
    refine .inr ⟨(step fs buf s).mem, .segment (i + 1), ?_, by simp, by simp⟩
    simp only [step, hs]
  | returned r =>
    exact .inr ⟨s.mem, s.control, step_returned hs, by simp, fun r hr => hs ▸ hr⟩
  | jumped entry =>
    exact .inr ⟨s.mem, s.control, step_jumped hs, by simp, fun r hr => hs ▸ hr⟩

/-- What no step changes: the table, and the count of the first read. -/
structure SameTable (s t : Loader σ) : Prop where
  phOffset : t.phOffset = s.phOffset
  phNum : t.phNum = s.phNum
  phSize : t.phSize = s.phSize
  count : t.count = s.count

theorem same_table (h : fs.Contract file pos) (buf : BitVec 32) (s : Loader σ) (n : ℕ) :
    SameTable s ((step fs buf)^[n] s) := by
  induction n with
  | zero => exact ⟨rfl, rfl, rfl, rfl⟩
  | succ n ih =>
    rw [Function.iterate_succ_apply']
    obtain ⟨i, chunk, fil, -, -, heq⟩ | ⟨mem, control, heq, -, -⟩ :=
      step_cases h buf ((step fs buf)^[n] s)
    · rw [heq]
      exact ⟨ih.phOffset, ih.phNum, ih.phSize, ih.count⟩
    · rw [heq]
      exact ⟨ih.phOffset, ih.phNum, ih.phSize, ih.count⟩

theorem never_returns (h : fs.Contract file pos) (buf : BitVec 32)
    (hs : ∀ r, s.control ≠ .returned r) (n : ℕ) (r : ℤ) :
    ((step fs buf)^[n] s).control ≠ .returned r := by
  induction n with
  | zero => exact hs r
  | succ n ih =>
    rw [Function.iterate_succ_apply']
    obtain ⟨i, chunk, fil, -, -, heq⟩ | ⟨mem, control, heq, -, hreturned⟩ :=
      step_cases h buf ((step fs buf)^[n] s)
    · rw [heq]
      simp
    · rw [heq]
      exact fun hr => ih (hreturned r hr)

/-- The ELF header and the program headers that are used lie within the bytes
that were read into `buf`. -/
structure TableRead (s : Loader σ) : Prop where
  header : ehdrSize ≤ s.count
  table : ∀ i, i < s.phNum → s.phOffset.toNat + s.phSize.toNat * i + phdrSize ≤ s.count

/-- The read has brought byte `k` of a segment from its place in the file to its place
in memory. -/
def Brings (p : Phdr) (k : ℕ) (r : Read) : Prop :=
  ∃ d < r.delivered, r.offset.toNat + d = p.offset.toNat + k ∧
    r.address + BitVec.ofNat 32 d = p.vaddr + BitVec.ofNat 32 k

/-- The bytes of a segment from offset `c` on. -/
def Brought (p : Phdr) (c : ℕ) (reads : List Read) : Prop :=
  ∀ k, c ≤ k → k < p.filesz.toNat → ∃ r ∈ reads, Brings p k r

/-- All bytes of all segments that the program headers of the file tell of, whatever
stands in `buf` by now. -/
def AllDelivered (file : List Byte) (reads : List Read) : Prop :=
  ∀ i, i < (fileEhdr file).phnum.toNat → (filePhdr file i).type = 1 →
    Brought (filePhdr file i) 0 reads

/-- The headers were read, and the segments delivered. -/
structure Complete (file : List Byte) (s : Loader σ) : Prop where
  headers : TableRead s
  segments : AllDelivered file s.log

/-- The call starts the program with all of its image loaded, or returns -1. -/
def Meets (fs : Ff σ) (file : List Byte) (buf : BitVec 32) (mem : Store 32) (fil : σ) : Prop :=
  ∃ n, (bootelf fs buf mem fil n).control = .returned (-1) ∨
    ∃ entry, (bootelf fs buf mem fil n).control = .jumped entry ∧
      Complete file (bootelf fs buf mem fil n)

/-- After the checks of the header. -/
structure Opened (file : List Byte) (buf : BitVec 32) (s : Loader σ) : Prop where
  holds : Holds file buf (min mmcBlockSize file.length) s.mem
  phOffset : s.phOffset = (ehdr s.mem buf).phoff
  phNum : s.phNum = (ehdr s.mem buf).phnum.toNat
  phSize : s.phSize = (ehdr s.mem buf).phentsize.setWidth 32
  control : s.control = .segment 0
  count : s.count = min mmcBlockSize file.length
  log : s.log = []

/-- The call gets past the checks with the first bytes of the file in `buf`. -/
theorem open_elf_eq (h : fs.Contract file pos) (hmag : file.take 4 = elfmag) (buf : BitVec 32)
    (mem : Store 32) (fil : σ) :
    ∃ fil', openElf fs buf mem fil =
      ⟨put mem buf (file.take mmcBlockSize), fil',
        (ehdr (put mem buf (file.take mmcBlockSize)) buf).phoff,
        (ehdr (put mem buf (file.take mmcBlockSize)) buf).phnum.toNat,
        (ehdr (put mem buf (file.take mmcBlockSize)) buf).phentsize.setWidth 32,
        .segment 0, (file.take mmcBlockSize).length, []⟩ := by
  have hdata : (fs.fRead (BitVec.ofNat 32 mmcBlockSize) (fs.fOpen fil).2).2.1 =
      file.take mmcBlockSize := by
    rw [h.read_data, h.open_pos]
    rfl
  have hlen : 4 ≤ file.length := by
    have := congrArg List.length hmag
    rw [List.length_take, elfmag] at this
    simp only [List.length_cons, List.length_nil] at this
    omega
  have hident := ident_eq (holds_put mem buf) (by rw [mmcBlockSize]; omega) hmag
  refine ⟨(fs.fRead (BitVec.ofNat 32 mmcBlockSize) (fs.fOpen fil).2).2.2, ?_⟩
  simp only [openElf, h.open_ok, h.read_ok, hdata, hident, ne_eq, not_true_eq_false, or_self,
    ↓reduceIte]

theorem opened (h : fs.Contract file pos) (hmag : file.take 4 = elfmag) (buf : BitVec 32)
    (mem : Store 32) (fil : σ) : Opened file buf (openElf fs buf mem fil) := by
  obtain ⟨fil', heq⟩ := open_elf_eq h hmag buf mem fil
  rw [heq]
  exact ⟨holds_put mem buf, rfl, rfl, rfl, rfl, List.length_take, rfl⟩

theorem table_read_iff {s t : Loader σ} (h : SameTable s t) : TableRead t ↔ TableRead s := by
  constructor
  · rintro ⟨hheader, htable⟩
    rw [h.count] at hheader
    rw [h.phNum, h.phOffset, h.phSize, h.count] at htable
    exact ⟨hheader, htable⟩
  · rintro ⟨hheader, htable⟩
    refine ⟨by rwa [h.count], ?_⟩
    rwa [h.phNum, h.phOffset, h.phSize, h.count]

theorem Opened.headers_iff (h : Opened file buf s) : TableRead s ↔ HeadersIn file := by
  have hehdr : ehdrSize ≤ min mmcBlockSize file.length → ehdr s.mem buf = fileEhdr file :=
    fun hle => ehdr_congr fun k hk => h.holds k (by omega)
  constructor
  · rintro ⟨hheader, htable⟩
    rw [h.count] at hheader
    rw [h.phNum, h.phOffset, h.phSize, h.count, hehdr hheader,
      BitVec.toNat_setWidth_of_le (by decide)] at htable
    exact ⟨hheader, htable⟩
  · rintro ⟨hheader, htable⟩
    refine ⟨by rwa [h.count], ?_⟩
    rw [h.phNum, h.phOffset, h.phSize, h.count, hehdr hheader,
      BitVec.toNat_setWidth_of_le (by decide)]
    exact htable

/-- With FatFs keeping its contract the call never returns. -/
theorem meets_iff (h : fs.Contract file pos) (hmag : file.take 4 = elfmag) (buf : BitVec 32)
    (mem : Store 32) (fil : σ) :
    Meets fs file buf mem fil ↔ HeadersIn file ∧ ∃ n entry,
      (bootelf fs buf mem fil n).control = .jumped entry ∧
      AllDelivered file (bootelf fs buf mem fil n).log := by
  have hopened := opened h hmag buf mem fil
  have hnever := never_returns h buf (fun r => by rw [hopened.control]; simp)
  have htable := fun n => (table_read_iff (same_table h buf
    (openElf fs buf mem fil) n)).trans hopened.headers_iff
  constructor
  · rintro ⟨n, hreturned | ⟨entry, hjumped, hheaders, hsegments⟩⟩
    · exact absurd hreturned (hnever n (-1))
    · exact ⟨(htable n).mp hheaders, n, entry, hjumped, hsegments⟩
  · rintro ⟨hheaders, n, entry, hjumped, hsegments⟩
    exact ⟨n, .inr ⟨entry, hjumped, (htable n).mpr hheaders, hsegments⟩⟩

/-- A call that has jumped stays where it is. -/
theorem jumped_after (h : ((step fs buf)^[m] s).control = .jumped entry) (hmn : m ≤ n) :
    (step fs buf)^[n] s = (step fs buf)^[m] s := by
  obtain ⟨d, rfl⟩ := Nat.exists_eq_add_of_le hmn
  rw [Nat.add_comm, Function.iterate_add_apply]
  exact Function.iterate_fixed (step_jumped h) d

/-- Where the call ends does not depend on when it is looked at. -/
theorem jumped_unique (h : ((step fs buf)^[m] s).control = .jumped entry)
    (h' : ((step fs buf)^[n] s).control = .jumped entry') :
    (step fs buf)^[m] s = (step fs buf)^[n] s := by
  rcases Nat.le_total m n with hle | hle
  · exact (jumped_after h hle).symm
  · exact jumped_after h' hle

end Vp2Motion.Proofs.LoaderSteps
