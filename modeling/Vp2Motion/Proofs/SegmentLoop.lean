import Vp2Motion.Proofs.LoaderSteps

namespace Vp2Motion.Proofs.SegmentLoop
open Memory Firmware ElfHeaders LoaderSteps

variable {σ : Type} {fs : Ff σ} {file : List Byte} {pos : σ → ℕ} {buf : BitVec 32} {s : Loader σ}

/-- Program header `i` is in `buf` as the file has it, as far as it is used. -/
def Standing (file : List Byte) (buf : BitVec 32) (i : ℕ) (m : Store 32) : Prop :=
  ∀ k, Used k → m (buf + phdrOffset file i + BitVec.ofNat 32 k) =
    contents file (phdrOffset file i + BitVec.ofNat 32 k)

/-- How far byte `k` of program header `i` is behind the start of a segment in memory. -/
def behind (file : List Byte) (buf : BitVec 32) (p : Phdr) (i k : ℕ) : ℕ :=
  (buf + phdrOffset file i + BitVec.ofNat 32 k - p.vaddr).toNat

/-- What the segment brings to the place of program header `i` is that header. -/
def SparesLoading (file : List Byte) (buf : BitVec 32) (p : Phdr) (i : ℕ) : Prop :=
  ∀ k, Used k → behind file buf p i k < p.filesz.toNat →
    file.getD (p.offset.toNat + behind file buf p i k) 0 =
      contents file (phdrOffset file i + BitVec.ofNat 32 k)

/-- Its zeros come only where the header has zeros. -/
def SparesFilling (file : List Byte) (buf : BitVec 32) (p : Phdr) (i : ℕ) : Prop :=
  ∀ k, Used k → p.filesz.toNat ≤ behind file buf p i k →
    behind file buf p i k < p.memsz.toNat →
      contents file (phdrOffset file i + BitVec.ofNat 32 k) = 0

/-- No segment puts other bytes over a program header that is still to be used. -/
def TableSpared (file : List Byte) (buf : BitVec 32) : Prop :=
  ∀ i, i < (fileEhdr file).phnum.toNat → ∀ j, j ≤ i → (filePhdr file j).type = 1 →
    SparesLoading file buf (filePhdr file j) i ∧
      (j < i → SparesFilling file buf (filePhdr file j) i)

theorem HeadersIn.offset_eq (h : HeadersIn file) (hi : i < (fileEhdr file).phnum.toNat) :
    ∃ l, phdrOffset file i = BitVec.ofNat 32 l ∧ l + phdrSize ≤ min mmcBlockSize file.length := by
  refine ⟨(fileEhdr file).phoff.toNat + (fileEhdr file).phentsize.toNat * i, ?_, h.table i hi⟩
  rw [phdrOffset, BitVec.ofNat_add, BitVec.ofNat_mul, BitVec.ofNat_toNat, BitVec.setWidth_eq,
    BitVec.ofNat_toNat]

theorem standing_of_holds (hheaders : HeadersIn file) (hi : i < (fileEhdr file).phnum.toNat)
    (h : Holds file buf (min mmcBlockSize file.length) m) : Standing file buf i m := by
  obtain ⟨l, hoffset, hl⟩ := HeadersIn.offset_eq hheaders hi
  intro k hk
  have hpart := Agree.part h hl k hk.lt
  rwa [zero_add, ← hoffset] at hpart

theorem Standing.phdr_eq (h : Standing file buf i m) :
    phdr m (buf + phdrOffset file i) = filePhdr file i := phdr_congr h

/-- A chunk brings each byte to where the segment has it. -/
theorem Standing.put {p : Phdr} {chunk : BitVec 32} (h : Standing file buf i m)
    (hspares : SparesLoading file buf p i) (hsize : file.length < 2 ^ 32)
    (hlt : chunk < p.filesz) (hinside : p.offset.toNat + p.filesz.toNat ≤ file.length) :
    Standing file buf i (put m (p.vaddr + chunk) (delivered file p chunk)) := by
  intro k hk
  have hnat : chunk.toNat < p.filesz.toNat := hlt
  have hwithin := (chunk_of_lt hlt).within
  by_cases hin : (buf + phdrOffset file i + BitVec.ofNat 32 k - (p.vaddr + chunk)).toNat <
      (delivered file p chunk).length
  · have hread := hin
    rw [delivered_length] at hread
    have hbehind : behind file buf p i k = chunk.toNat +
        (buf + phdrOffset file i + BitVec.ofNat 32 k - (p.vaddr + chunk)).toNat := by
      rw [behind, ← BitVec.toNat_add_of_lt (by omega)]
      congr 1
      rw [sub_add_eq_sub_sub, BitVec.add_comm chunk, BitVec.sub_add_cancel]
    have hoffset : (p.offset + chunk).toNat = p.offset.toNat + chunk.toNat :=
      BitVec.toNat_add_of_lt (by omega)
    have hsame := hspares k hk (by omega)
    rw [Memory.put, if_pos hin, ← hsame, hbehind, delivered]
    simp only [List.getD_eq_getElem?_getD]
    rw [List.getElem?_take_of_lt (by omega), List.getElem?_drop, hoffset, Nat.add_assoc]
  · rw [put_outside (Nat.not_lt.mp hin)]
    exact h k hk

theorem Standing.fill {p : Phdr} (h : Standing file buf i m)
    (hspares : SparesFilling file buf p i) (hlt : p.filesz < p.memsz) :
    Standing file buf i
      (fill m (p.vaddr + p.filesz) 0 (p.memsz - p.filesz).toNat) := by
  intro k hk
  have hnat : p.filesz.toNat < p.memsz.toNat := hlt
  have hsub := BitVec.toNat_sub_of_le (BitVec.le_of_lt hlt)
  have hmem := p.memsz.isLt
  by_cases hin : (buf + phdrOffset file i + BitVec.ofNat 32 k - (p.vaddr + p.filesz)).toNat <
      (p.memsz - p.filesz).toNat
  · have hbehind : behind file buf p i k = p.filesz.toNat +
        (buf + phdrOffset file i + BitVec.ofNat 32 k - (p.vaddr + p.filesz)).toNat := by
      rw [behind, ← BitVec.toNat_add_of_lt (by omega)]
      congr 1
      rw [sub_add_eq_sub_sub, BitVec.add_comm p.filesz, BitVec.sub_add_cancel]
    rw [Memory.fill, if_pos hin, hspares k hk (by omega) (by omega)]
  · rw [fill_outside (Nat.not_lt.mp hin)]
    exact h k hk

/-- The loop variables are those of the file, and `buf` still holds the program headers
from `i` on. -/
structure Pending (file : List Byte) (buf : BitVec 32) (i : ℕ) (s : Loader σ) : Prop where
  phOffset : s.phOffset = (fileEhdr file).phoff
  phNum : s.phNum = (fileEhdr file).phnum.toNat
  phSize : s.phSize = (fileEhdr file).phentsize.setWidth 32
  standing : ∀ j, i ≤ j → j < (fileEhdr file).phnum.toNat → Standing file buf j s.mem

theorem pending_of_opened (h : Opened file buf s) (hheaders : HeadersIn file) :
    Pending file buf 0 s := by
  have hehdr : ehdr s.mem buf = fileEhdr file :=
    ehdr_congr fun k hk => h.holds k (Nat.lt_of_lt_of_le hk hheaders.header)
  exact ⟨hehdr ▸ h.phOffset, hehdr ▸ h.phNum, hehdr ▸ h.phSize,
    fun j _ hj => standing_of_holds hheaders hj h.holds⟩

theorem Pending.phdr_eq (h : Pending file buf i s) (hi : i < (fileEhdr file).phnum.toNat) :
    s.phdr buf i = filePhdr file i := by
  rw [Loader.phdr, Loader.phdrAddress, h.phOffset, h.phSize, add_assoc]
  exact (h.standing i (Nat.le_refl i) hi).phdr_eq

theorem Pending.goto (h : Pending file buf i s) (hij : i ≤ j) (control : Control) :
    Pending file buf j { s with control := control } :=
  ⟨h.phOffset, h.phNum, h.phSize, fun l hl => h.standing l (Nat.le_trans hij hl)⟩

/-- From `s` the call comes to `t`, with the reads `new` on the way. -/
structure Reaches (fs : Ff σ) (buf : BitVec 32) (s t : Loader σ) (new : List Read) : Prop where
  steps : ∃ n, (step fs buf)^[n] s = t
  log : t.log = s.log ++ new

theorem Reaches.refl (s : Loader σ) : Reaches fs buf s s [] :=
  ⟨⟨0, rfl⟩, (List.append_nil _).symm⟩

theorem Reaches.trans {s t u : Loader σ} (h : Reaches fs buf s t new)
    (h' : Reaches fs buf t u new') : Reaches fs buf s u (new ++ new') := by
  obtain ⟨m, hm⟩ := h.steps
  obtain ⟨n, hn⟩ := h'.steps
  refine ⟨⟨n + m, ?_⟩, ?_⟩
  · rw [Function.iterate_add_apply, hm, hn]
  · rw [h'.log, h.log, List.append_assoc]

theorem Reaches.step {t : Loader σ} (h : step fs buf s = t) (hlog : t.log = s.log ++ new) :
    Reaches fs buf s t new :=
  ⟨⟨1, h⟩, hlog⟩

theorem Brought.mono {reads reads' : List Read} (h : Brought p c reads)
    (hsub : ∀ r ∈ reads, r ∈ reads') : Brought p c reads' := by
  intro k hle hlt
  obtain ⟨r, hr, hbrings⟩ := h k hle hlt
  exact ⟨r, hsub r hr, hbrings⟩

section Segment
variable {i : ℕ} {p : Phdr}

/-- The largest size for which the offset of a chunk does not wrap around. -/
def maxFilesz : ℕ := 0xFFFF8000

theorem chunk_next {chunk : BitVec 32} (h : chunk.toNat < maxFilesz) :
    (chunk + chunkSize).toNat = chunk.toNat + 32768 := by
  have hsize : chunkSize.toNat = 32768 := rfl
  rw [maxFilesz] at h
  rw [BitVec.toNat_add, hsize]
  omega

/-- The read of a chunk brings the bytes of it. -/
theorem chunk_brings {chunk : BitVec 32} (hsize : file.length < 2 ^ 32) (hlt : chunk < p.filesz)
    (hinside : p.offset.toNat + p.filesz.toNat ≤ file.length) (hlow : chunk.toNat ≤ k)
    (hhigh : k < chunk.toNat + (toRead p.filesz chunk).toNat) :
    Brings p k (chunkRead file p chunk) := by
  have hnat : chunk.toNat < p.filesz.toNat := hlt
  have hwithin := (chunk_of_lt hlt).within
  have hoffset : (p.offset + chunk).toNat = p.offset.toNat + chunk.toNat :=
    BitVec.toNat_add_of_lt (by omega)
  refine ⟨k - chunk.toNat, ?_, ?_, ?_⟩
  · change _ < (delivered file p chunk).length
    rw [delivered_length]
    omega
  · change (p.offset + chunk).toNat + _ = _
    omega
  · change p.vaddr + chunk + _ = _
    have hsum : chunk + BitVec.ofNat 32 (k - chunk.toNat) = BitVec.ofNat 32 k := by
      rw [show k = chunk.toNat + (k - chunk.toNat) by omega, Nat.add_sub_cancel_left,
        BitVec.ofNat_add, BitVec.ofNat_toNat, BitVec.setWidth_eq]
    rw [add_assoc, hsum]

/-- One read of a segment that is in the file. -/
theorem chunk_step (h : fs.Contract file pos) (hspared : TableSpared file buf)
    (hk : Pending file buf i s) (hi : i < (fileEhdr file).phnum.toNat)
    (hp : filePhdr file i = p) (htype : p.type = 1)
    (hinside : p.offset.toNat + p.filesz.toNat ≤ file.length) {chunk : BitVec 32}
    (hc : s.control = .chunk i chunk) (hlt : chunk < p.filesz) :
    (step fs buf s).log = s.log ++ [chunkRead file p chunk] ∧
      (step fs buf s).control = .chunk i (chunk + chunkSize) ∧
      Pending file buf i (step fs buf s) := by
  obtain ⟨fil, heq⟩ := read_chunk_eq (s := s) h p i chunk
  have hstep : step fs buf s = readChunk fs p i chunk s := by
    simp only [step, hc, hk.phdr_eq hi, hp, if_pos hlt]
  rw [hstep, heq]
  refine ⟨rfl, rfl, hk.phOffset, hk.phNum, hk.phSize, ?_⟩
  intro j hij hj
  exact (hk.standing j hij hj).put (hp ▸ (hspared j hj i hij (hp ▸ htype)).1) h.size hlt hinside

/-- The end of the loop over the chunks of a segment, from offset `chunk` on. -/
structure Chunks (file : List Byte) (fs : Ff σ) (buf : BitVec 32) (i : ℕ) (p : Phdr)
    (chunk : BitVec 32) (s t : Loader σ) (new : List Read) : Prop where
  reaches : Reaches fs buf s t new
  control : t.control = .fill i
  pending : Pending file buf i t
  brought : Brought p chunk.toNat new

theorem chunks_done (hk : Pending file buf i s) (hi : i < (fileEhdr file).phnum.toNat)
    (hp : filePhdr file i = p) {chunk : BitVec 32} (hc : s.control = .chunk i chunk)
    (hge : p.filesz.toNat ≤ chunk.toNat) :
    Chunks file fs buf i p chunk s { s with control := .fill i } [] where
  reaches := by
    refine Reaches.step ?_ (List.append_nil _).symm
    simp only [step, hc, hk.phdr_eq hi, hp, BitVec.lt_def, if_neg (Nat.not_lt.mpr hge)]
  control := rfl
  pending := hk.goto (Nat.le_refl i) _
  brought k hle hlt := by omega

/-- One more chunk in front. -/
theorem Chunks.cons {chunk : BitVec 32} {s t u : Loader σ} (hsize : file.length < 2 ^ 32)
    (hlt : chunk < p.filesz) (hmax : p.filesz.toNat ≤ maxFilesz)
    (hinside : p.offset.toNat + p.filesz.toNat ≤ file.length)
    (hread : Reaches fs buf s t [chunkRead file p chunk])
    (h : Chunks file fs buf i p (chunk + chunkSize) t u new) :
    Chunks file fs buf i p chunk s u (chunkRead file p chunk :: new) := by
  have hnext := chunk_next (Nat.lt_of_lt_of_le (show chunk.toNat < p.filesz.toNat from hlt) hmax)
  have hlast := (chunk_of_lt hlt).last
  refine ⟨hread.trans h.reaches, h.control, h.pending, ?_⟩
  intro k hle hk
  by_cases hfirst : k < chunk.toNat + (toRead p.filesz chunk).toNat
  · exact ⟨_, List.mem_cons_self .., chunk_brings hsize hlt hinside hle hfirst⟩
  · obtain ⟨r, hr, hbrings⟩ := h.brought k (by omega) hk
    exact ⟨r, List.mem_cons_of_mem _ hr, hbrings⟩

theorem chunks (h : fs.Contract file pos) (hspared : TableSpared file buf)
    (hi : i < (fileEhdr file).phnum.toNat) (hp : filePhdr file i = p) (htype : p.type = 1)
    (hinside : p.offset.toNat + p.filesz.toNat ≤ file.length) (hmax : p.filesz.toNat ≤ maxFilesz)
    (left : ℕ) {chunk : BitVec 32} (hleft : p.filesz.toNat ≤ chunk.toNat + 32768 * left)
    (hk : Pending file buf i s) (hc : s.control = .chunk i chunk) :
    ∃ t new, Chunks file fs buf i p chunk s t new := by
  induction left generalizing s chunk with
  | zero => exact ⟨_, _, chunks_done hk hi hp hc (by omega)⟩
  | succ left ih =>
    by_cases hlt : chunk < p.filesz
    · have hnat : chunk.toNat < p.filesz.toNat := hlt
      have hnext := chunk_next (Nat.lt_of_lt_of_le hnat hmax)
      obtain ⟨hlog, hcontrol, hpending⟩ := chunk_step h hspared hk hi hp htype hinside hc hlt
      obtain ⟨t, new, hrest⟩ := ih (by omega) hpending hcontrol
      exact ⟨t, _, hrest.cons h.size hlt hmax hinside (Reaches.step rfl hlog)⟩
    · exact ⟨_, _, chunks_done hk hi hp hc (Nat.not_lt.mp hlt)⟩

/-- The zeros of a segment come after the last use of its header. -/
theorem fill_step (fs : Ff σ) (hspared : TableSpared file buf) (hk : Pending file buf i s)
    (hi : i < (fileEhdr file).phnum.toNat) (htype : (filePhdr file i).type = 1)
    (hc : s.control = .fill i) :
    ∃ t, Reaches fs buf s t [] ∧ t.control = .segment (i + 1) ∧ Pending file buf (i + 1) t := by
  refine ⟨step fs buf s, Reaches.step rfl ?_, ?_, ?_⟩
  · simp only [step, hc, List.append_nil]
  · simp only [step, hc]
  · simp only [step, hc, hk.phdr_eq hi]
    refine ⟨hk.phOffset, hk.phNum, hk.phSize, ?_⟩
    intro j hij hj
    have hstanding := hk.standing j (Nat.le_of_lt hij) hj
    change Standing file buf j (if _ then _ else _)
    split
    · rename_i hlt
      exact hstanding.fill ((hspared j hj i (Nat.le_of_lt hij) htype).2 hij) hlt
    · exact hstanding

/-- The segments from `i` to `j` have been gone through. -/
structure Segments (file : List Byte) (fs : Ff σ) (buf : BitVec 32) (i j : ℕ) (s t : Loader σ)
    (new : List Read) : Prop where
  reaches : Reaches fs buf s t new
  control : t.control = .segment j
  pending : Pending file buf j t
  brought : ∀ k, i ≤ k → k < j → (filePhdr file k).type = 1 → Brought (filePhdr file k) 0 new

theorem Segments.trans {j l : ℕ} {s t u : Loader σ} (h : Segments file fs buf i j s t new)
    (h' : Segments file fs buf j l t u new') : Segments file fs buf i l s u (new ++ new') := by
  refine ⟨h.reaches.trans h'.reaches, h'.control, h'.pending, ?_⟩
  intro k hik hkl htype
  by_cases hkj : k < j
  · exact Brought.mono (h.brought k hik hkj htype) fun r hr => List.mem_append_left _ hr
  · exact Brought.mono (h'.brought k (Nat.not_lt.mp hkj) hkl htype) fun r hr =>
      List.mem_append_right _ hr

/-- A single segment, told by its reads. -/
theorem segments_single {t : Loader σ} (hreaches : Reaches fs buf s t new)
    (hcontrol : t.control = .segment (i + 1)) (hpending : Pending file buf (i + 1) t)
    (hbrought : (filePhdr file i).type = 1 → Brought (filePhdr file i) 0 new) :
    Segments file fs buf i (i + 1) s t new := by
  refine ⟨hreaches, hcontrol, hpending, ?_⟩
  intro k hik hki
  rwa [Nat.le_antisymm (Nat.le_of_lt_succ hki) hik]

theorem segment_skipped (fs : Ff σ) (hk : Pending file buf i s)
    (hi : i < (fileEhdr file).phnum.toNat) (htype : (filePhdr file i).type ≠ 1)
    (hc : s.control = .segment i) :
    Segments file fs buf i (i + 1) s { s with control := .segment (i + 1) } [] := by
  have hlt : i < s.phNum := hk.phNum ▸ hi
  have hstep : step fs buf s = { s with control := .segment (i + 1) } := by
    simp only [step, hc, hk.phdr_eq hi, if_pos hlt, if_pos htype]
  exact segments_single (Reaches.step hstep (List.append_nil s.log).symm) rfl
    (hk.goto (Nat.le_succ i) _) fun h => absurd h htype

theorem segment_empty (fs : Ff σ) (hspared : TableSpared file buf) (hk : Pending file buf i s)
    (hi : i < (fileEhdr file).phnum.toNat) (htype : (filePhdr file i).type = 1)
    (hpos : ¬0 < (filePhdr file i).filesz) (hc : s.control = .segment i) :
    ∃ t, Segments file fs buf i (i + 1) s t [] := by
  have hlt : i < s.phNum := hk.phNum ▸ hi
  have hstep : step fs buf s = { s with control := .fill i } := by
    simp only [step, hc, hk.phdr_eq hi, if_pos hlt, htype, ne_eq, not_true_eq_false, if_neg hpos,
      ↓reduceIte]
  have hreach := Reaches.step hstep (List.append_nil s.log).symm
  obtain ⟨t, hfill, hcontrol, hpending⟩ :=
    fill_step fs hspared (hk.goto (Nat.le_refl i) (.fill i)) hi htype rfl
  have hzero : ¬0 < (filePhdr file i).filesz.toNat := hpos
  refine ⟨t, segments_single (hreach.trans hfill) hcontrol hpending fun _ k _ hk => ?_⟩
  omega

theorem enters_chunks (fs : Ff σ) (hk : Pending file buf i s)
    (hi : i < (fileEhdr file).phnum.toNat) (htype : (filePhdr file i).type = 1)
    (hpos : 0 < (filePhdr file i).filesz) (hc : s.control = .segment i) :
    step fs buf s = { s with control := .chunk i 0 } := by
  have hlt : i < s.phNum := hk.phNum ▸ hi
  simp only [step, hc, hk.phdr_eq hi, if_pos hlt, htype, ne_eq, not_true_eq_false, if_pos hpos,
    ↓reduceIte]

theorem segment_loaded (h : fs.Contract file pos) (hspared : TableSpared file buf)
    (hk : Pending file buf i s) (hi : i < (fileEhdr file).phnum.toNat)
    (htype : (filePhdr file i).type = 1) (hpos : 0 < (filePhdr file i).filesz)
    (hinside : (filePhdr file i).offset.toNat + (filePhdr file i).filesz.toNat ≤ file.length)
    (hmax : (filePhdr file i).filesz.toNat ≤ maxFilesz) (hc : s.control = .segment i) :
    ∃ t new, Segments file fs buf i (i + 1) s t new := by
  have hstep := enters_chunks fs hk hi htype hpos hc
  have hreach := Reaches.step hstep (List.append_nil s.log).symm
  obtain ⟨t, new, hchunks⟩ := chunks h hspared hi rfl htype hinside hmax
    (filePhdr file i).filesz.toNat (by omega) (hk.goto (Nat.le_refl i) (.chunk i 0)) rfl
  obtain ⟨u, hfill, hcontrol, hpending⟩ :=
    fill_step fs hspared hchunks.pending hi htype hchunks.control
  refine ⟨u, _, segments_single ((hreach.trans hchunks.reaches).trans hfill) hcontrol hpending
    fun _ => ?_⟩
  rw [List.append_nil]
  exact hchunks.brought

/-- The loop over the program headers gets past a segment that is in the file. -/
theorem segment_step (h : fs.Contract file pos) (hspared : TableSpared file buf)
    (hi : i < (fileEhdr file).phnum.toNat)
    (hin : (filePhdr file i).type = 1 → 0 < (filePhdr file i).filesz.toNat →
      (filePhdr file i).offset.toNat + (filePhdr file i).filesz.toNat ≤ file.length ∧
        (filePhdr file i).filesz.toNat ≤ maxFilesz)
    (hk : Pending file buf i s) (hc : s.control = .segment i) :
    ∃ t new, Segments file fs buf i (i + 1) s t new := by
  by_cases htype : (filePhdr file i).type = 1
  · by_cases hpos : 0 < (filePhdr file i).filesz
    · obtain ⟨hinside, hmax⟩ := hin htype hpos
      exact segment_loaded h hspared hk hi htype hpos hinside hmax hc
    · obtain ⟨t, ht⟩ := segment_empty fs hspared hk hi htype hpos hc
      exact ⟨t, [], ht⟩
  · exact ⟨_, _, segment_skipped fs hk hi htype hc⟩

theorem segments (h : fs.Contract file pos) (hspared : TableSpared file buf)
    (hk : Pending file buf 0 s) (hc : s.control = .segment 0) {j : ℕ}
    (hj : j ≤ (fileEhdr file).phnum.toNat)
    (hin : ∀ i, i < j → (filePhdr file i).type = 1 → 0 < (filePhdr file i).filesz.toNat →
      (filePhdr file i).offset.toNat + (filePhdr file i).filesz.toNat ≤ file.length ∧
        (filePhdr file i).filesz.toNat ≤ maxFilesz) :
    ∃ t new, Segments file fs buf 0 j s t new := by
  induction j with
  | zero => exact ⟨s, [], Reaches.refl s, hc, hk, fun k _ hk => absurd hk (Nat.not_lt_zero k)⟩
  | succ j ih =>
    obtain ⟨t, new, hbefore⟩ := ih (Nat.le_of_succ_le hj) fun i hi => hin i (Nat.lt_succ_of_lt hi)
    obtain ⟨u, new', hnow⟩ := segment_step h hspared hj (hin j (Nat.lt_succ_self j))
      hbefore.pending hbefore.control
    exact ⟨u, new ++ new', hbefore.trans hnow⟩

end Segment

end Vp2Motion.Proofs.SegmentLoop
