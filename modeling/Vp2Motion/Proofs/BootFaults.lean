import Vp2Motion.Proofs.LoadedImage
import Vp2Motion.Proofs.PathOpen

namespace Vp2Motion.Proofs.BootFaults
open Memory Firmware FileCalls LoaderSteps

variable {σ : Type} {fs : Ff σ} {file : List Byte} {stands : ℕ → σ → Prop}
  {lost failed : σ → Prop} {buf : BitVec 32} {a : Loader ℕ} {c : Loader σ}

/-- The call is where the one on the file itself is. -/
structure Same (stands : ℕ → σ → Prop) (a : Loader ℕ) (c : Loader σ) : Prop where
  fil : stands a.fil c.fil
  mem : c.mem = a.mem
  phOffset : c.phOffset = a.phOffset
  phNum : c.phNum = a.phNum
  phSize : c.phSize = a.phSize
  control : c.control = a.control
  count : c.count = a.count
  log : c.log = a.log

/-- It has been given up, after a failure of the disk. -/
def GivenUp (failed : σ → Prop) (c : Loader σ) : Prop :=
  c.control = .returned (-1) ∧ failed c.fil

theorem Same.phdr (h : Same stands a c) (i : ℕ) : c.phdr buf i = a.phdr buf i := by
  simp only [Loader.phdr, Loader.phdrAddress, h.mem, h.phOffset, h.phSize]

/-- A seek either works in both or ends the call. -/
theorem MayFail.seek (h : MayFail fs file stands lost failed) (hs : stands p s) (ofs : BitVec 32) :
    ((fs.fLseek ofs s).1 = .ok ∧
      stands ((Ff.ofFile file).fLseek ofs p).2 (fs.fLseek ofs s).2) ∨
    (fs.fLseek ofs s).1 ≠ .ok ∧ failed (fs.fLseek ofs s).2 := by
  rcases h.call p s (.seek ofs) hs with ⟨hreply, hstands⟩ | ⟨hresult, -, -, hfailed⟩
  · exact .inl ⟨congrArg Reply.result hreply, hstands⟩
  · refine .inr ⟨?_, hfailed⟩
    change (fs.fLseek ofs s).1 = .diskErr at hresult
    rw [hresult]
    decide

theorem MayFail.read (h : MayFail fs file stands lost failed) (hs : stands p s) (btr : BitVec 32) :
    ((fs.fRead btr s).1 = .ok ∧ (fs.fRead btr s).2.1 = ((Ff.ofFile file).fRead btr p).2.1 ∧
      stands ((Ff.ofFile file).fRead btr p).2.2 (fs.fRead btr s).2.2) ∨
    (fs.fRead btr s).1 ≠ .ok ∧ failed (fs.fRead btr s).2.2 := by
  rcases h.call p s (.read btr) hs with ⟨hreply, hstands⟩ | ⟨hresult, -, -, hfailed⟩
  · exact .inl ⟨congrArg Reply.result hreply, congrArg Reply.data hreply, hstands⟩
  · refine .inr ⟨?_, hfailed⟩
    change (fs.fRead btr s).1 = .diskErr at hresult
    rw [hresult]
    decide

theorem read_chunk_same (h : MayFail fs file stands lost failed) (hs : Same stands a c) (p : Phdr)
    (i : ℕ) (chunk : BitVec 32) :
    Same stands (readChunk (Ff.ofFile file) p i chunk a) (readChunk fs p i chunk c) ∨
      GivenUp failed (readChunk fs p i chunk c) := by
  unfold readChunk
  rcases MayFail.seek h hs.fil (p.offset + chunk) with ⟨hok, hstands⟩ | ⟨hfail, hfailed⟩
  · simp only [hok, ne_eq, not_true_eq_false, ↓reduceIte]
    rcases MayFail.read h hstands (toRead p.filesz chunk) with
      ⟨hok', hdata, hstands'⟩ | ⟨hfail', hfailed⟩
    · refine .inl ⟨hstands', ?_, hs.phOffset, hs.phNum, hs.phSize, ?_, hs.count, ?_⟩
      · exact congrArg₂ (fun m d => put m (p.vaddr + chunk) d) hs.mem hdata
      · exact if_neg (by rw [hok']; decide)
      · exact congrArg₂ (fun l d => l ++ [⟨p.offset + chunk, p.vaddr + chunk, List.length d⟩])
          hs.log hdata
    · exact .inr ⟨if_pos hfail', hfailed⟩
  · simp only [ne_eq, hfail, not_false_eq_true, ↓reduceIte]
    exact .inr ⟨rfl, hfailed⟩

theorem step_same (h : MayFail fs file stands lost failed) (hs : Same stands a c) :
    Same stands (step (Ff.ofFile file) buf a) (step fs buf c) ∨ GivenUp failed (step fs buf c) := by
  have hchunk := read_chunk_same h hs
  have hphdr : ∀ i, c.phdr buf i = a.phdr buf i := hs.phdr
  obtain ⟨mem, p, phOffset, phNum, phSize, control, count, log⟩ := a
  obtain ⟨mem, fil, phOffset, phNum, phSize, control, count, log⟩ := c
  obtain ⟨hfil, rfl, rfl, rfl, rfl, rfl, rfl, rfl⟩ := hs
  cases control with
  | segment i =>
    left
    simp only [step, hphdr]
    split
    · split
      · exact ⟨hfil, rfl, rfl, rfl, rfl, rfl, rfl, rfl⟩
      · split
        · exact ⟨hfil, rfl, rfl, rfl, rfl, rfl, rfl, rfl⟩
        · exact ⟨hfil, rfl, rfl, rfl, rfl, rfl, rfl, rfl⟩
    · exact ⟨hfil, rfl, rfl, rfl, rfl, rfl, rfl, rfl⟩
  | chunk i chunk =>
    simp only [step, hphdr]
    split
    · exact hchunk _ i chunk
    · exact .inl ⟨hfil, rfl, rfl, rfl, rfl, rfl, rfl, rfl⟩
  | fill i => exact .inl ⟨hfil, rfl, rfl, rfl, rfl, rfl, rfl, rfl⟩
  | returned r => exact .inl ⟨hfil, rfl, rfl, rfl, rfl, rfl, rfl, rfl⟩
  | jumped entry => exact .inl ⟨hfil, rfl, rfl, rfl, rfl, rfl, rfl, rfl⟩

/-- Opening the file either finds it at its start or ends the call. -/
def Opens (fs : Ff σ) (stands : ℕ → σ → Prop) (failed : σ → Prop) (s : σ) : Prop :=
  ((fs.fOpen s).1 = .ok ∧ stands 0 (fs.fOpen s).2) ∨
    (fs.fOpen s).1 ≠ .ok ∧ failed (fs.fOpen s).2

theorem open_elf_same (h : MayFail fs file stands lost failed) (hopens : Opens fs stands failed s)
    (mem : Store 32) (p : ℕ) :
    Same stands (openElf (Ff.ofFile file) buf mem p) (openElf fs buf mem s) ∨
      GivenUp failed (openElf fs buf mem s) := by
  unfold openElf
  rcases hopens with ⟨hok, hstands⟩ | ⟨hfail, hfailed⟩
  · simp only [hok, ne_eq, not_true_eq_false, ↓reduceIte]
    rcases MayFail.read h hstands (BitVec.ofNat 32 mmcBlockSize) with
      ⟨hok', hdata, hstands'⟩ | ⟨hfail', hfailed⟩
    · have hopen : (Ff.ofFile file).fOpen p = (.ok, 0) := rfl
      have hideal : ((Ff.ofFile file).fRead (BitVec.ofNat 32 mmcBlockSize) 0).1 = .ok := rfl
      simp only [hok', hdata, hopen, hideal, not_true_eq_false, false_or, ↓reduceIte]
      left
      split
      · exact ⟨hstands', rfl, rfl, rfl, rfl, rfl, rfl, rfl⟩
      · exact ⟨hstands', rfl, rfl, rfl, rfl, rfl, rfl, rfl⟩
    · simp only [hfail', not_false_eq_true, true_or, ↓reduceIte]
      exact .inr ⟨rfl, hfailed⟩
  · simp only [ne_eq, hfail, not_false_eq_true, ↓reduceIte]
    exact .inr ⟨rfl, hfailed⟩

/-- Step by step the call does what it does on the file itself, unless it has been given
up. -/
theorem bootelf_same (h : MayFail fs file stands lost failed) (hopens : Opens fs stands failed s)
    (mem : Store 32) (p n : ℕ) :
    Same stands (bootelf (Ff.ofFile file) buf mem p n) (bootelf fs buf mem s n) ∨
      GivenUp failed (bootelf fs buf mem s n) := by
  induction n with
  | zero => exact open_elf_same h hopens mem p
  | succ n ih =>
    rw [bootelf, bootelf, Function.iterate_succ_apply', Function.iterate_succ_apply']
    rcases ih with hsame | hgiven
    · exact step_same h hsame
    · right
      change GivenUp failed (step fs buf (bootelf fs buf mem s n))
      rw [step_returned hgiven.1]
      exact hgiven

section Volume
open Firmware.Fatfs FatTable DirSearch BootRecord PathOpen ElfHeaders
variable {τ : Type} {disk : Disk τ} {ready failed : τ → Prop} {image : ℕ → List Byte} {v : Volume}
  {s : Fs τ}

/-- The call starts the image, whole, or gives up after a failure of the disk. -/
structure Boots (disk : Disk τ) (failed : τ → Prop) (file : List Byte) (own : BitVec 32 → Prop)
    (buf : BitVec 32) (mem : Store 32) (s : Fs τ) : Prop where
  ends : ∃ n, (bootelf (bootFile disk) buf mem s n).control = .jumped (fileEhdr file).entry ∨
    (bootelf (bootFile disk) buf mem s n).control = .returned (-1) ∧
      failed (bootelf (bootFile disk) buf mem s n).fil.disk
  whole : ∀ n entry, (bootelf (bootFile disk) buf mem s n).control = .jumped entry →
    entry = (fileEhdr file).entry ∧
    ∀ a, ¬own a → (bootelf (bootFile disk) buf mem s n).mem a =
      LoadedImage.image file (fileEhdr file).phnum.toNat mem a

theorem boots_file (h : Holds disk ready failed image limit)
    (hstarts : Starts disk ready failed s.disk) (hlimit : v.limit ≤ limit)
    (hpart : PartitionInside image limit) (hc : Carries image v) (hroot : Rooted v)
    (hfile : HasFile v image bootElf clusters file) (helf : LoadedImage.WellFormed file own)
    (hown : LoadedImage.Owns own buf) (hwin : s.fs.win.length = ss)
    (hbuf : s.fil.buf.length = ss) (mem : Store 32) :
    Boots disk failed file own buf mem s := by
  have hmay := fatfs_may_fail (h.mono hlimit) hfile.stored
  have hopens : Opens (bootFile disk) (Stands ready v image clusters file)
      (fun s => failed s.disk) s :=
    boot_file_opens h hstarts hlimit hpart hc hroot hfile hwin hbuf
  have hcontract := Ff.of_file_contract hfile.stored.size
  have hopened := opened hcontract helf.magic buf mem 0
  have hstart := LoadedImage.loading_opened hcontract helf buf mem 0
  have hloaded : ∀ n entry, (bootelf (Ff.ofFile file) buf mem 0 n).control = .jumped entry →
      entry = (fileEhdr file).entry ∧ ∀ a, ¬own a → (bootelf (Ff.ofFile file) buf mem 0 n).mem a =
        LoadedImage.image file (fileEhdr file).phnum.toNat mem a := by
    intro n entry hjumped
    have hprogress := (hstart.iterate hcontract helf hown n).progress
    rw [bootelf] at hjumped ⊢
    rw [hjumped] at hprogress
    refine ⟨hprogress.1, ?_⟩
    intro a ha
    rw [hprogress.2]
    exact LoadedImage.image_congr _ (hown.put_outside ha)
  constructor
  · obtain ⟨n, entry, hjumped, -⟩ := Bootelf.ends_jumped hcontract
      ((helf.spared hown).table helf.headers) (SegmentLoop.pending_of_opened hopened helf.headers)
      hopened.control helf.segments_in
    refine ⟨n, ?_⟩
    rcases bootelf_same hmay hopens mem 0 n with hsame | hgiven
    · left
      rw [hsame.control, ← (hloaded n entry hjumped).1]
      exact hjumped
    · exact .inr hgiven
  · intro n entry hjumped
    rcases bootelf_same hmay hopens mem 0 n with hsame | hgiven
    · rw [hsame.control] at hjumped
      rw [hsame.mem]
      exact hloaded n entry hjumped
    · rw [hgiven.1] at hjumped
      cases hjumped

/-- A well-formed image on a volume is started with all of its segments in memory, unless
the disk fails on the way: the call returns -1 then, and never gets anything else started. -/
theorem starts_file_or_returns (h : Holds disk ready failed image limit)
    (hstarts : Starts disk ready failed s.disk) (hlimit : v.limit ≤ limit)
    (hpart : PartitionInside image limit) (hc : Carries image v) (hroot : Rooted v)
    (hfile : HasFile v image bootElf clusters file) (helf : LoadedImage.WellFormed file own)
    (hown : LoadedImage.Owns own buf) (hwin : s.fs.win.length = ss)
    (hbuf : s.fil.buf.length = ss) (mem : Store 32) :
    (∃ n, (bootelf (bootFile disk) buf mem s n).control = .jumped (fileEhdr file).entry ∨
      (bootelf (bootFile disk) buf mem s n).control = .returned (-1) ∧
        failed (bootelf (bootFile disk) buf mem s n).fil.disk) ∧
    ∀ n entry, (bootelf (bootFile disk) buf mem s n).control = .jumped entry →
      entry = (fileEhdr file).entry ∧
      ∀ a, ¬own a → (bootelf (bootFile disk) buf mem s n).mem a =
        LoadedImage.image file (fileEhdr file).phnum.toNat mem a := by
  have hboots := boots_file h hstarts hlimit hpart hc hroot hfile helf hown hwin hbuf mem
  exact ⟨hboots.ends, hboots.whole⟩

theorem small_elf_has_file :
    HasFile smallVolume (smallCard Bootelf.smallElf) bootElf [2] Bootelf.smallElf := by
  have hsearch : search smallVolume (smallCard Bootelf.smallElf) 0 bootName.fn =
      .ok smallEntry := by decide +kernel
  have hstrip : stripHeading bootElf = bootElf := by decide
  refine ⟨small_card_stored (by decide), smallEntry, ?_, by decide, by decide⟩
  rw [fileEntry, hstrip, if_neg (by decide), resolve_name boot_name, hsearch]
  decide

theorem small_elf_started :
    ∃ n, (bootelf (bootFile (steadyDisk (smallCard Bootelf.smallElf))) 0xFFFC0000
      (fun _ => 0xFF) (blankFs ()) n).control = .jumped 0x100 := by
  obtain ⟨n, hjumped | ⟨-, hfailed⟩⟩ := (starts_file_or_returns (s := blankFs ())
    (steady_disk_holds (small_card_size Bootelf.smallElf) 5) (small_starts _)
    (Nat.le_refl 5) (small_partition Bootelf.smallElf 5) (small_card_carries Bootelf.smallElf)
    small_rooted small_elf_has_file LoadedImage.small_elf_well_formed
    (LoadedImage.owns_in_buf 0xFFFC0000) (List.length_replicate ..) (List.length_replicate ..)
    fun _ => 0xFF).1
  · exact ⟨n, hjumped⟩
  · exact hfailed.elim

end Volume

end Vp2Motion.Proofs.BootFaults
