import Vp2Motion.Firmware.Fatfs.Mount
import Vp2Motion.Proofs.FileSeek

namespace Vp2Motion.Proofs.FileCalls
open Firmware Firmware.Fatfs Fallible FatTable FileRead FileSeek

inductive Call where
  | seek (ofs : BitVec 32)
  | read (btr : BitVec 32)

structure Reply where
  result : FResult
  data : List Byte
deriving DecidableEq

section Interface
variable {σ : Type} (fs : Ff σ)

def call (s : σ) : Call → Reply × σ
  | .seek ofs => (⟨(fs.fLseek ofs s).1, []⟩, (fs.fLseek ofs s).2)
  | .read btr => (⟨(fs.fRead btr s).1, (fs.fRead btr s).2.1⟩, (fs.fRead btr s).2.2)

def replies : List Call → σ → List Reply
  | [], _ => []
  | c :: calls, s => (call fs s c).1 :: replies calls (call fs s c).2

def stateAfter : List Call → σ → σ
  | [], s => s
  | c :: calls, s => stateAfter calls (call fs s c).2

/-- The file pointer and the bytes of a file that nothing happens to. -/
abbrev ideal (file : List Byte) (p : ℕ) (c : Call) : Reply × ℕ := call (Ff.ofFile file) p c

/-- A file object that stands for a file until it is lost, which a failure of the disk has
caused. -/
structure MayFail (file : List Byte) (stands : ℕ → σ → Prop) (lost failed : σ → Prop) :
    Prop where
  call : ∀ p s c, stands p s →
    ((call fs s c).1 = (ideal file p c).1 ∧ stands (ideal file p c).2 (call fs s c).2) ∨
    ((call fs s c).1.result = .diskErr ∧ (call fs s c).1.data <+: (ideal file p c).1.data ∧
      lost (call fs s c).2 ∧ failed (call fs s c).2)
  lost : ∀ s c, lost s → FileCalls.call fs s c = (⟨.intErr, []⟩, s)

variable {fs} {file : List Byte} {stands : ℕ → σ → Prop} {lost failed : σ → Prop}

theorem MayFail.replies_lost (h : MayFail fs file stands lost failed) (hs : lost s)
    (calls : List Call) :
    replies fs calls s = (calls.map fun _ => ⟨.intErr, []⟩) ∧ stateAfter fs calls s = s := by
  induction calls with
  | nil => exact ⟨rfl, rfl⟩
  | cons c calls ih =>
    rw [replies, stateAfter, h.lost s c hs, ih.1, ih.2, List.map_cons]
    exact ⟨rfl, rfl⟩

/-- The replies of a run: those of the file, or of a file that is lost at some call. -/
theorem MayFail.replies (h : MayFail fs file stands lost failed) (hs : stands p s)
    (calls : List Call) :
    replies fs calls s = replies (Ff.ofFile file) calls p ∨
    failed (stateAfter fs calls s) ∧
    ∃ before c after part, calls = before ++ c :: after ∧
      replies fs calls s = replies (Ff.ofFile file) before p ++ ⟨.diskErr, part⟩ ::
        after.map (fun _ => ⟨.intErr, []⟩) ∧
      ∃ whole, replies (Ff.ofFile file) (before ++ [c]) p =
        replies (Ff.ofFile file) before p ++ [⟨.ok, whole⟩] ∧ part <+: whole := by
  induction calls generalizing s p with
  | nil => exact .inl rfl
  | cons c calls ih =>
    simp only [FileCalls.replies, stateAfter]
    rcases h.call p s c hs with ⟨hreply, hstands⟩ | ⟨hresult, hpart, hlost, hfailed⟩
    · rcases ih hstands with hsame |
        ⟨hfailed, before, c', after, part, rfl, hreplies, whole, hwhole, hle⟩
      · exact .inl (by rw [hreply, hsame])
      · refine .inr ⟨hfailed, c :: before, c', after, part, rfl, ?_, whole, ?_, hle⟩
        · rw [hreply, hreplies]
          rfl
        · exact congrArg ((ideal file p c).1 :: ·) hwhole
    · obtain ⟨hreplies, hafter⟩ := h.replies_lost hlost calls
      refine .inr ⟨by rwa [hafter], [], c, calls, (FileCalls.call fs s c).1.data, rfl, ?_,
        (ideal file p c).1.data, ?_, hpart⟩
      · rw [hreplies, ← hresult]
        rfl
      · cases c with
        | seek ofs => rfl
        | read btr => rfl

end Interface

variable {σ : Type} {disk : Disk σ} {ready failed : σ → Prop} {image : ℕ → List Byte} {v : Volume}
  {clusters : List ℕ} {file : List Byte} {s : Fs σ}

/-- The file object between two calls, with its file pointer. -/
structure Stands (ready : σ → Prop) (v : Volume) (image : ℕ → List Byte) (clusters : List ℕ)
    (file : List Byte) (p : ℕ) (s : Fs σ) : Prop where
  sound : Sound ready image v s
  opened : Open v image clusters file s
  fptr : s.fil.fptr = p

/-- A file on a volume is a file until the disk fails. -/
theorem fatfs_may_fail (h : Holds disk ready failed image v.limit)
    (hfile : Stored v image clusters file) :
    MayFail (bootFile disk) file (Stands ready v image clusters file) Aborted
      (fun s => failed s.disk) where
  call p s c hs := by
    obtain ⟨hsound, hopened, rfl⟩ := hs
    cases c with
    | seek ofs =>
      have hspec := f_lseek_spec h hfile hsound hopened ofs.toNat
      rcases result_of_wp hspec with ⟨hok, -, hsound', hopened', hfptr⟩ |
        ⟨hres, -, hfailed, haborted⟩
      · exact .inl ⟨congrArg (Reply.mk · []) hok, hsound', hopened', hfptr⟩
      · exact .inr ⟨hres, List.nil_prefix, haborted, hfailed⟩
    | read btr =>
      rcases f_read_spec h hfile hsound hopened btr.toNat with
        ⟨hok, hdata, hsound', hopened', hfptr⟩ | ⟨⟨hres, -, hfailed, haborted⟩, hpart⟩
      · exact .inl ⟨congrArg₂ Reply.mk hok hdata, hsound', hopened', hfptr⟩
      · exact .inr ⟨hres, hpart, haborted, hfailed⟩
  lost s c hs := by
    cases c with
    | seek ofs =>
      simp only [FileCalls.call, bootFile, f_lseek_aborted hs]
      rfl
    | read btr =>
      simp only [FileCalls.call, bootFile, f_read_aborted hs]

/-- In every run of calls on an open file each call returns what the file gives, up to the
first failure of the disk. The call that meets it reports it, with the bytes that it had,
and every later one is refused. -/
theorem open_file_behaves (h : Holds disk ready failed image v.limit)
    (hfile : Stored v image clusters file) (hs : Sound ready image v s)
    (ho : Open v image clusters file s) (calls : List Call) :
    replies (bootFile disk) calls s = replies (Ff.ofFile file) calls s.fil.fptr ∨
    failed (stateAfter (bootFile disk) calls s).disk ∧
    ∃ before c after part, calls = before ++ c :: after ∧
      replies (bootFile disk) calls s = replies (Ff.ofFile file) before s.fil.fptr ++
        ⟨.diskErr, part⟩ :: after.map (fun _ => ⟨.intErr, []⟩) ∧
      ∃ whole, replies (Ff.ofFile file) (before ++ [c]) s.fil.fptr =
        replies (Ff.ofFile file) before s.fil.fptr ++ [⟨.ok, whole⟩] ∧ part <+: whole :=
  (fatfs_may_fail h hfile).replies ⟨hs, ho, rfl⟩ calls

theorem small_card_stored {file : List Byte} (h : file.length ≤ ss) :
    Stored smallVolume (smallCard file) [2] file where
  linked := List.isChain_singleton 2
  inside c hc := by
    rw [List.mem_singleton.mp hc]
    decide
  data := by
    change file <+: Storage.sectors (smallCard file) 3 1 ++ []
    rw [Storage.sectors_one, List.append_nil, smallCard, List.take_of_length_le h]
    exact List.prefix_append ..
  size := Nat.lt_of_le_of_lt h (by decide)

def chainedFile : List Byte := List.replicate 512 7 ++ List.replicate 88 9

/-- The file starts in cluster 3 and goes on in cluster 2. -/
def chainedCard : ℕ → List Byte
  | 1 => pad [0xF8, 0xFF, 0xFF, 0xFF, 0x2F, 0x00]
  | 3 => pad (List.replicate 88 9)
  | 4 => pad (List.replicate 512 7)
  | _ => pad []

theorem chained_card_size (k : ℕ) : (chainedCard k).length = ss := by
  match k with
  | 0 => exact pad_length (by decide)
  | 1 => exact pad_length (by decide)
  | 2 => exact pad_length (by decide)
  | 3 => exact pad_length (by rw [List.length_replicate]; decide)
  | 4 => exact pad_length (Nat.le_of_eq List.length_replicate)
  | k + 5 => exact pad_length (by decide)

/-- A disk that fails after so many reads. -/
def failingDisk (image : ℕ → List Byte) : Disk ℕ where
  init d := (0, d)
  read sector count d :=
    if d = 0 ∧ 0 < count then (.error, [], 0)
    else (.ok, Storage.sectors image sector count, d - 1)

theorem failing_disk_holds {image : ℕ → List Byte} (hsize : ∀ k, (image k).length = ss)
    (limit : ℕ) : Holds (failingDisk image) (fun _ => True) (· = 0) image limit where
  size := hsize
  stays _ _ _ _ _ _ := trivial
  read sector count d _ _ _ := by
    by_cases hfails : d = 0 ∧ 0 < count
    · have hread : (failingDisk image).read sector count d = (.error, [], 0) := if_pos hfails
      rw [hread]
      exact .inr ⟨by decide, rfl, 0, hfails.2, rfl⟩
    · have hread : (failingDisk image).read sector count d =
          (.ok, Storage.sectors image sector count, d - 1) := if_neg hfails
      rw [hread]
      exact .inl ⟨rfl, rfl⟩

theorem chained_card_stored : Stored smallVolume chainedCard [3, 2] chainedFile where
  linked := by decide +kernel
  inside := by decide
  data := by decide +kernel
  size := by decide +kernel

/-- The file when it has just been opened. -/
def chainedOpened : Fs ℕ where
  disk := 3
  registered := true
  fsid := 1
  fs := ⟨smallVolume.toGeometry, some .fat12, 1, 0, List.replicate ss 0⟩
  fil := ⟨true, 1, faRead, 0, chainedFile.length, 3, 0, 0, List.replicate ss 0⟩

/-- A read across the end of a cluster, and a seek that fails. -/
theorem chained_file_fails :
    replies (bootFile (failingDisk chainedCard)) [.seek 500, .read 50, .seek 10, .read 5]
        chainedOpened =
      [⟨.ok, []⟩, ⟨.ok, List.replicate 12 7 ++ List.replicate 38 9⟩, ⟨.diskErr, []⟩,
        ⟨.intErr, []⟩] ∧
    (stateAfter (bootFile (failingDisk chainedCard)) [.seek 500, .read 50, .seek 10, .read 5]
        chainedOpened).disk = 0 := by
  have hreplies : replies (bootFile (failingDisk chainedCard))
      [.seek 500, .read 50, .seek 10, .read 5] chainedOpened =
      [⟨.ok, []⟩, ⟨.ok, List.replicate 12 7 ++ List.replicate 38 9⟩, ⟨.diskErr, []⟩,
        ⟨.intErr, []⟩] := by
    decide +kernel
  rcases open_file_behaves (failing_disk_holds chained_card_size 5) chained_card_stored
    (s := chainedOpened)
    ⟨trivial, rfl, rfl, fun hne => absurd rfl hne, List.length_replicate ..⟩
    ⟨⟨rfl, rfl, rfl, rfl, rfl, fun hne => absurd rfl hne, List.length_replicate ..⟩,
      Nat.zero_le _, fun hpos => absurd hpos (Nat.lt_irrefl 0), fun hne => absurd rfl hne⟩
    [.seek 500, .read 50, .seek 10, .read 5] with hsame | ⟨hfailed, -⟩
  · have hlast : (replies (Ff.ofFile chainedFile) [.seek 500, .read 50, .seek 10, .read 5]
        chainedOpened.fil.fptr).map Reply.result = [.ok, .ok, .ok, .ok] := by
      decide +kernel
    rw [← hsame, hreplies] at hlast
    cases hlast
  · exact ⟨hreplies, hfailed⟩

end Vp2Motion.Proofs.FileCalls
