import Mathlib.Data.Nat.Find
import Vp2Motion.Proofs.SegmentLoop

namespace Vp2Motion.Proofs.Bootelf
open Memory Firmware ElfHeaders LoaderSteps SegmentLoop

variable {σ : Type} {fs : Ff σ} {file : List Byte} {pos : σ → ℕ} {buf : BitVec 32} {s : Loader σ}

/-- Moreover none is too large for the chunk loop. -/
def SegmentsIn (file : List Byte) : Prop :=
  ∀ i, i < (fileEhdr file).phnum.toNat → (filePhdr file i).type = 1 →
    0 < (filePhdr file i).filesz.toNat →
    (filePhdr file i).offset.toNat + (filePhdr file i).filesz.toNat ≤ file.length ∧
      (filePhdr file i).filesz.toNat ≤ maxFilesz

/-- With all chunk loops ending, the call starts the program. -/
theorem ends_jumped (h : fs.Contract file pos) (hspared : TableSpared file buf)
    (hk : Pending file buf 0 s) (hc : s.control = .segment 0) (hin : SegmentsIn file) :
    ∃ n entry, ((step fs buf)^[n] s).control = .jumped entry ∧
      AllDelivered file ((step fs buf)^[n] s).log := by
  obtain ⟨t, new, hsegments⟩ := segments h hspared hk hc (Nat.le_refl _) hin
  obtain ⟨n, hn⟩ := hsegments.reaches.steps
  have hstep : step fs buf t = { t with control := .jumped (ehdr t.mem buf).entry } := by
    simp only [step, hsegments.control, hsegments.pending.phNum, Nat.lt_irrefl, ↓reduceIte]
  refine ⟨n + 1, (ehdr t.mem buf).entry, ?_⟩
  rw [Function.iterate_succ_apply', hn, hstep]
  refine ⟨rfl, ?_⟩
  intro i hi htype
  refine Brought.mono (hsegments.brought i (Nat.zero_le i) hi htype) fun r hr => ?_
  change r ∈ t.log
  rw [hsegments.reaches.log]
  exact List.mem_append_right _ hr

/-- An image with one segment of four bytes, to be loaded at `0x100`. -/
def smallElf : List Byte :=
  elfmag ++ List.replicate 20 0 ++ [0, 0, 1, 0] ++ [0, 0, 0, 52] ++ List.replicate 10 0 ++
    [0, 32] ++ [0, 1] ++ List.replicate 6 0 ++
    [0, 0, 0, 1] ++ [0, 0, 0, 84] ++ [0, 0, 1, 0] ++ List.replicate 4 0 ++ [0, 0, 0, 4] ++
    [0, 0, 0, 8] ++ List.replicate 8 0 ++ [0x48, 0, 0, 0]

/-- An image with two segments, the first of which is loaded over the header of the
second and makes its type 0. -/
def erasingElf : List Byte :=
  elfmag ++ List.replicate 20 0 ++ [0, 0, 1, 0] ++ [0, 0, 0, 52] ++ List.replicate 10 0 ++
    [0, 32] ++ [0, 2] ++ List.replicate 6 0 ++
    [0, 0, 0, 1] ++ [0, 0, 0, 116] ++ [0xFF, 0xFC, 0, 84] ++ List.replicate 4 0 ++ [0, 0, 0, 4] ++
    [0, 0, 0, 4] ++ List.replicate 8 0 ++
    [0, 0, 0, 1] ++ [0, 0, 0, 120] ++ [0, 0, 1, 0] ++ List.replicate 4 0 ++ [0, 0, 0, 4] ++
    [0, 0, 0, 4] ++ List.replicate 8 0 ++ [0, 0, 0, 0] ++ [0x48, 0, 0, 0]

set_option maxRecDepth 2000 in
/-- The condition on the table is needed: the second segment is skipped, although headers and
segments are all in the file. -/
theorem erased_header_started :
    HeadersIn erasingElf ∧ SegmentsIn erasingElf ∧
      ¬Meets (Ff.ofFile erasingElf) erasingElf 0xFFFC0000 (fun _ => 0) 0 := by
  refine ⟨⟨by decide +kernel, by decide +kernel⟩, by unfold SegmentsIn; decide +kernel, ?_⟩
  have hsize : erasingElf.length < 2 ^ 32 := by decide +kernel
  rw [meets_iff (Ff.of_file_contract hsize) (by decide +kernel)]
  rintro ⟨-, n, entry, hjumped, hdelivered⟩
  have hstarted : (bootelf (Ff.ofFile erasingElf) 0xFFFC0000 (fun _ => 0) 0 6).control =
      .jumped 0x100 := by rfl
  have hlog : (bootelf (Ff.ofFile erasingElf) 0xFFFC0000 (fun _ => 0) 0 6).log =
      [⟨116, 0xFFFC0054, 4⟩] := by rfl
  have hp : filePhdr erasingElf 1 = ⟨1, 120, 0x100, 4, 4⟩ := by rfl
  rw [bootelf, jumped_unique hjumped hstarted, ← bootelf, hlog] at hdelivered
  obtain ⟨r, hr, d, hd, hoffset, -⟩ :=
    hdelivered 1 (by decide +kernel) (by rw [hp]) 0 (Nat.zero_le 0) (by rw [hp]; decide)
  rw [List.mem_singleton.mp hr, hp] at hoffset
  rw [List.mem_singleton.mp hr] at hd
  change 116 + d = 120 + 0 at hoffset
  change d < 4 at hd
  omega

end Vp2Motion.Proofs.Bootelf
