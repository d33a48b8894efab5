import Mathlib.Data.BitVec
import Vp2Motion.Firmware.Mmc

namespace Vp2Motion.Firmware

inductive FResult where
  | ok
  | diskErr
  | intErr
  | notReady
  | noFile
  | noPath
  | invalidName
  | denied
  | exist
  | invalidObject
  | writeProtected
  | invalidDrive
  | notEnabled
  | noFilesystem
  | mkfsAborted
  | timeout
  | locked
  | notEnoughCore
  | tooManyOpenFiles
  | invalidParameter
deriving DecidableEq

/-- The calls on one file object. `f_read` delivers bytes to the caller's buffer
and reports how many they are. -/
structure Ff (σ : Type) where
  fOpen : σ → FResult × σ
  fLseek : BitVec 32 → σ → FResult × σ
  fRead : BitVec 32 → σ → FResult × List Byte × σ

/-- What FatFs promises for a file that it can read: a seek is clipped to the
size of the file and a read is cut off at its end, and neither is an error. -/
structure Ff.Contract {σ : Type} (fs : Ff σ) (file : List Byte) (pos : σ → ℕ) : Prop where
  size : file.length < 2 ^ 32
  open_ok : ∀ s, (fs.fOpen s).1 = .ok
  open_pos : ∀ s, pos (fs.fOpen s).2 = 0
  lseek_ok : ∀ ofs s, (fs.fLseek ofs s).1 = .ok
  lseek_pos : ∀ ofs s, pos (fs.fLseek ofs s).2 = min ofs.toNat file.length
  read_ok : ∀ btr s, (fs.fRead btr s).1 = .ok
  read_data : ∀ btr s, (fs.fRead btr s).2.1 = (file.drop (pos s)).take btr.toNat

/-- The file whose state is the file pointer. -/
def Ff.ofFile (file : List Byte) : Ff ℕ where
  fOpen _ := (.ok, 0)
  fLseek ofs _ := (.ok, min ofs.toNat file.length)
  fRead btr fptr :=
    let data := (file.drop fptr).take btr.toNat
    (.ok, data, fptr + data.length)

theorem Ff.of_file_contract {file : List Byte} (h : file.length < 2 ^ 32) :
    (Ff.ofFile file).Contract file id where
  size := h
  open_ok _ := rfl
  open_pos _ := rfl
  lseek_ok _ _ := rfl
  lseek_pos _ _ := rfl
  read_ok _ _ := rfl
  read_data _ _ := rfl

end Vp2Motion.Firmware
