import Vp2Motion.Firmware.Fatfs.Directory
import Vp2Motion.Firmware.Fatfs.File

namespace Vp2Motion.Firmware.Fatfs
open Fallible

/-- The results 0 to 3 of `check_fs`. -/
inductive BootKind where
  | fat
  | other
  | none
  | error
deriving DecidableEq

/-- The string `FAT` at an offset. -/
def saysFat (win : List Byte) (offset : ℕ) : Prop := ldDword win offset % 2 ^ 24 = 0x544146

instance (win : List Byte) (offset : ℕ) : Decidable (saysFat win offset) :=
  inferInstanceAs (Decidable (_ = _))

def bootKind (win : List Byte) : BootKind :=
  if ldWord win 510 ≠ 0xAA55 then .none
  else if saysFat win 54 ∨ saysFat win 82 then .fat
  else .other

def bpbBytsPerSec (win : List Byte) : ℕ := ldWord win 11
def bpbSecPerClus (win : List Byte) : ℕ := ldByte win 13
def bpbRsvdSecCnt (win : List Byte) : ℕ := ldWord win 14
def bpbNumFats (win : List Byte) : ℕ := ldByte win 16
def bpbRootEntCnt (win : List Byte) : ℕ := ldWord win 17
def bpbTotSec16 (win : List Byte) : ℕ := ldWord win 19
def bpbFatSz16 (win : List Byte) : ℕ := ldWord win 22
def bpbTotSec32 (win : List Byte) : ℕ := ldDword win 32
def bpbFatSz32 (win : List Byte) : ℕ := ldDword win 36
def bpbRootClus (win : List Byte) : ℕ := ldDword win 44

/-- The sectors of one table. -/
def fatSectors (win : List Byte) : ℕ :=
  if bpbFatSz16 win = 0 then bpbFatSz32 win else bpbFatSz16 win

/-- `tsect`. -/
def totalSectors (win : List Byte) : ℕ :=
  if bpbTotSec16 win = 0 then bpbTotSec32 win else bpbTotSec16 win

/-- `fasize`: the sectors of all tables. -/
def fatArea (win : List Byte) : ℕ := dword (fatSectors win * bpbNumFats win)

/-- `sysect`: all that is before the clusters. -/
def systemSectors (win : List Byte) : ℕ :=
  dword (dword (bpbRsvdSecCnt win + fatArea win) + bpbRootEntCnt win / perSector)

def clusterCount (win : List Byte) : ℕ :=
  (totalSectors win - systemSectors win) / bpbSecPerClus win

/-- `szbfat`: the bytes that the entries need. -/
def requiredTable (type : FatType) (nFatent : ℕ) : ℕ :=
  match type with
  | .fat32 => dword (nFatent * 4)
  | .fat16 => dword (nFatent * 2)
  | .fat12 => dword (dword (nFatent * 3) / 2 + nFatent % 2)

/-- The table is too small for its entries. -/
def tableTooSmall (win : List Byte) (type : FatType) (nFatent : ℕ) : Prop :=
  fatSectors win < dword (requiredTable type nFatent + (ss - 1)) / ss

instance (win : List Byte) (type : FatType) (nFatent : ℕ) :
    Decidable (tableTooSmall win type nFatent) := inferInstanceAs (Decidable (_ < _))

/-- The checks of a boot record before the number of clusters is known. -/
def recordRejected (win : List Byte) : Prop :=
  bpbBytsPerSec win ≠ ss ∨ (bpbNumFats win ≠ 1 ∧ bpbNumFats win ≠ 2) ∨
    (bpbSecPerClus win = 0 ∨
      maskWith (BitVec.ofNat 32 (bpbSecPerClus win)) (BitVec.ofNat 32 (bpbSecPerClus win) - 1) ≠ 0) ∨
    bpbRootEntCnt win % perSector ≠ 0 ∨ bpbRsvdSecCnt win = 0 ∨
    totalSectors win < systemSectors win ∨ clusterCount win = 0

instance (win : List Byte) : Decidable (recordRejected win) :=
  inferInstanceAs (Decidable (_ ∨ _))

/-- Only FAT32 has no area for the root directory. -/
def rootRejected (win : List Byte) (type : FatType) : Prop :=
  type = .fat32 ∧ bpbRootEntCnt win ≠ 0 ∨ type ≠ .fat32 ∧ bpbRootEntCnt win = 0

instance (win : List Byte) (type : FatType) : Decidable (rootRejected win type) :=
  inferInstanceAs (Decidable (_ ∨ _))

/-- The file system object from a boot record in sector `bsect`, or `FR_NO_FILESYSTEM`. -/
def geometryOf (win : List Byte) (bsect : ℕ) : Option (FatType × Geometry) :=
  if recordRejected win then none
  else
    let type := fatTypeOf (clusterCount win)
    let nFatent := dword (clusterCount win + 2)
    let fatbase := dword (bsect + bpbRsvdSecCnt win)
    if rootRejected win type then none
    else if tableTooSmall win type nFatent then none
    else some (type, {
      csize := bpbSecPerClus win
      nFats := bpbNumFats win
      nRootdir := bpbRootEntCnt win
      nFatent := nFatent
      fsize := fatSectors win
      fatbase := fatbase
      dirbase := if type = .fat32 then bpbRootClus win else dword (fatbase + fatArea win)
      database := dword (bsect + systemSectors win) })

variable {σ : Type} (disk : Disk σ)

def checkFs (sect : ℕ) : FfM σ BootKind := do
  let r ← diskRead disk sect 1
  modify fun s => { s with fs := { s.fs with win := overwrite r.2 s.fs.win } }
  if r.1 ≠ .ok then return .error
  else do
    let s ← get
    return bootKind s.fs.win

/-- The boot record, in sector 0 or where the first partition starts. -/
def findVolume : FfM σ (BootKind × ℕ) := do
  let fmt ← checkFs disk 0
  if fmt = .other then do
    let s ← get
    if ldByte s.fs.win 450 ≠ 0 then do
      let bsect := ldDword s.fs.win 454
      let fmt ← checkFs disk bsect
      return (fmt, bsect)
    else return (fmt, 0)
  else return (fmt, 0)

def diskInit : FfM σ Byte := fun s =>
  (.ok (disk.init s.disk).1, { s with disk := (disk.init s.disk).2 })

/-- The second half of `chk_mounted`. A volume that cannot be mounted has no type; the other
fields are then not read before they are set again. -/
def mountVolume : FfM σ Unit := do
  modify fun s => { s with fs := { s.fs with fsType := none } }
  let stat ← diskInit disk
  if stat &&& staNoinit ≠ 0 then throw .notReady
  else do
    let found ← findVolume disk
    if found.1 = .error then throw .diskErr
    else if found.1 ≠ .fat then throw .noFilesystem
    else do
      let s ← get
      match geometryOf s.fs.win found.2 with
      | none => throw .noFilesystem
      | some (type, geometry) =>
        modify fun s => { s with
          fsid := (s.fsid + 1) % 2 ^ 16
          fs := { toGeometry := geometry, fsType := some type, id := (s.fsid + 1) % 2 ^ 16,
                  winsect := 0, win := s.fs.win } }

/-- The drive number of a path and what is behind it. -/
def driveOf (path : List Byte) : ℕ × List Byte :=
  match path with
  | d :: c :: rest =>
    if 0x30 ≤ d ∧ d ≤ 0x39 ∧ c = 0x3A then ((d - 0x30).toNat, rest) else (0, path)
  | _ => (0, path)

/-- `chk_mounted`, with the path behind the drive number. -/
def chkMounted (path : List Byte) : FfM σ (List Byte) := do
  let s ← get
  if 1 ≤ (driveOf path).1 then throw .invalidDrive
  else if s.registered = false then throw .notEnabled
  else if s.fs.fsType ≠ none then return (driveOf path).2
  else do
    mountVolume disk
    return (driveOf path).2

/-- `f_mount` of drive 0. -/
def fMount (s : Fs σ) : Fs σ :=
  { s with registered := true, fs := { s.fs with fsType := none } }

def blankDir : Dir := ⟨[], 0, 0, 0, 0, 0, none⟩

/-- The file object from the entry that was found. -/
def takeEntry (mode : Byte) (dj : Dir) : FfM σ Unit := do
  let s ← get
  match dj.dir with
  | none => throw .invalidName
  | some offset =>
    let dir := entryAt s.fs.win offset
    if dirAttr dir &&& amDir ≠ 0 then throw .noFile
    else modify fun s => { s with
      fil := { s.fil with
        fs := true, id := s.fs.id, flag := mode &&& faRead, fptr := 0
        sclust := ldClust s.fs.fsType dir, fsize := dirFileSize dir, dsect := 0 } }

/-- `f_open`. -/
def fOpen (path : List Byte) (mode : Byte) : FfM σ Unit := do
  modify fun s => { s with fil := { s.fil with fs := false } }
  let path ← chkMounted disk path
  let dj ← followPath disk blankDir path
  takeEntry mode dj

/-- The name `boot.elf`. -/
def bootElf : List Byte := [0x62, 0x6F, 0x6F, 0x74, 0x2E, 0x65, 0x6C, 0x66]

/-- FatFs as the boot loader calls it: `f_mount` and `f_open` of its file, `f_lseek` and
`f_read`. -/
def bootFile : Ff (Fs σ) where
  fOpen s := resultOf (fOpen disk bootElf faRead (fMount s))
  fLseek ofs s := resultOf (fLseek disk ofs.toNat s)
  fRead btr s := fRead disk btr.toNat s

end Vp2Motion.Firmware.Fatfs
