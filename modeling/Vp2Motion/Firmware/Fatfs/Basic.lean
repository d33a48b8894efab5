import Vp2Motion.Fallible.Program
import Vp2Motion.Firmware.Diskio
import Vp2Motion.Firmware.Ff

namespace Vp2Motion.Firmware.Fatfs
open Fallible

/-- What FatFs asks of drive 0. A read gives the bytes that it has stored, which are those
of all sectors unless it fails; `disk_status` is always 0. -/
structure Disk (σ : Type) where
  init : σ → Byte × σ
  read : (sector count : ℕ) → σ → DResult × List Byte × σ

/-- Arithmetic in 32 bits. -/
def dword (n : ℕ) : ℕ := n % 2 ^ 32

/-- `a & b` of two such numbers. -/
def maskWith (a b : BitVec 32) : ℕ := (a &&& b).toNat

/-- The macro `SS`: all sectors have this size. -/
def ss : ℕ := 512

def szDir : ℕ := 32

/-- Little-endian loads. -/
def ldByte (p : List Byte) (i : ℕ) : ℕ := (p.getD i 0).toNat
def ldWord (p : List Byte) (i : ℕ) : ℕ := ldByte p i + 256 * ldByte p (i + 1)
def ldDword (p : List Byte) (i : ℕ) : ℕ := ldWord p i + 65536 * ldWord p (i + 2)

inductive FatType where
  | fat12
  | fat16
  | fat32
deriving DecidableEq

/-- The least numbers of clusters. -/
def minFat16 : ℕ := 4086
def minFat32 : ℕ := 65526

def fatTypeOf (nclst : ℕ) : FatType :=
  if minFat32 ≤ nclst then .fat32 else if minFat16 ≤ nclst then .fat16 else .fat12

/-- What mounting finds out about a volume. -/
structure Geometry where
  csize : ℕ
  nFats : ℕ
  nRootdir : ℕ
  nFatent : ℕ
  fsize : ℕ
  fatbase : ℕ
  dirbase : ℕ
  database : ℕ
deriving DecidableEq

/-- `FATFS`. Without a type it is not mounted. -/
structure FatFs extends Geometry where
  fsType : Option FatType
  id : ℕ
  winsect : ℕ
  win : List Byte

def faRead : Byte := 0x01
def faError : Byte := 0x80

/-- `FIL`; `fs` tells whether the pointer is set. -/
structure Fil where
  fs : Bool
  id : ℕ
  flag : Byte
  fptr : ℕ
  fsize : ℕ
  sclust : ℕ
  clust : ℕ
  dsect : ℕ
  buf : List Byte

/-- The disk, the objects `Fatfs` and `Fil` of the boot loader and the globals `FatFs[0]`
and `Fsid` of FatFs. -/
structure Fs (σ : Type) where
  disk : σ
  registered : Bool
  fsid : ℕ
  fs : FatFs
  fil : Fil

variable {σ : Type} (disk : Disk σ)

/-- A function that returns an `FRESULT` fails with it. -/
abbrev FfM (σ α : Type) := Prog FResult (Fs σ) α

/-- The `FRESULT` of a call and the state after it. -/
def resultOf {α : Type} (r : Except FResult α × Fs σ) : FResult × Fs σ :=
  match r.1 with
  | .ok _ => (.ok, r.2)
  | .error res => (res, r.2)

def diskRead (sector count : ℕ) : FfM σ (DResult × List Byte) := fun s =>
  (.ok ((disk.read sector count s.disk).1, (disk.read sector count s.disk).2.1),
    { s with disk := (disk.read sector count s.disk).2.2 })

/-- A buffer after bytes have been stored at its start. -/
def overwrite (data buff : List Byte) : List Byte := data ++ buff.drop data.length

def moveWindow (sector : ℕ) : FfM σ Unit := do
  let s ← get
  if s.fs.winsect ≠ sector ∧ sector ≠ 0 then do
    let r ← diskRead disk sector 1
    modify fun s => { s with fs := { s.fs with win := overwrite r.2 s.fs.win } }
    if r.1 ≠ .ok then throw .diskErr
    else modify fun s => { s with fs := { s.fs with winsect := sector } }
  else pure ()

/-- The first sector of a cluster, or 0. -/
def clust2sect (fs : Geometry) (clst : ℕ) : ℕ :=
  let clst := dword (clst + (2 ^ 32 - 2))
  if dword (fs.nFatent + (2 ^ 32 - 2)) ≤ clst then 0 else dword (clst * fs.csize + fs.database)

/-- The result of `get_fat` after an error of the disk. -/
def fatError : ℕ := 0xFFFFFFFF

/-- The three formats of an entry of the table. -/
def fatEntry (fs : FatFs) (clst : ℕ) : FfM σ ℕ :=
  match fs.fsType with
  | some .fat12 => do
    let bc := dword (clst + clst / 2)
    moveWindow disk (dword (fs.fatbase + bc / ss))
    let low := ldByte (← get).fs.win (bc % ss)
    let bc := dword (bc + 1)
    moveWindow disk (dword (fs.fatbase + bc / ss))
    let wc := low + 256 * ldByte (← get).fs.win (bc % ss)
    return if clst % 2 = 1 then wc / 16 else wc % 4096
  | some .fat16 => do
    moveWindow disk (dword (fs.fatbase + clst / (ss / 2)))
    return ldWord (← get).fs.win (clst * 2 % ss)
  | some .fat32 => do
    moveWindow disk (dword (fs.fatbase + clst / (ss / 4)))
    return ldDword (← get).fs.win (clst * 4 % ss) % 2 ^ 28
  | none => return fatError

def getFat (clst : ℕ) : FfM σ ℕ := do
  let s ← get
  if clst < 2 ∨ s.fs.nFatent ≤ clst then return 1
  else orElse (fatEntry disk s.fs clst) fatError

/-- `validate`. -/
def validate : FfM σ Unit := do
  let s ← get
  if s.fil.fs = false ∨ s.fs.fsType = none ∨ s.fs.id ≠ s.fil.id then throw .invalidObject
  else pure ()

/-- The macro `ABORT`. -/
def abort {α : Type} (res : FResult) : FfM σ α := do
  modify fun s => { s with fil := { s.fil with flag := s.fil.flag ||| faError } }
  throw res

end Vp2Motion.Firmware.Fatfs
