import Vp2Motion.Firmware.Fatfs.Basic

namespace Vp2Motion.Firmware.Fatfs
open Fallible

/-- Upper case of the characters from 0x80 on, for code page 1251. -/
def excvt : List Byte := [
  0x80, 0x81, 0x82, 0x82, 0x84, 0x85, 0x86, 0x87, 0x88, 0x89, 0x8A, 0x8B, 0x8C, 0x8D, 0x8E, 0x8F,
  0x80, 0x91, 0x92, 0x93, 0x94, 0x95, 0x96, 0x97, 0x98, 0x99, 0x8A, 0x9B, 0x8C, 0x8D, 0x8E, 0x8F,
  0xA0, 0xA2, 0xA2, 0xA3, 0xA4, 0xA5, 0xA6, 0xA7, 0xA8, 0xA9, 0xAA, 0xAB, 0xAC, 0xAD, 0xAE, 0xAF,
  0xB0, 0xB1, 0xB2, 0xB2, 0xA5, 0xB5, 0xB6, 0xB7, 0xA8, 0xB9, 0xAA, 0xBB, 0xA3, 0xBD, 0xBD, 0xAF,
  0xC0, 0xC1, 0xC2, 0xC3, 0xC4, 0xC5, 0xC6, 0xC7, 0xC8, 0xC9, 0xCA, 0xCB, 0xCC, 0xCD, 0xCE, 0xCF,
  0xD0, 0xD1, 0xD2, 0xD3, 0xD4, 0xD5, 0xD6, 0xD7, 0xD8, 0xD9, 0xDA, 0xDB, 0xDC, 0xDD, 0xDE, 0xDF,
  0xC0, 0xC1, 0xC2, 0xC3, 0xC4, 0xC5, 0xC6, 0xC7, 0xC8, 0xC9, 0xCA, 0xCB, 0xCC, 0xCD, 0xCE, 0xCF,
  0xD0, 0xD1, 0xD2, 0xD3, 0xD4, 0xD5, 0xD6, 0xD7, 0xD8, 0xD9, 0xDA, 0xDB, 0xDC, 0xDD, 0xDE, 0xDF]

/-- `"*+,:;<=>?[]|` and 0x7F, which no short name has. -/
def illegal : List Byte :=
  [0x22, 0x2A, 0x2B, 0x2C, 0x3A, 0x3B, 0x3C, 0x3D, 0x3E, 0x3F, 0x5B, 0x5D, 0x7C, 0x7F]

def isUpper (c : Byte) : Prop := 0x41 ≤ c ∧ c ≤ 0x5A
def isLower (c : Byte) : Prop := 0x61 ≤ c ∧ c ≤ 0x7A

instance (c : Byte) : Decidable (isUpper c) := inferInstanceAs (Decidable (_ ∧ _))
instance (c : Byte) : Decidable (isLower c) := inferInstanceAs (Decidable (_ ∧ _))

def dot : Byte := 0x2E

/-- `/` and the backslash. -/
def isSeparator (c : Byte) : Prop := c = 0x2F ∨ c = 0x5C

instance (c : Byte) : Decidable (isSeparator c) := inferInstanceAs (Decidable (_ ∨ _))

def dde : Byte := 0xE5
def ndde : Byte := 0x05

def nsLast : Byte := 0x04
def nsBody : Byte := 0x08
def nsExt : Byte := 0x10

/-- The variables of the loop of `create_name`. -/
structure NameState where
  sfn : List Byte
  i : ℕ
  ni : ℕ
  b : Byte
deriving DecidableEq

/-- A character of the segment. -/
def nameStep (c : Byte) (n : NameState) : Except FResult NameState :=
  if c = dot ∨ n.ni ≤ n.i then
    if n.ni ≠ 8 ∨ c ≠ dot then .error .invalidName
    else .ok { n with i := 8, ni := 11, b := n.b <<< 2 }
  else
    let b := if 0x80 ≤ c then n.b ||| 3 else n.b
    let c := if 0x80 ≤ c then excvt.getD (c.toNat - 0x80) 0 else c
    if c ∈ illegal then .error .invalidName
    else if isUpper c then .ok { n with sfn := n.sfn.set n.i c, i := n.i + 1, b := b ||| 2 }
    else if isLower c then
      .ok { n with sfn := n.sfn.set n.i (c - 0x20), i := n.i + 1, b := b ||| 1 }
    else .ok { n with sfn := n.sfn.set n.i c, i := n.i + 1, b := b }

/-- The loop: the variables, the character that ended the segment and what is behind it.
A path ends with a zero. -/
def nameLoop : List Byte → NameState → Except FResult (NameState × Byte × List Byte)
  | [], n => .ok (n, 0, [])
  | c :: path, n =>
    if c ≤ 0x20 ∨ isSeparator c then .ok (n, c, path)
    else match nameStep c n with
      | .error res => .error res
      | .ok n => nameLoop path n

/-- `fn`, its status byte and the rest of the path. -/
structure Name where
  fn : List Byte
  ns : Byte
  rest : List Byte
deriving DecidableEq

def createName (path : List Byte) : Except FResult Name :=
  match nameLoop (path.dropWhile fun c => isSeparator c) ⟨List.replicate 11 0x20, 0, 8, 0⟩ with
  | .error res => .error res
  | .ok (n, c, rest) =>
    if n.i = 0 then .error .invalidName
    else
      let b := if n.ni = 8 then n.b <<< 2 else n.b
      .ok {
        fn := if n.sfn.head? = some dde then n.sfn.set 0 ndde else n.sfn
        ns := (if c ≤ 0x20 then nsLast else 0) |||
          (if b &&& 0x03 = 0x01 then nsExt else 0) ||| (if b &&& 0x0C = 0x04 then nsBody else 0)
        rest := rest }

/-- `DIR`. The pointer `dir` is an offset in the window. -/
structure Dir where
  fn : List Byte
  ns : Byte
  index : ℕ
  sclust : ℕ
  clust : ℕ
  sect : ℕ
  dir : Option ℕ
deriving DecidableEq

/-- The entries of a sector. -/
def perSector : ℕ := ss / szDir

variable {σ : Type} (disk : Disk σ)

/-- The loop of `dir_sdi` along the chain, with the index that is left. -/
def followTable (ic : ℕ) : (fuel clst idx : ℕ) → FfM σ (ℕ × ℕ)
  | 0, clst, idx => return (clst, idx)
  | fuel + 1, clst, idx =>
    if ic ≤ idx then do
      let clst ← getFat disk clst
      if clst = fatError then throw .diskErr
      else do
        let s ← get
        if clst < 2 ∨ s.fs.nFatent ≤ clst then throw .intErr
        else followTable ic fuel clst (idx - ic)
    else return (clst, idx)

/-- The start of the table; on FAT32 the root directory has a cluster too. -/
def tableStart (fs : FatFs) (sclust : ℕ) : ℕ :=
  if sclust = 0 ∧ fs.fsType = some .fat32 then fs.dirbase else sclust

def dirSdi (dj : Dir) (idx : ℕ) : FfM σ Dir := do
  let s ← get
  if dj.sclust = 1 ∨ s.fs.nFatent ≤ dj.sclust then throw .intErr
  else if tableStart s.fs dj.sclust = 0 then
    if s.fs.nRootdir ≤ idx then throw .intErr
    else return { dj with
      index := idx, clust := 0, sect := dword (s.fs.dirbase + idx / perSector)
      dir := some (idx % perSector * szDir) }
  else do
    let r ← followTable disk (perSector * s.fs.csize) idx (tableStart s.fs dj.sclust) idx
    return { dj with
      index := idx, clust := r.1
      sect := dword (clust2sect s.fs.toGeometry r.1 + r.2 / perSector)
      dir := some (r.2 % perSector * szDir) }

/-- The next sector of a table, on to the next cluster if `i` is its first entry. -/
def nextSector (dj : Dir) (i : ℕ) : FfM σ Dir := do
  let s ← get
  if dj.clust = 0 then
    if s.fs.nRootdir ≤ i then throw .noFile
    else return { dj with sect := dword (dj.sect + 1) }
  else if maskWith (BitVec.ofNat 32 (i / perSector)) (BitVec.ofNat 32 s.fs.csize - 1) = 0 then do
    let clst ← getFat disk dj.clust
    if clst ≤ 1 then throw .intErr
    else if clst = fatError then throw .diskErr
    else do
      let s ← get
      if s.fs.nFatent ≤ clst then throw .noFile
      else return { dj with clust := clst, sect := clust2sect s.fs.toGeometry clst }
  else return { dj with sect := dword (dj.sect + 1) }

/-- `dir_next`, which ends with `FR_NO_FILE`. -/
def dirNext (dj : Dir) : FfM σ Dir := do
  let i := (dj.index + 1) % 2 ^ 16
  if i = 0 ∨ dj.sect = 0 then throw .noFile
  else if i % perSector = 0 then do
    let dj ← nextSector disk dj i
    return { dj with index := i, dir := some (i % perSector * szDir) }
  else return { dj with index := i, dir := some (i % perSector * szDir) }

def amVol : Byte := 0x08
def amDir : Byte := 0x10

/-- The entry at an offset of the window. -/
def entryAt (win : List Byte) (offset : ℕ) : List Byte := (win.drop offset).take szDir

def dirAttr (dir : List Byte) : Byte := dir.getD 11 0

def ldClust (type : Option FatType) (dir : List Byte) : ℕ :=
  if type = some .fat32 then ldWord dir 26 + 65536 * ldWord dir 20 else ldWord dir 26

def dirFileSize (dir : List Byte) : ℕ := ldDword dir 28

/-- The loop of `dir_find`. -/
def dirFindFrom : (fuel : ℕ) → Dir → FfM σ Dir
  | 0, _ => throw .noFile
  | fuel + 1, dj => do
    moveWindow disk dj.sect
    let s ← get
    let dir := entryAt s.fs.win (dj.dir.getD 0)
    if dir.getD 0 0 = 0 then throw .noFile
    else if dirAttr dir &&& amVol = 0 ∧ dir.take 11 = dj.fn then return dj
    else do
      let dj ← dirNext disk dj
      dirFindFrom fuel dj

/-- `dir_find`. There are 65536 indices. -/
def dirFind (dj : Dir) : FfM σ Dir := do
  let dj ← dirSdi disk dj 0
  dirFindFrom disk (2 ^ 16) dj

/-- A segment that is not found. -/
def notFound (ns : Byte) (res : FResult) : FResult :=
  if res = .noFile ∧ ns &&& nsLast = 0 then .noPath else res

/-- The loop of `follow_path`, which takes a segment each time. -/
def followSegments : (fuel : ℕ) → Dir → List Byte → FfM σ Dir
  | 0, _, _ => throw .invalidName
  | fuel + 1, dj, path =>
    match createName path with
    | .error res => throw res
    | .ok name => do
      let dj ← mapError (notFound name.ns)
        (dirFind disk { dj with fn := name.fn, ns := name.ns })
      if name.ns &&& nsLast ≠ 0 then return dj
      else do
        let s ← get
        let dir := entryAt s.fs.win (dj.dir.getD 0)
        if dirAttr dir &&& amDir = 0 then throw .noPath
        else followSegments fuel { dj with sclust := ldClust s.fs.fsType dir } name.rest

/-- A leading separator is no segment. -/
def stripHeading (path : List Byte) : List Byte :=
  match path with
  | c :: rest => if isSeparator c then rest else path
  | [] => []

/-- `follow_path`. The path of a directory itself gives no entry. -/
def followPath (dj : Dir) (path : List Byte) : FfM σ Dir :=
  let path := stripHeading path
  if path.headD 0 < 0x20 then do
    let dj ← dirSdi disk { dj with sclust := 0 } 0
    return { dj with dir := none }
  else followSegments disk (path.length + 1) { dj with sclust := 0 } path

end Vp2Motion.Firmware.Fatfs
