import Vp2Motion.Firmware.Fatfs.Basic

namespace Vp2Motion.Firmware.Fatfs
open Fallible

variable {σ : Type} (disk : Disk σ)

/-- The sector of the file pointer within its cluster. -/
def sectorInCluster (fs : Geometry) (fptr : ℕ) : ℕ :=
  maskWith (BitVec.ofNat 32 (fptr / ss)) (BitVec.ofNat 32 fs.csize - 1) % 256

/-- The cluster that starts at the file pointer. -/
def clusterAtPointer (fil : Fil) : FfM σ ℕ :=
  if fil.fptr = 0 then pure fil.sclust else getFat disk fil.clust

/-- On a cluster boundary `f_read` goes on to the next cluster. -/
def nextCluster (csect : ℕ) : FfM σ Unit := do
  let s ← get
  if csect = 0 then do
    let clst ← clusterAtPointer disk s.fil
    if clst < 2 then abort .intErr
    else if clst = fatError then abort .diskErr
    else modify fun s => { s with fil := { s.fil with clust := clst } }
  else pure ()

/-- Whole sectors, which go to the caller's buffer. -/
def readSectors (sect csect cc : ℕ) : FfM σ (ℕ × List Byte) := do
  let s ← get
  let cc := if s.fs.csize < csect + cc then s.fs.csize - csect else cc
  let r ← diskRead disk sect (cc % 256)
  if r.1 ≠ .ok then abort .diskErr
  else return (ss * cc, r.2)

/-- The sector buffer of the file. -/
def fillBuf (sect : ℕ) : FfM σ Unit := do
  let s ← get
  if s.fil.dsect ≠ sect then do
    let r ← diskRead disk sect 1
    modify fun s => { s with fil := { s.fil with buf := overwrite r.2 s.fil.buf } }
    if r.1 ≠ .ok then abort .diskErr
    else modify fun s => { s with fil := { s.fil with dsect := sect } }
  else pure ()

/-- Bytes out of the sector buffer. -/
def pickPartial (btr : ℕ) : FfM σ (ℕ × List Byte) := do
  let s ← get
  let rcnt := min (ss - s.fil.fptr % ss) btr
  return (rcnt, (s.fil.buf.drop (s.fil.fptr % ss)).take rcnt)

/-- The body of the loop of `f_read`: the count `rcnt` and the bytes. -/
def readStep (btr : ℕ) : FfM σ (ℕ × List Byte) := do
  let s ← get
  if s.fil.fptr % ss = 0 then do
    let csect := sectorInCluster s.fs.toGeometry s.fil.fptr
    nextCluster disk csect
    let t ← get
    let sect := clust2sect t.fs.toGeometry t.fil.clust
    if sect = 0 then abort .intErr
    else
      let sect := dword (sect + csect)
      let cc := btr / ss
      if cc ≠ 0 then readSectors disk sect csect cc
      else do
        fillBuf disk sect
        pickPartial btr
  else pickPartial btr

def advance (rcnt : ℕ) (s : Fs σ) : Fs σ :=
  { s with fil := { s.fil with fptr := s.fil.fptr + rcnt } }

/-- The loop, which takes at least one byte each time. -/
def readLoop : (fuel btr : ℕ) → Fs σ → FResult × List Byte × Fs σ
  | 0, _, s => (.ok, [], s)
  | fuel + 1, btr, s =>
    if btr = 0 then (.ok, [], s)
    else match readStep disk btr s with
      | (.error res, s) => (res, [], s)
      | (.ok (rcnt, data), s) =>
        let r := readLoop fuel (btr - rcnt) (advance rcnt s)
        (r.1, data ++ r.2.1, r.2.2)

/-- `f_read`, with the bytes that it counts. -/
def fRead (btr : ℕ) (s : Fs σ) : FResult × List Byte × Fs σ :=
  match validate s with
  | (.error res, s) => (res, [], s)
  | (.ok _, s) =>
    if s.fil.flag &&& faError ≠ 0 then (.intErr, [], s)
    else if s.fil.flag &&& faRead = 0 then (.denied, [], s)
    else
      let btr := min btr (s.fil.fsize - s.fil.fptr)
      readLoop disk btr btr s

/-- The loop of `f_lseek` along the cluster chain, with the offset that is left. -/
def followChain (bcs : ℕ) : (fuel clst ofs : ℕ) → FfM σ (ℕ × ℕ)
  | 0, clst, ofs => return (clst, ofs)
  | fuel + 1, clst, ofs =>
    if bcs < ofs then do
      let clst ← getFat disk clst
      if clst = fatError then abort .diskErr
      else do
        let s ← get
        if clst ≤ 1 ∨ s.fs.nFatent ≤ clst then abort .intErr
        else do
          modify fun s => { s with
            fil := { s.fil with clust := clst, fptr := s.fil.fptr + bcs } }
          followChain bcs fuel clst (ofs - bcs)
    else return (clst, ofs)

/-- Where the seek starts: in the current cluster unless it goes back. The result is the
cluster and the offset that is left. -/
def seekStart (ifptr bcs ofs : ℕ) : FfM σ (ℕ × ℕ) := do
  let s ← get
  if 0 < ifptr ∧ (ifptr - 1) / bcs ≤ (ofs - 1) / bcs then do
    let start := maskWith (BitVec.ofNat 32 (ifptr - 1)) (~~~(BitVec.ofNat 32 bcs - 1))
    modify fun s => { s with fil := { s.fil with fptr := start } }
    return (s.fil.clust, ofs - start)
  else do
    modify fun s => { s with fil := { s.fil with clust := s.fil.sclust } }
    return (s.fil.sclust, ofs)

/-- The sector of an offset in a cluster, 0 for none. -/
def seekSector (clst ofs : ℕ) : FfM σ ℕ := do
  let s ← get
  if ofs % ss ≠ 0 then
    let nsect := clust2sect s.fs.toGeometry clst
    if nsect = 0 then abort .intErr
    else return dword (nsect + ofs / ss)
  else return 0

/-- The seek to `ofs`, from a file pointer of `ifptr`. The result is the sector `nsect`. -/
def seekTo (ifptr ofs : ℕ) : FfM σ ℕ := do
  let s ← get
  if ofs ≠ 0 then do
    let bcs := s.fs.csize * ss
    let start ← seekStart ifptr bcs ofs
    if start.1 ≠ 0 then do
      let last ← followChain disk bcs start.2 start.1 start.2
      modify fun s => { s with fil := { s.fil with fptr := s.fil.fptr + last.2 } }
      seekSector last.1 last.2
    else return 0
  else return 0

def fLseek (ofs : ℕ) : FfM σ Unit := do
  validate
  let s ← get
  if s.fil.flag &&& faError ≠ 0 then throw .intErr
  else do
    modify fun s => { s with fil := { s.fil with fptr := 0 } }
    let nsect ← seekTo disk s.fil.fptr (min ofs s.fil.fsize)
    let t ← get
    if t.fil.fptr % ss ≠ 0 then fillBuf disk nsect
    else pure ()

end Vp2Motion.Firmware.Fatfs
