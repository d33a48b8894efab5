import Vp2Motion.Firmware.Fatfs.Basic

namespace Vp2Motion.Firmware.Fatfs
open Serial

variable {σ : Type} (card : Card σ)

/-- What the loop of `disk_read` stores from block `i` on. -/
def blocksFrom (sector : BitVec 32) : ℕ → ℕ → StateM (Spi σ) (DResult × List Byte)
  | _, 0 => return (.ok, [])
  | i, left + 1 => do
    let block ← mmcReadBlock card (sector + BitVec.ofNat 32 i)
    if block.1 ≠ 0 then return (.error, [])
    else do
      let rest ← blocksFrom sector (i + 1) left
      return (rest.1, block.2 ++ rest.2)

/-- Drive 0. Its calls take a `DWORD` and a `BYTE`. -/
def sdDisk : Disk (Spi σ) where
  init := diskInitialize card sd
  read sector count s :=
    let r := blocksFrom card (BitVec.ofNat 32 sector) 0 (BitVec.ofNat 8 count).toNat s
    (r.1.1, r.1.2, r.2)

end Vp2Motion.Firmware.Fatfs
