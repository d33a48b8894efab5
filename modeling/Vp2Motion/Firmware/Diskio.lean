import Vp2Motion.Firmware.Mmc

namespace Vp2Motion.Firmware
open Serial

inductive DResult where
  | ok
  | error
  | wrprt
  | notrdy
  | parerr
deriving DecidableEq

/-- The status bit of a drive that is not initialized. -/
def staNoinit : Byte := 0x01

/-- The number of the only drive. -/
def sd : Byte := 0

variable {σ : Type} (card : Card σ)

/-- `disk_initialize`: the result of `mmc_init` is returned as the status. -/
def diskInitialize (drv : Byte) : StateM (Spi σ) Byte :=
  if drv = sd then do
    let result ← mmcInit card
    return BitVec.ofInt 8 result
  else return staNoinit

/-- A block stored at offset `start` of a buffer. -/
def storeAt (buff : ℕ → Byte) (start : ℕ) (data : List Byte) : ℕ → Byte := fun a =>
  if start ≤ a ∧ a < start + data.length then data.getD (a - start) 0 else buff a

/-- The loop of `disk_read` from block `i` on. The block number is a sum of
32-bit words. -/
def diskReadFrom (sector : BitVec 32) : ℕ → ℕ → (ℕ → Byte) →
    StateM (Spi σ) (DResult × (ℕ → Byte))
  | _, 0, buff => return (.ok, buff)
  | i, left + 1, buff => do
    let block ← mmcReadBlock card (sector + BitVec.ofNat 32 i)
    if block.1 ≠ 0 then return (.error, buff)
    else diskReadFrom sector (i + 1) left (storeAt buff (mmcBlockSize * i) block.2)

def diskRead (drv : Byte) (buff : ℕ → Byte) (sector : BitVec 32) (count : Byte) :
    StateM (Spi σ) (DResult × (ℕ → Byte)) :=
  if drv = sd then diskReadFrom card sector 0 count.toNat buff
  else return (.parerr, buff)

end Vp2Motion.Firmware
