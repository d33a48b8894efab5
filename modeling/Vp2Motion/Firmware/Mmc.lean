import Vp2Motion.Serial.Link

namespace Vp2Motion.Firmware
open Serial

abbrev Byte := BitVec 8

/-- The card's side of the bus. The select level is the mask that `XSpi_SetSlaveSelect` was last
given. `XSpi_Transfer` puts it on the line for the time of each polled transfer only, and
releases the line after it; the mask stays. It clocks its bytes out whether or not a slave is
selected, one byte coming back for each byte sent. -/
abbrev Card (σ : Type) := Slave (BitVec 32) Byte σ

abbrev Spi (σ : Type) := Link (BitVec 32) σ

variable {σ : Type} (card : Card σ)

def spiReceiveByte : StateM (Spi σ) Byte := transfer card 0xFF

def spiSend (data : List Byte) : StateM (Spi σ) Unit := do
  let _ ← transferAll card data

def spiReceive (length : ℕ) : StateM (Spi σ) (List Byte) :=
  transferAll card (List.replicate length 0xFF)

/-- `SET_CS` deselects the card, `CLEAR_CS` selects it. -/
def setCs : StateM (Spi σ) Unit := setSelect 0
def clearCs : StateM (Spi σ) Unit := setSelect 1

def responseCount : ℕ := 0xFFF

/-- `mmc_response`: 0 when `response` came within the count, 1 after a timeout. -/
def mmcResponse (response : Byte) : StateM (Spi σ) Byte := do
  let count ← poll card 0xFF (· == response) responseCount
  if count = 0 then return 1 else return 0

def mmcTimeout : ℕ := 0xFF

/-- One byte with the card selected and two without. -/
def dummyClocks : StateM (Spi σ) Unit := do
  let _ ← spiReceiveByte card
  setCs
  let _ ← spiReceiveByte card
  let _ ← spiReceiveByte card

/-- The do/while loop of CMD1 from a counter of `i` on, with the counter it ends
with. The counter is taken down before the response is looked at. -/
def sendOpCond : ℕ → StateM (Spi σ) ℕ
  | 0 => return 0
  | i + 1 => do
    spiSend card [0x41, 0x00, 0x00, 0x00, 0x00, 0xFF]
    let response ← mmcResponse card 0x00
    if response ≠ 0 ∧ 0 < i then sendOpCond i else return i

def mmcInit : StateM (Spi σ) ℤ := do
  setCs
  let _ ← spiReceive card 10
  clearCs
  spiSend card [0x40, 0x00, 0x00, 0x00, 0x00, 0x95]
  let response ← mmcResponse card 0x01
  if response ≠ 0 then return -1
  else
    dummyClocks card
    clearCs
    let i ← sendOpCond card mmcTimeout
    if i = 0 then return -1
    else
      dummyClocks card
      clearCs
      spiSend card [0x50, 0x00, 0x00, 0x02, 0x00, 0xFF]
      let _ ← mmcResponse card 0x00
      dummyClocks card
      return 0

def mmcBlockSize : ℕ := 512

/-- CMD17 for a block. The byte address is put together from two halves. -/
def readCommand (blockNumber : BitVec 32) : List Byte :=
  let varl : BitVec 16 := ((blockNumber &&& 0x7F) <<< 9).setWidth 16
  let varh : BitVec 16 := ((blockNumber >>> 7) &&& 0xFFFF).setWidth 16
  [0x51, (varh >>> 8).setWidth 8, (varh &&& 0xFF).setWidth 8, (varl >>> 8).setWidth 8,
    (varl &&& 0xFF).setWidth 8, 0xFF]

/-- `mmc_read_block`, with the bytes that it stores at `block_address`. -/
def mmcReadBlock (blockNumber : BitVec 32) : StateM (Spi σ) (ℤ × List Byte) := do
  clearCs
  spiSend card (readCommand blockNumber)
  let response ← mmcResponse card 0x00
  if response = 1 then return (-1, [])
  else
    let token ← mmcResponse card 0xFE
    if token = 1 then return (-1, [])
    else
      let data ← spiReceive card mmcBlockSize
      let _ ← spiReceiveByte card
      let _ ← spiReceiveByte card
      setCs
      let _ ← spiReceiveByte card
      return (0, data)

end Vp2Motion.Firmware
