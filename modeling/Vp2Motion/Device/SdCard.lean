import Vp2Motion.Firmware.Mmc

namespace Vp2Motion.Device
open Serial Firmware

/-- How the card answers one read command. It may take any time before either
byte, and it may fall silent at any point; `sent` bytes of the block go out. -/
structure Answer where
  beforeR1 : List Byte
  r1 : Bool
  beforeToken : List Byte
  token : Bool
  sent : ℕ
  crc : List Byte
  quietR1 : ∀ b ∈ beforeR1, b ≠ 0x00
  quietToken : ∀ b ∈ beforeToken, b ≠ 0xFE

namespace Answer

def payload (a : Answer) (data : List Byte) : List Byte :=
  if a.sent < mmcBlockSize then data.take a.sent else data ++ a.crc

def tokenBytes (a : Answer) (data : List Byte) : List Byte :=
  a.beforeToken ++ if a.token then 0xFE :: a.payload data else []

def bytes (a : Answer) (data : List Byte) : List Byte :=
  a.beforeR1 ++ if a.r1 then 0x00 :: a.tokenBytes data else []

end Answer

/-- The part of a command received so far, what is still to be shifted out and
the number of read commands so far. -/
structure SdCard where
  command : List Byte
  output : List Byte
  served : ℕ

/-- A card releases the line when it has nothing to say. -/
def released : Byte := 0xFF

/-- The argument of a command, most significant byte first. -/
def argument : List Byte → BitVec 32
  | _ :: b₁ :: b₂ :: b₃ :: b₄ :: _ => b₁ ++ b₂ ++ b₃ ++ b₄
  | _ => 0

/-- The 512 bytes from address `a` on. -/
def blockAt (store : ℕ → Byte) (a : ℕ) : List Byte :=
  (List.range mmcBlockSize).map fun k => store (a + k)

variable (store : ℕ → Byte) (plan : ℕ → Answer)

/-- A complete command. Only CMD17 is answered. -/
def execute (command : List Byte) (s : SdCard) : SdCard :=
  if command.head? = some 0x51 then
    { command := []
      output := (plan s.served).bytes (blockAt store (argument command).toNat)
      served := s.served + 1 }
  else { s with command := [], output := [] }

/-- Takes in one byte. A command starts with the bits `01`. -/
def receive (mosi : Byte) (s : SdCard) : SdCard :=
  if s.command = [] ∧ mosi.extractLsb' 6 2 ≠ 0b01 then s
  else if s.command.length < 5 then { s with command := s.command ++ [mosi] }
  else execute store plan (s.command ++ [mosi]) s

/-- A card with the contents `store` whose `n`-th read command is answered as
`plan n` says. -/
def sdCard : Card SdCard where
  exchange select mosi s :=
    if select.getLsbD 0 then
      (s.output.headD released, receive store plan mosi { s with output := s.output.tail })
    else (released, { s with command := [], output := [] })

end Vp2Motion.Device
