import Vp2Motion.Device.SdCard

namespace Vp2Motion.Device
open Serial Firmware

/-- What the card shifts out after each command other than a read, in this order. -/
structure Scripted extends SdCard where
  script : List (List Byte)

variable (store : ℕ → Byte) (plan : ℕ → Answer)

def executeAny (command : List Byte) (s : Scripted) : Scripted :=
  if command.head? = some 0x51 then { s with toSdCard := execute store plan command s.toSdCard }
  else
    { command := []
      output := s.script.headD []
      served := s.served
      script := s.script.tail }

def receiveAny (mosi : Byte) (s : Scripted) : Scripted :=
  if s.command = [] ∧ mosi.extractLsb' 6 2 ≠ 0b01 then s
  else if s.command.length < 5 then { s with command := s.command ++ [mosi] }
  else executeAny store plan (s.command ++ [mosi]) s

/-- A card as `sdCard` that has an answer to every command. -/
def scriptedCard : Card Scripted where
  exchange select mosi s :=
    if select.getLsbD 0 then
      (s.output.headD released, receiveAny store plan mosi { s with output := s.output.tail })
    else (released, { s with command := [], output := [] })

end Vp2Motion.Device
