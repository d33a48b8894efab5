import Vp2Motion.Firmware.Cmdline

namespace Vp2Motion.Firmware

/-- One pass of the loop of `main.c`: the byte that was waiting in the receive FIFO, if any,
and what a command function sends if one is run. -/
structure Pass where
  received : Option UInt8
  printed : List UInt8

namespace Cmdline
variable {F : Type}

/-- `steppersMainLoop`, which ends each pass, shares no variable with the command line. -/
def pass (p : Pass) (s : Cmdline F) : Option (Cmdline F × List (Execution F)) := do
  let s ← match p.received with
    | some c => s.cmdlineInputFunc c
    | none => some s
  return s.cmdlineMainLoop p.printed

/-- `main` after `passes`, with any `commands` registered. -/
def main (commands : List (List UInt8 × F)) (passes : List Pass) : Option (Cmdline F) := do
  let s ← commands.foldlM (fun s c => cmdlineAddCommand c.1 (some c.2) s) zeroed.cmdlineInit
  passes.foldlM (fun s p => (s.pass p).map (·.1)) s.cmdlinePrintPrompt

end Cmdline

end Vp2Motion.Firmware
