import Mathlib.Data.List.GetD
import Vp2Motion.Hdl.UserLogic

namespace Vp2Motion.Hdl

/-- A write cycle on the ports of the VHDL entity. Its vectors are declared
`(0 to n-1)`, and element 0 is the most significant one. -/
structure IpifWrite where
  sel : Sel
  bus2ipData : Fin 32 → Bool
  bus2ipBE : Fin 4 → Bool

namespace Motion

/-- A vector `(0 to 31)` joined to a Verilog port `[31:0]`. Ports are joined by
position, so element 0 becomes bit 31. -/
def toVerilog (d : Fin 32 → Bool) : BitVec 32 :=
  (BitVec.ofBoolListBE (List.ofFn d)).cast List.length_ofFn

def ofVerilog (d : BitVec 32) : Fin 32 → Bool := fun k => d.getMsbD k

/-- `USER_LOGIC_I`. `Bus2IP_BE` is declared `[0:3]` on the Verilog side, so its
elements keep their numbers. -/
def portMap (w : IpifWrite) : BusWrite where
  sel := w.sel
  data := toVerilog w.bus2ipData
  be := w.bus2ipBE

def clock (reset : Bool) (wr : Option IpifWrite) (s : UserLogic) : UserLogic :=
  UserLogic.clock reset (wr.map portMap) s

/-- `IP2Bus_Data` while `sel` is read. -/
def ip2busData (sel : Sel) (s : UserLogic) : Fin 32 → Bool := ofVerilog (s.read sel)

@[simp]
theorem of_to_verilog (d : Fin 32 → Bool) : ofVerilog (toVerilog d) = d := by
  funext k
  simp only [ofVerilog, toVerilog, BitVec.getMsbD_cast, BitVec.getMsbD_ofBoolListBE]
  rw [List.getD_eq_getElem _ _ (by simp), List.getElem_ofFn]

end Motion

end Vp2Motion.Hdl
