import Mathlib.Data.Fin.Rev
import Vp2Motion.Hdl.Motion

namespace Vp2Motion.Proofs.ByteLanes
open Hdl Motion

/-- Byte `j` of a bus word, counted from the most significant end. -/
def byte (d : Fin 32 → Bool) (j : Fin 4) (b : Fin 8) : Bool := d ⟨8 * j + b, by omega⟩

/-- The bytes that the byte enables name come from `data`, the others from `old`. -/
def merged (be : Fin 4 → Bool) (data old : Fin 32 → Bool) (k : Fin 32) : Bool :=
  if be ⟨k / 8, by omega⟩ then data k else old k

/-- The register holds the merged word, a word read at its address returns it,
and no other register is written. -/
structure Merges (w : IpifWrite) (r : Reg) (s : UserLogic) : Prop where
  reg : ofVerilog ((clock false (some w) s).reg r) =
    merged w.bus2ipBE w.bus2ipData (ofVerilog (s.reg r))
  read : ip2busData (.reg r) (clock false (some w) s) =
    merged w.bus2ipBE w.bus2ipData (ip2busData (.reg r) s)
  others : ∀ q, q ≠ r → (clock false (some w) s).reg q = s.reg q

theorem merged_byte (be : Fin 4 → Bool) (data old : Fin 32 → Bool) (j : Fin 4) :
    byte (merged be data old) j = if be j then byte data j else byte old j := by
  funext b
  have hdiv : (8 * (j : ℕ) + b) / 8 = j := by omega
  simp only [byte, merged, hdiv]
  split <;> rfl

theorem eq_of_bytes {d e : Fin 32 → Bool} (h : ∀ j, byte d j = byte e j) : d = e := by
  funext k
  have hk := congrFun (h ⟨k / 8, by omega⟩) ⟨k % 8, by omega⟩
  simpa only [byte, Nat.div_add_mod] using hk

/-- What the loops of `user_logic` write: lane `i` is the `i`-th byte from the
least significant end. -/
theorem written_byte (be : Fin 4 → Bool) (data old : Fin 32 → Bool) (v : BitVec 32)
    (hv : ofVerilog v = old) (j : Fin 4) :
    byte (ofVerilog (writeLanes be (toVerilog data) v)) j =
      if be j.rev then byte data j else byte old j := by
  subst hv
  funext b
  have hbit := write_lanes_bit be (toVerilog data) v j.rev (k := 7 - b) (by omega)
  have hpos : 8 * (j.rev : ℕ) + (7 - b) = 31 - (8 * j + b) := by
    rw [Fin.val_rev]
    omega
  have hmsb : ∀ u : BitVec 32, u.getLsbD (31 - (8 * j + b)) = ofVerilog u ⟨8 * j + b, by omega⟩ := by
    intro u
    rw [ofVerilog, BitVec.getMsbD]
    simp
    omega
  rw [hpos, hmsb, hmsb, hmsb, of_to_verilog] at hbit
  rw [byte, hbit]
  split <;> rfl

/-- A write that no load disturbs. -/
theorem written (w : IpifWrite) (r q : Reg) (s : UserLogic) (hsel : w.sel = .reg r)
    (hl : s.load false = false) :
    (clock false (some w) s).reg q =
      if q = r then writeLanes w.bus2ipBE (toVerilog w.bus2ipData) (s.reg r) else s.reg q := by
  change (UserLogic.clock false (some (portMap w)) s).reg q = _
  rw [UserLogic.reg_clock_some]
  by_cases hq : q = r
  · simp [portMap, hsel, hq]
  · simp [portMap, hsel, hq, Ne.symm hq, hl]

theorem written_merged_iff (w : IpifWrite) (r : Reg) (s : UserLogic) (hsel : w.sel = .reg r)
    (hl : s.load false = false) :
    ofVerilog ((clock false (some w) s).reg r) =
      merged w.bus2ipBE w.bus2ipData (ofVerilog (s.reg r)) ↔
    ∀ j, (if w.bus2ipBE j.rev then byte w.bus2ipData j else byte (ofVerilog (s.reg r)) j) =
      if w.bus2ipBE j then byte w.bus2ipData j else byte (ofVerilog (s.reg r)) j := by
  rw [written w r r s hsel hl, if_pos rfl]
  constructor
  · intro h j
    rw [← written_byte w.bus2ipBE w.bus2ipData _ (s.reg r) rfl, h, merged_byte]
  · intro h
    apply eq_of_bytes
    intro j
    rw [written_byte _ _ _ _ rfl, h j, merged_byte]

/-- The byte enables reach the registers in reverse order. A write is merged as
the bus numbers its lanes exactly when every byte is either enabled together
with its mirror image or written with the value it already has. -/
theorem merges_exactly_when (w : IpifWrite) (r : Reg) (s : UserLogic) (hsel : w.sel = .reg r)
    (hl : s.load false = false) :
    Merges w r s ↔ ∀ j : Fin 4, w.bus2ipBE j = w.bus2ipBE j.rev ∨
      byte w.bus2ipData j = byte (ofVerilog (s.reg r)) j := by
  have hothers : ∀ q, q ≠ r → (clock false (some w) s).reg q = s.reg q := by
    intro q hq
    rw [written w r q s hsel hl, if_neg hq]
  have hmerge : Merges w r s ↔ ofVerilog ((clock false (some w) s).reg r) =
      merged w.bus2ipBE w.bus2ipData (ofVerilog (s.reg r)) :=
    ⟨fun h => h.reg, fun h => ⟨h, h, hothers⟩⟩
  rw [hmerge, written_merged_iff w r s hsel hl]
  refine forall_congr' ?_
  intro j
  cases w.bus2ipBE j <;> cases w.bus2ipBE j.rev <;> simp [eq_comm]

/-- A store of the byte `0xAB` to the first byte of NEXT_V. -/
def firstByte : IpifWrite where
  sel := .reg .nextV
  bus2ipData := ofVerilog 0xAB000000
  bus2ipBE j := decide (j.val = 0)

/-- The enable of the first lane writes the last byte of the data instead. -/
theorem first_byte_not_merged :
    UserLogic.initial.load false = false ∧
    merged firstByte.bus2ipBE firstByte.bus2ipData (ofVerilog (UserLogic.initial.reg .nextV)) =
      ofVerilog 0xAB000000 ∧
    (clock false (some firstByte) .initial).reg .nextV = 0 ∧
    ¬Merges firstByte .nextV .initial := by
  have hreg : (clock false (some firstByte) .initial).reg .nextV = 0 := by decide
  have hmerged : merged firstByte.bus2ipBE firstByte.bus2ipData
      (ofVerilog (UserLogic.initial.reg .nextV)) = ofVerilog 0xAB000000 := by decide
  refine ⟨by decide, hmerged, hreg, ?_⟩
  intro h
  have hbit := congrFun (h.reg.trans hmerged) 0
  rw [hreg] at hbit
  revert hbit
  decide

/-- The two middle bytes mirror each other, so a store to both of them is merged. -/
def middleBytes : IpifWrite where
  sel := .reg .nextV
  bus2ipData := ofVerilog 0x00ABCD00
  bus2ipBE j := decide (j.val = 1 ∨ j.val = 2)

theorem middle_bytes_merged : Merges middleBytes .nextV .initial :=
  (merges_exactly_when middleBytes .nextV .initial rfl (by decide)).mpr (by decide)

end Vp2Motion.Proofs.ByteLanes
