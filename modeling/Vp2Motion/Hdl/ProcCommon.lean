import Mathlib.Data.List.GetD
import Vp2Motion.Hdl.UartliteTx

namespace Vp2Motion.Hdl

/-- `srl_fifo_f`, as far as its ports are connected. The components of `proc_common_v2_00_a`
are not part of the repository: what the port relies on in them is a contract. -/
structure SrlFifoF (α φ : Type) where
  dataOut : φ → α
  fifoEmpty : φ → Bool
  fifoFull : φ → Bool
  clock : (reset fifoWrite : Bool) → (dataIn : α) → (fifoRead : Bool) → φ → φ

/-- `dynshreg_i_f` with `C_DEPTH = 16` and `C_DWIDTH = 1`. -/
structure DynshregIF (δ : Type) where
  dout : (addr : ℕ) → δ → Bool
  clock : (clken din : Bool) → δ → δ

/-- A FIFO with 16 places that shows the oldest word at its output. A reset empties it. What
a write to a full one and a read from an empty one do is left open. -/
structure SrlFifoF.Contract {α φ : Type} (f : SrlFifoF α φ) (contents : φ → List α) : Prop where
  depth : ∀ s, (contents s).length ≤ 16
  empty_eq : ∀ s, f.fifoEmpty s = (contents s).isEmpty
  full_eq : ∀ s, f.fifoFull s = ((contents s).length == 16)
  data_out : ∀ s x xs, contents s = x :: xs → f.dataOut s = x
  reset : ∀ write x read s, contents (f.clock true write x read s) = []
  kept : ∀ x s, contents (f.clock false false x false s) = contents s
  write : ∀ x s, (contents s).length < 16 →
    contents (f.clock false true x false s) = contents s ++ [x]
  read : ∀ x s, contents s ≠ [] → contents (f.clock false false x true s) = (contents s).tail
  both : ∀ x s, contents s ≠ [] → (contents s).length < 16 →
    contents (f.clock false true x true s) = (contents s).tail ++ [x]

/-- A shift register: with address `k` a bit is at the output `k + 1` enabled clocks after it
went in. -/
structure DynshregIF.Contract {δ : Type} (d : DynshregIF δ) : Prop where
  first : ∀ din s, d.dout 0 (d.clock true din s) = din
  next : ∀ din s k, k < 15 → d.dout (k + 1) (d.clock true din s) = d.dout k s
  held : ∀ din s k, k < 16 → d.dout k (d.clock false din s) = d.dout k s

/-- The components for words of so many bits. -/
structure ProcCommon (n : DataBits) (δ φ : Type) where
  fifo : SrlFifoF (BitVec n.bits) φ
  shreg : DynshregIF δ

structure ProcCommon.Contract {n : DataBits} {δ φ : Type} (p : ProcCommon n δ φ)
    (contents : φ → List (BitVec n.bits)) : Prop where
  fifo : p.fifo.Contract contents
  shreg : p.shreg.Contract

/-- The first of 16 stages is bit 0. -/
def shiftIn (din : Bool) (srl : BitVec 16) : BitVec 16 :=
  srl <<< 1 ||| (BitVec.ofBool din).setWidth 16

theorem shift_in_get (din : Bool) (srl : BitVec 16) (k : ℕ) (hk : k < 16) :
    (shiftIn din srl).getLsbD k = if k = 0 then din else srl.getLsbD (k - 1) := by
  rw [shiftIn, BitVec.getLsbD_or, BitVec.getLsbD_shiftLeft, BitVec.getLsbD_setWidth,
    BitVec.getLsbD_ofBool]
  by_cases hzero : k = 0
  · subst hzero
    simp
  · have hpos : ¬k < 1 := by omega
    simp [hzero, hk, hpos]

namespace DynshregIF
variable {δ : Type} {d : DynshregIF δ}

/-- What all addresses show. -/
def stages (d : DynshregIF δ) (s : δ) : BitVec 16 :=
  (BitVec.ofBoolListLE ((List.range 16).map fun k => d.dout k s)).setWidth 16

theorem stages_get (d : DynshregIF δ) (s : δ) (hk : k < 16) :
    (d.stages s).getLsbD k = d.dout k s := by
  rw [stages, BitVec.getLsbD_setWidth, BitVec.getLsbD_ofBoolListLE, decide_eq_true hk,
    Bool.true_and, List.getD_eq_getElem _ _ (by simpa using hk)]
  simp

theorem Contract.stages_clock (h : d.Contract) (clken din : Bool) (s : δ) :
    d.stages (d.clock clken din s) =
      if clken then shiftIn din (d.stages s) else d.stages s := by
  apply BitVec.eq_of_getLsbD_eq
  intro k hk
  rw [stages_get d _ hk]
  cases clken with
  | false => rw [h.held din s k hk, if_neg Bool.false_ne_true, stages_get d s hk]
  | true =>
    rw [if_pos rfl, shift_in_get din _ k hk]
    cases k with
    | zero => exact h.first din s
    | succ k =>
      rw [if_neg (Nat.succ_ne_zero k), Nat.add_sub_cancel, stages_get d s (by omega)]
      exact h.next din s k (by omega)

end DynshregIF

/-- The port writes only when there is room and reads only when there is a word. -/
theorem SrlFifoF.Contract.guarded {α φ : Type} {f : SrlFifoF α φ} {contents : φ → List α}
    (h : f.Contract contents) (write read : Bool) (x : α) (s : φ) :
    contents (f.clock false (write && !f.fifoFull s) x (read && !f.fifoEmpty s) s) =
      (if read then (contents s).tail else contents s) ++
        if write && !f.fifoFull s then [x] else [] := by
  have hempty := h.empty_eq s
  have hfull := h.full_eq s
  have hdepth := h.depth s
  cases hwrite : write && !f.fifoFull s with
  | false =>
    rw [if_neg Bool.false_ne_true, List.append_nil]
    cases read with
    | false => exact h.kept x s
    | true =>
      rw [if_pos rfl, Bool.true_and, hempty]
      cases hs : contents s with
      | nil => exact (h.kept x s).trans hs
      | cons y ys =>
        have hread := h.read x s (by rw [hs]; exact List.cons_ne_nil y ys)
        rwa [hs] at hread
  | true =>
    have hroom : (contents s).length < 16 := by
      rw [Bool.and_eq_true, Bool.not_eq_true', hfull, beq_eq_false_iff_ne] at hwrite
      omega
    rw [if_pos rfl]
    cases read with
    | false => exact h.write x s hroom
    | true =>
      rw [if_pos rfl, Bool.true_and, hempty]
      cases hs : contents s with
      | nil =>
        have hnew := h.write x s hroom
        rwa [hs] at hnew
      | cons y ys =>
        have hboth := h.both x s (by rw [hs]; exact List.cons_ne_nil y ys) hroom
        rwa [hs] at hboth

/-- A list and a word. -/
def listed (n : DataBits) : ProcCommon n (BitVec 16) (SrlFifo (BitVec n.bits)) where
  fifo :=
    { dataOut := fun f => f.words.headD 0
      fifoEmpty := fun f => f.words.isEmpty
      fifoFull := fun f => f.words.length == 16
      clock := fun reset write x read f => f.clock reset write read x }
  shreg :=
    { dout := fun k srl => srl.getLsbD k
      clock := fun clken din srl => if clken then shiftIn din srl else srl }

theorem listed_contract (n : DataBits) : (listed n).Contract SrlFifo.words where
  fifo :=
    { depth := fun f => f.depth
      empty_eq := fun _ => rfl
      full_eq := fun _ => rfl
      data_out := fun f x xs h => by
        change f.words.headD 0 = x
        rw [h]
        rfl
      reset := fun _ _ _ _ => rfl
      kept := fun _ _ => rfl
      write := fun x f h => SrlFifo.push_words h x
      read := fun _ _ _ => rfl
      both := fun x f hne h => by
        have hroom : f.pop.words.length < 16 := by
          change f.words.tail.length < 16
          rw [List.length_tail]
          omega
        exact SrlFifo.push_words hroom x }
  shreg :=
    { first := fun din srl => shift_in_get din srl 0 (by decide)
      next := fun din srl k hk => by
        have hget := shift_in_get din srl (k + 1) (by omega)
        rwa [if_neg (Nat.succ_ne_zero k)] at hget
      held := fun _ _ _ _ => rfl }

theorem listed_stages (n : DataBits) (srl : BitVec 16) : (listed n).shreg.stages srl = srl :=
  BitVec.eq_of_getLsbD_eq fun _ hk => (listed n).shreg.stages_get srl hk

end Vp2Motion.Hdl
