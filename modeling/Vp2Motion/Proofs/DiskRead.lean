import Mathlib.Data.List.GetD
import Mathlib.Tactic.IntervalCases
import Vp2Motion.Device.SdCard
import Vp2Motion.Proofs.Mmc

namespace Vp2Motion.Proofs.DiskRead
open Serial Firmware Device Mmc

theorem argument_read_command (block : BitVec 32) :
    argument (readCommand block) = block <<< 9 := by
  apply BitVec.eq_of_getLsbD_eq
  intro i hi
  simp only [argument, readCommand, BitVec.getLsbD_append, BitVec.getLsbD_setWidth,
    BitVec.getLsbD_ushiftRight, BitVec.getLsbD_shiftLeft, BitVec.getLsbD_and]
  interval_cases i <;> simp

/-- The card is given the block number times 512, on 32 bits. -/
theorem address_eq (sector : BitVec 32) (i : ℕ) :
    (argument (readCommand (sector + BitVec.ofNat 32 i))).toNat =
      512 * (sector.toNat + i) % 2 ^ 32 := by
  rw [argument_read_command, BitVec.toNat_shiftLeft, BitVec.toNat_add, BitVec.toNat_ofNat,
    Nat.shiftLeft_eq]
  omega

theorem address_of_lt {sector : BitVec 32} {i : ℕ} (h : sector.toNat + i < 2 ^ 23) :
    (argument (readCommand (sector + BitVec.ofNat 32 i))).toNat = 512 * (sector.toNat + i) := by
  rw [address_eq]
  omega

variable {store : ℕ → Byte} {plan : ℕ → Answer}

theorem exchange_start (out : List Byte) (c : ℕ) :
    (sdCard store plan).exchange 1 0x51 ⟨[], out, c⟩ =
      (out.headD released, ⟨[0x51], out.tail, c⟩) :=
  rfl

theorem exchange_next (b mosi : Byte) {bs : List Byte} (h : bs.length < 4) (out : List Byte)
    (c : ℕ) : (sdCard store plan).exchange 1 mosi ⟨b :: bs, out, c⟩ =
      (out.headD released, ⟨b :: (bs ++ [mosi]), out.tail, c⟩) := by
  have hlt : bs.length + 1 < 5 := by omega
  simp [sdCard, receive, hlt]

theorem exchange_last (b₁ b₂ b₃ b₄ mosi : Byte) (out : List Byte) (c : ℕ) :
    (sdCard store plan).exchange 1 mosi ⟨[0x51, b₁, b₂, b₃, b₄], out, c⟩ =
      (out.headD released, ⟨[], (plan c).bytes
        (blockAt store (argument [0x51, b₁, b₂, b₃, b₄, mosi]).toNat), c + 1⟩) := by
  simp [sdCard, receive, execute]

/-- A read command, whatever the card was shifting out before. -/
theorem send_read (block : BitVec 32) (out : List Byte) (c : ℕ) :
    spiSend (sdCard store plan) (readCommand block) ⟨1, ⟨[], out, c⟩⟩ =
      ((), ⟨1, ⟨[], (plan c).bytes (blockAt store (argument (readCommand block)).toNat),
        c + 1⟩⟩) := by
  refine congrArg (Prod.mk ()) ((transfer_all_slave (readCommand block) _).trans ?_)
  simp only [readCommand, List.foldl_cons, List.foldl_nil, exchange_start]
  rw [exchange_next _ _ (by simp), exchange_next _ _ (by simp), exchange_next _ _ (by simp),
    exchange_next _ _ (by simp)]
  exact congrArg (Link.mk 1) (congrArg Prod.snd (exchange_last ..))

theorem exchange_fill (out : List Byte) (c : ℕ) :
    (sdCard store plan).exchange 1 0xFF ⟨[], out, c⟩ = (out.headD released, ⟨[], out.tail, c⟩) :=
  rfl

theorem receive_byte_selected (out : List Byte) (c : ℕ) :
    spiReceiveByte (sdCard store plan) ⟨1, ⟨[], out, c⟩⟩ =
      (out.headD released, ⟨1, ⟨[], out.tail, c⟩⟩) := by
  rw [spiReceiveByte, transfer_eq, exchange_fill]

theorem exchange_deselected (mosi : Byte) (cmd out : List Byte) (c : ℕ) :
    (sdCard store plan).exchange 0 mosi ⟨cmd, out, c⟩ = (released, ⟨[], [], c⟩) :=
  rfl

theorem receive_byte_deselected (cmd out : List Byte) (c : ℕ) :
    spiReceiveByte (sdCard store plan) ⟨0, ⟨cmd, out, c⟩⟩ = (released, ⟨0, ⟨[], [], c⟩⟩) := by
  rw [spiReceiveByte, transfer_eq, exchange_deselected]

theorem card_after (out : List Byte) (c k : ℕ) :
    (sdCard store plan).after 1 0xFF ⟨[], out, c⟩ k = ⟨[], out.drop k, c⟩ := by
  induction k generalizing out with
  | zero => rfl
  | succ k ih => rw [Slave.after, exchange_fill, ih, List.drop_tail]

theorem card_answer (out : List Byte) (c k : ℕ) :
    (sdCard store plan).answer 1 0xFF ⟨[], out, c⟩ k = out.getD k released := by
  rw [Slave.answer, card_after, exchange_fill]
  simp [List.headD_eq_head?_getD, List.getD_eq_getElem?_getD]

/-- A byte that comes in time after others. -/
theorem response_found {b : Byte} {pre rest : List Byte} (hpre : ∀ x ∈ pre, x ≠ b)
    (hlen : pre.length < responseCount) (c : ℕ) :
    mmcResponse (sdCard store plan) b ⟨1, ⟨[], pre ++ b :: rest, c⟩⟩ = (0, ⟨1, ⟨[], rest, c⟩⟩) := by
  have hanswer : (sdCard store plan).answer 1 0xFF ⟨[], pre ++ b :: rest, c⟩ =
      fun k => (pre ++ b :: rest).getD k released := by
    funext k
    exact card_answer _ c k
  have hwait : wait (· == b) (fun k => (pre ++ b :: rest).getD k released) responseCount =
      pre.length := by
    apply wait_eq hlen
    · simp
    · intro i hi
      rw [List.getD_append _ _ _ _ hi, List.getD_eq_getElem _ _ hi]
      simpa using hpre _ (List.getElem_mem hi)
  have hex : ∃ k, k < responseCount ∧ (pre ++ b :: rest).getD k released = b :=
    ⟨pre.length, hlen, by simp⟩
  have hpolled : polled (· == b) (fun k => (pre ++ b :: rest).getD k released) responseCount =
      pre.length + 1 := by
    rw [polled, hwait]
    omega
  rw [response_run]
  simp only [hanswer, card_after, hpolled]
  rw [if_pos hex]
  simp

/-- A byte that does not come, or not in time. -/
theorem response_missing {b : Byte} {pre rest : List Byte} (hb : b ≠ released)
    (hpre : ∀ x ∈ pre, x ≠ b) (hrest : rest = [] ∨ responseCount ≤ pre.length) (c : ℕ) :
    (mmcResponse (sdCard store plan) b ⟨1, ⟨[], pre ++ rest, c⟩⟩).1 = 1 := by
  have hanswer : ∀ k, (sdCard store plan).answer 1 0xFF ⟨[], pre ++ rest, c⟩ k =
      (pre ++ rest).getD k released := fun k => card_answer _ c k
  rw [response_run]
  simp only [hanswer]
  rw [if_neg]
  rintro ⟨k, hk, hget⟩
  by_cases hlt : k < pre.length
  · rw [List.getD_append _ _ _ _ hlt, List.getD_eq_getElem _ _ hlt] at hget
    exact hpre _ (List.getElem_mem hlt) hget
  · rcases hrest with rfl | hlen
    · rw [List.append_nil, List.getD_eq_default _ _ (by omega)] at hget
      exact hb hget.symm
    · omega

/-- Both bytes that the driver polls for come in time. -/
structure Succeeds (a : Answer) : Prop where
  r1 : a.r1 = true
  r1Time : a.beforeR1.length < responseCount
  token : a.token = true
  tokenTime : a.beforeToken.length < responseCount

/-- What the driver takes for byte `k` of the block at address `a`. -/
def taken (store : ℕ → Byte) (r : Answer) (a k : ℕ) : Byte :=
  if k < r.sent then store (a + k) else released

theorem payload_get (r : Answer) (a : ℕ) (hk : k < mmcBlockSize) :
    (r.payload (blockAt store a)).getD k released = taken store r a k := by
  have hlen : (blockAt store a).length = mmcBlockSize := by simp [blockAt]
  have hget : (blockAt store a).getD k released = store (a + k) := by
    rw [List.getD_eq_getElem _ _ (by omega)]
    simp [blockAt]
  unfold Answer.payload taken
  split
  · by_cases hs : k < r.sent
    · rw [if_pos hs, ← hget, List.getD_eq_getElem _ _ (by simp; omega),
        List.getD_eq_getElem _ _ (by omega), List.getElem_take]
    · rw [if_neg hs, List.getD_eq_default _ _ (by simp; omega)]
  · rw [if_pos (by omega), List.getD_append _ _ _ _ (by omega), hget]

theorem receive_block (r : Answer) (a c : ℕ) :
    spiReceive (sdCard store plan) mmcBlockSize ⟨1, ⟨[], r.payload (blockAt store a), c⟩⟩ =
      ((List.range mmcBlockSize).map (taken store r a),
        ⟨1, ⟨[], (r.payload (blockAt store a)).drop mmcBlockSize, c⟩⟩) := by
  have hdata : (List.range mmcBlockSize).map
      ((sdCard store plan).answer 1 0xFF ⟨[], r.payload (blockAt store a), c⟩) =
        (List.range mmcBlockSize).map (taken store r a) := by
    apply List.map_congr_left
    intro k hk
    rw [card_answer, payload_get _ _ (List.mem_range.mp hk)]
  rw [spiReceive, transfer_all_fill, hdata, card_after]

theorem read_succeeds (h : Succeeds (plan c)) (block l : BitVec 32) (out : List Byte) :
    mmcReadBlock (sdCard store plan) block ⟨l, ⟨[], out, c⟩⟩ =
      ((0, (List.range mmcBlockSize).map
        (taken store (plan c) (argument (readCommand block)).toNat)), ⟨0, ⟨[], [], c + 1⟩⟩) := by
  have hbytes : ∀ data, (plan c).bytes data =
      (plan c).beforeR1 ++ 0x00 :: ((plan c).beforeToken ++ 0xFE :: (plan c).payload data) := by
    intro data
    simp [Answer.bytes, Answer.tokenBytes, h.r1, h.token]
  rw [mmcReadBlock, run_bind clear_cs_eq, run_bind (send_read block out c), hbytes,
    run_bind (response_found (plan c).quietR1 h.r1Time (c + 1)), if_neg (by decide),
    run_bind (response_found (plan c).quietToken h.tokenTime (c + 1)), if_neg (by decide),
    run_bind (receive_block ..), run_bind (receive_byte_selected ..),
    run_bind (receive_byte_selected ..), run_bind set_cs_eq,
    run_bind (receive_byte_deselected ..)]
  rfl

theorem read_fails (h : ¬Succeeds (plan c)) (block l : BitVec 32) (out : List Byte) :
    (mmcReadBlock (sdCard store plan) block ⟨l, ⟨[], out, c⟩⟩).1 = (-1, []) := by
  rw [mmcReadBlock, run_bind clear_cs_eq, run_bind (send_read block out c)]
  by_cases hr1 : (plan c).r1 = true ∧ (plan c).beforeR1.length < responseCount
  · have hbytes : ∀ data, (plan c).bytes data =
        (plan c).beforeR1 ++ 0x00 :: (plan c).tokenBytes data := by
      intro data
      simp [Answer.bytes, hr1.1]
    rw [hbytes, run_bind (response_found (plan c).quietR1 hr1.2 (c + 1)), if_neg (by decide),
      run_bind_eq, Answer.tokenBytes, response_missing (by decide) (plan c).quietToken, if_pos rfl]
    · rfl
    · by_cases htoken : (plan c).token = true
      · refine .inr (Nat.le_of_not_lt fun htime => h ⟨hr1.1, hr1.2, htoken, htime⟩)
      · exact .inl (if_neg htoken)
  · rw [run_bind_eq, Answer.bytes, response_missing (by decide) (plan c).quietR1, if_pos rfl]
    · rfl
    · by_cases hsent : (plan c).r1 = true
      · exact .inr (Nat.le_of_not_lt fun htime => hr1 ⟨hsent, htime⟩)
      · exact .inl (if_neg hsent)

theorem store_at_before {buff : ℕ → Byte} {data : List Byte} (h : a < start) :
    storeAt buff start data a = buff a := by
  rw [storeAt, if_neg (by omega)]

theorem store_at_block (buff : ℕ → Byte) (start : ℕ) (f : ℕ → Byte) (hk : k < mmcBlockSize) :
    storeAt buff start ((List.range mmcBlockSize).map f) (start + k) = f k := by
  have hlen : ((List.range mmcBlockSize).map f).length = mmcBlockSize := by simp
  rw [storeAt, if_pos ⟨by omega, by omega⟩, Nat.add_sub_cancel_left,
    List.getD_eq_getElem _ _ (by omega)]
  simp

theorem loop_fails (sector : BitVec 32) {left : ℕ}
    (h : ∃ j, j < left ∧ ¬Succeeds (plan (c + j))) (i : ℕ) (buff : ℕ → Byte) (l : BitVec 32)
    (out : List Byte) :
    (diskReadFrom (sdCard store plan) sector i left buff ⟨l, ⟨[], out, c⟩⟩).1.1 = .error := by
  induction left generalizing i buff l out c with
  | zero =>
    obtain ⟨j, hj, -⟩ := h
    exact absurd hj (Nat.not_lt_zero j)
  | succ left ih =>
    rw [diskReadFrom]
    by_cases hfirst : Succeeds (plan c)
    · rw [run_bind (read_succeeds hfirst ..), if_neg (by simp)]
      apply ih
      obtain ⟨j, hj, hfail⟩ := h
      cases j with
      | zero => exact absurd hfirst hfail
      | succ j => exact ⟨j, by omega, by rwa [Nat.add_right_comm]⟩
    · rw [run_bind_eq, read_fails hfirst, if_pos (by decide)]
      rfl

/-- Blocks already read stay, and every further one holds what was taken for it. -/
theorem loop_succeeds (sector : BitVec 32) {left : ℕ}
    (h : ∀ j, j < left → Succeeds (plan (c + j))) (i : ℕ) (buff : ℕ → Byte) (l : BitVec 32)
    (out : List Byte) :
    ∃ result, (diskReadFrom (sdCard store plan) sector i left buff ⟨l, ⟨[], out, c⟩⟩).1 =
        (.ok, result) ∧
      (∀ a, a < mmcBlockSize * i → result a = buff a) ∧
      ∀ j k, j < left → k < mmcBlockSize → result (mmcBlockSize * (i + j) + k) =
        taken store (plan (c + j))
          (argument (readCommand (sector + BitVec.ofNat 32 (i + j)))).toNat k := by
  induction left generalizing i buff l out c with
  | zero => exact ⟨buff, rfl, fun _ _ => rfl, fun j k hj => absurd hj (Nat.not_lt_zero j)⟩
  | succ left ih =>
    have hfirst : Succeeds (plan c) := h 0 (Nat.succ_pos left)
    obtain ⟨result, heq, hkept, hblocks⟩ := ih (c := c + 1)
      (fun j hj => by rw [Nat.add_right_comm]; exact h (j + 1) (by omega)) (i + 1)
      (storeAt buff (mmcBlockSize * i) ((List.range mmcBlockSize).map (taken store (plan c)
        (argument (readCommand (sector + BitVec.ofNat 32 i))).toNat))) 0 []
    refine ⟨result, ?_, ?_, ?_⟩
    · rw [diskReadFrom, run_bind (read_succeeds hfirst ..), if_neg (by simp)]
      simpa only using heq
    · intro a ha
      rw [hkept a (by rw [Nat.mul_succ]; omega), store_at_before ha]
    · intro j k hj hk
      cases j with
      | zero =>
        rw [Nat.add_zero, Nat.add_zero, hkept _ (by rw [Nat.mul_succ]; omega),
          store_at_block _ _ _ hk]
      | succ j =>
        have hnext := hblocks j k (by omega) hk
        rwa [Nat.add_right_comm i 1 j, Nat.add_assoc i j 1, Nat.add_right_comm c 1 j,
          Nat.add_assoc c j 1] at hnext

theorem disk_read_sd {σ : Type} (card : Card σ) (buff : ℕ → Byte) (sector : BitVec 32)
    (count : Byte) :
    diskRead card sd buff sector count = diskReadFrom card sector 0 count.toNat buff :=
  if_pos rfl

theorem blocks_taken (store : ℕ → Byte) (plan : ℕ → Answer) (c : ℕ) (buff : ℕ → Byte)
    (sector l : BitVec 32) (out : List Byte) {left : ℕ}
    (h : ∀ j, j < left → Succeeds (plan (c + j))) :
    ∃ result, (diskReadFrom (sdCard store plan) sector 0 left buff ⟨l, ⟨[], out, c⟩⟩).1 =
        (.ok, result) ∧
      ∀ j k, j < left → k < mmcBlockSize → result (mmcBlockSize * j + k) =
        taken store (plan (c + j))
          (argument (readCommand (sector + BitVec.ofNat 32 j))).toNat k := by
  obtain ⟨result, heq, -, hblocks⟩ := loop_succeeds sector h 0 buff l out
  simp only [Nat.zero_add] at hblocks
  exact ⟨result, heq, hblocks⟩

/-- A read that reports success has delivered the blocks it was asked for. -/
def Delivers (store : ℕ → Byte) (plan : ℕ → Answer) (c : ℕ) (buff : ℕ → Byte)
    (sector : BitVec 32) (count : Byte) (l : BitVec 32) (out : List Byte) : Prop :=
  (diskRead (sdCard store plan) sd buff sector count ⟨l, ⟨[], out, c⟩⟩).1.1 = .ok →
    ∀ i, i < count.toNat → 512 * (sector.toNat + i) < 2 ^ 32 ∧
      ∀ k, k < 512 →
        (diskRead (sdCard store plan) sd buff sector count ⟨l, ⟨[], out, c⟩⟩).1.2 (512 * i + k) =
          store (512 * (sector.toNat + i) + k)

/-- A read that the card leaves unanswered reports an error. -/
theorem delivers_of_failure (buff : ℕ → Byte) (sector : BitVec 32) {count : Byte} (l : BitVec 32)
    (out : List Byte) (h : ∃ i, i < count.toNat ∧ ¬Succeeds (plan (c + i))) :
    Delivers store plan c buff sector count l out := by
  intro hok
  rw [disk_read_sd, loop_fails sector h] at hok
  cases hok

/-- What is taken for block `i` is the block, when its address fits and the part
that was not sent reads like a released line. -/
theorem taken_eq_store (r : Answer) (hsilent : ∀ k, r.sent ≤ k → k < 512 →
    store (a + k) = released) (hk : k < 512) : taken store r a k = store (a + k) := by
  unfold taken
  split
  · rfl
  · exact (hsilent k (by omega) hk).symm

theorem delivers_of_success (buff : ℕ → Byte) (sector : BitVec 32) {count : Byte} (l : BitVec 32)
    (out : List Byte) (h : ∀ i, i < count.toNat → Succeeds (plan (c + i))) :
    Delivers store plan c buff sector count l out ↔
      ∀ i, i < count.toNat → sector.toNat + i < 2 ^ 23 ∧
        ∀ k, (plan (c + i)).sent ≤ k → k < 512 →
          store (512 * (sector.toNat + i) + k) = released := by
  obtain ⟨result, heq, hblocks⟩ := blocks_taken store plan c buff sector l out h
  unfold Delivers
  rw [disk_read_sd, heq]
  constructor
  · intro hdelivers i hi
    obtain ⟨haddr, hdata⟩ := hdelivers rfl i hi
    have hlt : sector.toNat + i < 2 ^ 23 := by omega
    refine ⟨hlt, ?_⟩
    intro k hsent hk
    have hblock := hblocks i k hi hk
    rw [address_of_lt hlt, taken, if_neg (Nat.not_lt.mpr hsent)] at hblock
    exact (hdata k hk).symm.trans hblock
  · intro hin _ i hi
    obtain ⟨hlt, hsilent⟩ := hin i hi
    refine ⟨by omega, ?_⟩
    intro k hk
    have hblock := hblocks i k hi hk
    rw [address_of_lt hlt, taken_eq_store _ hsilent hk] at hblock
    exact hblock

/-- `disk_read` against any card: it keeps its promise exactly when the card
leaves one of its polls unanswered, or when all block numbers are below `2 ^ 23`
and what the card did not send of a block reads like a released line. -/
theorem delivers_exactly_when (store : ℕ → Byte) (plan : ℕ → Answer) (c : ℕ) (buff : ℕ → Byte)
    (sector : BitVec 32) (count : Byte) (l : BitVec 32) (out : List Byte) :
    Delivers store plan c buff sector count l out ↔
      (∃ i, i < count.toNat ∧ ¬Succeeds (plan (c + i))) ∨
      ∀ i, i < count.toNat → sector.toNat + i < 2 ^ 23 ∧
        ∀ k, (plan (c + i)).sent ≤ k → k < 512 →
          store (512 * (sector.toNat + i) + k) = released := by
  by_cases hfail : ∃ i, i < count.toNat ∧ ¬Succeeds (plan (c + i))
  · exact ⟨fun _ => .inl hfail, fun _ => delivers_of_failure buff sector l out hfail⟩
  · have hall : ∀ i, i < count.toNat → Succeeds (plan (c + i)) :=
      fun i hi => by_contra fun hno => hfail ⟨i, hi, hno⟩
    rw [delivers_of_success buff sector l out hall, or_iff_right hfail]

/-- A card that answers at once and in full. -/
def prompt : Answer where
  beforeR1 := []
  r1 := true
  beforeToken := []
  token := true
  sent := mmcBlockSize
  crc := [0xFF, 0xFF]
  quietR1 := by simp
  quietToken := by simp

def onlyFirst (a : ℕ) : Byte := if a = 0 then 1 else 0

/-- Block `2 ^ 23` does not fit the argument. The read succeeds with block 0. -/
theorem far_block_wraps :
    (diskRead (sdCard onlyFirst fun _ => prompt) sd (fun _ => 0) 0x800000 1
      ⟨0, ⟨[], [], 0⟩⟩).1.1 = .ok ∧
    (diskRead (sdCard onlyFirst fun _ => prompt) sd (fun _ => 0) 0x800000 1
      ⟨0, ⟨[], [], 0⟩⟩).1.2 0 = 1 ∧
    ¬Delivers onlyFirst (fun _ => prompt) 0 (fun _ => 0) 0x800000 1 0 [] := by
  have hprompt : Succeeds prompt := ⟨rfl, by decide, rfl, by decide⟩
  obtain ⟨result, heq, hblocks⟩ := blocks_taken onlyFirst (fun _ => prompt) 0 (fun _ => 0)
    0x800000 0 [] (fun j (_ : j < (1 : Byte).toNat) => hprompt)
  have haddr : (argument (readCommand (0x800000 + BitVec.ofNat 32 0))).toNat = 0 := by decide
  have hfirst := hblocks 0 0 (by decide) (by decide)
  rw [haddr] at hfirst
  unfold Delivers
  rw [disk_read_sd, heq]
  refine ⟨rfl, hfirst, ?_⟩
  intro h
  exact absurd (h rfl 0 (by decide)).1 (by decide)

end Vp2Motion.Proofs.DiskRead
