import Vp2Motion.Device.Scripted
import Vp2Motion.Firmware.Fatfs.Drive
import Vp2Motion.Proofs.BootFaults
import Vp2Motion.Proofs.DiskRead
import Vp2Motion.Serial.Alike

namespace Vp2Motion.Proofs.SdDrive
open Serial Firmware Firmware.Fatfs Device

section Buffer
variable {σ : Type} (card : Card σ)

theorem store_at_append (buff : ℕ → Byte) (start : ℕ) (x y : List Byte) :
    storeAt (storeAt buff start x) (start + x.length) y = storeAt buff start (x ++ y) := by
  funext a
  rw [storeAt, storeAt, storeAt, List.length_append]
  by_cases hx : start ≤ a ∧ a < start + x.length
  · rw [if_neg (by omega), if_pos hx, if_pos (by omega), List.getD_append _ _ _ _ (by omega)]
  · by_cases hy : start + x.length ≤ a ∧ a < start + x.length + y.length
    · rw [if_pos hy, if_pos (by omega), List.getD_append_right _ _ _ _ (by omega),
        Nat.sub_add_eq]
    · rw [if_neg hy, if_neg hx, if_neg (by omega)]

theorem store_at_nil (buff : ℕ → Byte) (start : ℕ) : storeAt buff start [] = buff := by
  funext a
  rw [storeAt, if_neg (by rw [List.length_nil]; omega)]

theorem receive_length (n : ℕ) (s : Spi σ) : (spiReceive card n s).1.length = n := by
  rw [spiReceive, transfer_all_fill, List.length_map, List.length_range]

/-- A block has 512 bytes. -/
theorem read_block_length (block : BitVec 32) (s : Spi σ)
    (h : (mmcReadBlock card block s).1.1 = 0) :
    (mmcReadBlock card block s).1.2.length = mmcBlockSize := by
  revert h
  simp only [mmcReadBlock, run_bind_eq]
  split
  · intro h
    change (-1 : ℤ) = 0 at h
    cases h
  · rw [run_bind_eq]
    split
    · intro h
      change (-1 : ℤ) = 0 at h
      cases h
    · intro _
      generalize (mmcResponse card 254 _).2 = t
      have hlen := receive_length card mmcBlockSize t
      rw [run_bind_eq]
      generalize spiReceive card mmcBlockSize t = r at hlen ⊢
      exact hlen

theorem disk_read_from_eq (sector : BitVec 32) (i left : ℕ) (buff : ℕ → Byte) (s : Spi σ) :
    diskReadFrom card sector i left buff s =
      (((blocksFrom card sector i left s).1.1,
        storeAt buff (mmcBlockSize * i) (blocksFrom card sector i left s).1.2),
        (blocksFrom card sector i left s).2) := by
  induction left generalizing i buff s with
  | zero =>
    change ((DResult.ok, buff), s) = ((DResult.ok, storeAt buff _ []), s)
    rw [store_at_nil]
  | succ left ih =>
    have hlen := read_block_length card (sector + BitVec.ofNat 32 i) s
    rw [diskReadFrom, blocksFrom, run_bind_eq, run_bind_eq]
    generalize mmcReadBlock card (sector + BitVec.ofNat 32 i) s = r at hlen ⊢
    obtain ⟨⟨result, data⟩, t⟩ := r
    dsimp only at hlen ⊢
    by_cases hok : result = 0
    · rw [if_neg (Classical.not_not.mpr hok), if_neg (Classical.not_not.mpr hok), ih,
        Nat.mul_succ, ← hlen hok, store_at_append]
      rfl
    · rw [if_pos hok, if_pos hok]
      change ((DResult.error, buff), t) = ((DResult.error, storeAt buff _ []), t)
      rw [store_at_nil]

/-- `disk_read` stores the same blocks in its buffer, with the same result. -/
theorem disk_read_eq (buff : ℕ → Byte) (sector count : ℕ) (s : Spi σ) :
    Firmware.diskRead card sd buff (BitVec.ofNat 32 sector) (BitVec.ofNat 8 count) s =
      ((((sdDisk card).read sector count s).1,
        storeAt buff 0 ((sdDisk card).read sector count s).2.1),
        ((sdDisk card).read sector count s).2.2) := by
  rw [Firmware.diskRead, if_pos rfl]
  exact disk_read_from_eq card _ 0 _ buff s

end Buffer

section Card
variable {store : ℕ → Byte} {plan : ℕ → Answer}

/-- Between two commands the card is as one that only reads. -/
def Idle (c : ℕ) (script : List (List Byte)) (s : Scripted) (t : SdCard) : Prop :=
  ∃ out, s = ⟨⟨[], out, c⟩, script⟩ ∧ t = ⟨[], out, c⟩

theorem fill_matches :
    Matches (scriptedCard store plan) (sdCard store plan) (Idle c script) 0xFF := by
  rintro level s t ⟨out, rfl, rfl⟩
  simp only [scriptedCard, sdCard]
  split
  · exact ⟨rfl, out.tail, rfl, rfl⟩
  · exact ⟨rfl, [], rfl, rfl⟩

theorem receive_byte_alike : Alike (Idle c script) (spiReceiveByte (scriptedCard store plan))
    (spiReceiveByte (sdCard store plan)) :=
  alike_transfer fill_matches

theorem response_alike (b : Byte) : Alike (Idle c script) (mmcResponse (scriptedCard store plan) b)
    (mmcResponse (sdCard store plan) b) := by
  refine (alike_poll fill_matches _ _).bind fun count => ?_
  split
  · exact .pure 1
  · exact .pure 0

/-- What a command leaves behind. -/
def heard (store : ℕ → Byte) (plan : ℕ → Answer) (command : List Byte) (c : ℕ)
    (script : List (List Byte)) : Scripted :=
  if command.head? = some 0x51 then
    ⟨⟨[], (plan c).bytes (blockAt store (argument command).toNat), c + 1⟩, script⟩
  else ⟨⟨[], script.headD [], c⟩, script.tail⟩

theorem exchange_first (hb : b.extractLsb' 6 2 = 0b01) (out : List Byte) (c : ℕ)
    (script : List (List Byte)) :
    ((scriptedCard store plan).exchange 1 b ⟨⟨[], out, c⟩, script⟩).2 =
      ⟨⟨[b], out.tail, c⟩, script⟩ := by
  simp [scriptedCard, receiveAny, hb]

theorem exchange_next (b mosi : Byte) {bs : List Byte} (h : bs.length < 4) (out : List Byte)
    (c : ℕ) (script : List (List Byte)) :
    ((scriptedCard store plan).exchange 1 mosi ⟨⟨b :: bs, out, c⟩, script⟩).2 =
      ⟨⟨b :: (bs ++ [mosi]), out.tail, c⟩, script⟩ := by
  have hlt : bs.length + 1 < 5 := by omega
  simp [scriptedCard, receiveAny, hlt]

theorem exchange_last (b₀ b₁ b₂ b₃ b₄ mosi : Byte) (out : List Byte) (c : ℕ)
    (script : List (List Byte)) :
    ((scriptedCard store plan).exchange 1 mosi ⟨⟨[b₀, b₁, b₂, b₃, b₄], out, c⟩, script⟩).2 =
      heard store plan [b₀, b₁, b₂, b₃, b₄, mosi] c script := by
  by_cases hread : b₀ = 0x51#8
  · simp [scriptedCard, receiveAny, executeAny, execute, heard, hread]
  · simp [scriptedCard, receiveAny, executeAny, heard, hread]

theorem send_slave {σ : Type} (card : Card σ) (data : List Byte) (l : BitVec 32) (s : σ) :
    spiSend card data ⟨l, s⟩ =
      ((), ⟨l, data.foldl (fun t b => (card.exchange l b t).2) s⟩) := by
  rw [spiSend, run_bind_eq, transfer_all_slave]
  rfl

theorem send_command (b₀ b₁ b₂ b₃ b₄ b₅ : Byte) (hb : b₀.extractLsb' 6 2 = 0b01)
    (out : List Byte) (c : ℕ) (script : List (List Byte)) :
    spiSend (scriptedCard store plan) [b₀, b₁, b₂, b₃, b₄, b₅] ⟨1, ⟨⟨[], out, c⟩, script⟩⟩ =
      ((), ⟨1, heard store plan [b₀, b₁, b₂, b₃, b₄, b₅] c script⟩) := by
  rw [send_slave]
  simp only [List.foldl_cons, List.foldl_nil]
  rw [exchange_first hb, exchange_next _ _ (by simp), exchange_next _ _ (by simp),
    exchange_next _ _ (by simp), exchange_next _ _ (by simp)]
  exact congrArg (fun s => ((), Link.mk 1 s)) (exchange_last ..)

/-- `mmc_read_block` from the first response on. -/
def takeBlock {σ : Type} (card : Card σ) : StateM (Spi σ) (ℤ × List Byte) := do
  let response ← mmcResponse card 0x00
  if response = 1 then return (-1, [])
  else
    let token ← mmcResponse card 0xFE
    if token = 1 then return (-1, [])
    else
      let data ← spiReceive card mmcBlockSize
      let _ ← spiReceiveByte card
      let _ ← spiReceiveByte card
      setCs
      let _ ← spiReceiveByte card
      return (0, data)

theorem read_block_eq {σ : Type} (card : Card σ) (block : BitVec 32) :
    mmcReadBlock card block = (do
      clearCs
      spiSend card (readCommand block)
      takeBlock card) := rfl

theorem take_block_alike : Alike (Idle c script) (takeBlock (scriptedCard store plan))
    (takeBlock (sdCard store plan)) := by
  refine (response_alike 0x00).bind fun response => ?_
  split
  · exact .pure (-1, [])
  · refine (response_alike 0xFE).bind fun token => ?_
    split
    · exact .pure (-1, [])
    · refine (alike_fill fill_matches mmcBlockSize).bind fun data => ?_
      exact receive_byte_alike.bind fun _ => receive_byte_alike.bind fun _ =>
        (alike_select 0).bind fun _ => receive_byte_alike.bind fun _ => .pure (0, data)

/-- A read is the same as on the card that only reads. -/
theorem read_alike (store : ℕ → Byte) (plan : ℕ → Answer) (block l : BitVec 32)
    (out : List Byte) (c : ℕ) (script : List (List Byte)) :
    ∃ r l' out', mmcReadBlock (scriptedCard store plan) block ⟨l, ⟨⟨[], out, c⟩, script⟩⟩ =
        (r, ⟨l', ⟨⟨[], out', c + 1⟩, script⟩⟩) ∧
      mmcReadBlock (sdCard store plan) block ⟨l, ⟨[], out, c⟩⟩ =
        (r, ⟨l', ⟨[], out', c + 1⟩⟩) := by
  have hsend : spiSend (scriptedCard store plan) (readCommand block) ⟨1, ⟨⟨[], out, c⟩, script⟩⟩ =
      ((), ⟨1, ⟨⟨[], (plan c).bytes (blockAt store (argument (readCommand block)).toNat), c + 1⟩,
        script⟩⟩) :=
    send_command 0x51 _ _ _ _ _ (by decide) out c script
  have halike : Alike (Idle (c + 1) script) (takeBlock (scriptedCard store plan))
    (takeBlock (sdCard store plan)) := take_block_alike
  obtain ⟨r, l', s, t, hscripted, hsd, out', rfl, rfl⟩ :=
    halike 1 _ _ ⟨(plan c).bytes (blockAt store (argument (readCommand block)).toNat), rfl, rfl⟩
  refine ⟨r, l', out', ?_, ?_⟩
  · rw [read_block_eq, run_bind Mmc.clear_cs_eq, run_bind hsend]
    exact hscripted
  · rw [read_block_eq, run_bind Mmc.clear_cs_eq, run_bind (DiskRead.send_read block out c)]
    exact hsd

/-- The sectors of a card. -/
def imageOf (store : ℕ → Byte) (k : ℕ) : List Byte := blockAt store (512 * k)

/-- The card sends every block that it has started. -/
def Whole (plan : ℕ → Answer) : Prop := ∀ n, mmcBlockSize ≤ (plan n).sent

theorem taken_whole (h : Whole plan) (a : ℕ) :
    (List.range mmcBlockSize).map (DiskRead.taken store (plan c) a) = blockAt store a := by
  rw [blockAt]
  refine List.map_congr_left fun k hk => ?_
  rw [DiskRead.taken, if_pos (Nat.lt_of_lt_of_le (List.mem_range.mp hk) (h c))]

/-- A read gives the sector exactly when the card answers in time. -/
theorem read_outcome (store : ℕ → Byte) (h : Whole plan) {sector : BitVec 32} {i : ℕ}
    (hlt : sector.toNat + i < 2 ^ 23) (l : BitVec 32) (out : List Byte) (c : ℕ)
    (script : List (List Byte)) :
    ∃ r l' out', mmcReadBlock (scriptedCard store plan) (sector + BitVec.ofNat 32 i)
        ⟨l, ⟨⟨[], out, c⟩, script⟩⟩ = (r, ⟨l', ⟨⟨[], out', c + 1⟩, script⟩⟩) ∧
      (DiskRead.Succeeds (plan c) → r = (0, imageOf store (sector.toNat + i))) ∧
      (¬DiskRead.Succeeds (plan c) → r = (-1, [])) := by
  obtain ⟨r, l', out', hscripted, hsd⟩ :=
    read_alike store plan (sector + BitVec.ofNat 32 i) l out c script
  refine ⟨r, l', out', hscripted, ?_, ?_⟩
  · intro hok
    rw [DiskRead.read_succeeds hok, Prod.mk.injEq, taken_whole h, DiskRead.address_of_lt hlt] at hsd
    exact hsd.1.symm
  · intro hfail
    exact (congrArg Prod.fst hsd).symm.trans (DiskRead.read_fails hfail _ _ _)

/-- The blocks up to the first that the card does not answer in time. -/
theorem blocks_outcome (store : ℕ → Byte) (h : Whole plan) {sector : BitVec 32} {i left : ℕ}
    (hlt : sector.toNat + i + left ≤ 2 ^ 23) (l : BitVec 32) (out : List Byte) (c : ℕ)
    (script : List (List Byte)) :
    ∃ r l' out' c', blocksFrom (scriptedCard store plan) sector i left
        ⟨l, ⟨⟨[], out, c⟩, script⟩⟩ = (r, ⟨l', ⟨⟨[], out', c'⟩, script⟩⟩) ∧ c ≤ c' ∧
      (r = (.ok, Storage.sectors (imageOf store) (sector.toNat + i) left) ∨
        ∃ k < left, r = (.error, Storage.sectors (imageOf store) (sector.toNat + i) k) ∧
          ∃ n, c ≤ n ∧ n < c' ∧ ¬DiskRead.Succeeds (plan n)) := by
  induction left generalizing i l out c with
  | zero => exact ⟨_, l, out, c, rfl, Nat.le_refl c, .inl rfl⟩
  | succ left ih =>
    obtain ⟨r, l', out', hread, hok, hfail⟩ := read_outcome store h
      (show sector.toNat + i < 2 ^ 23 by omega) l out c script
    rw [blocksFrom, run_bind hread]
    by_cases hs : DiskRead.Succeeds (plan c)
    · obtain ⟨r', l'', out'', c', hrest, hle, hcases⟩ := ih (i := i + 1) (by omega) l' out' (c + 1)
      rw [hok hs, if_neg (by simp), run_bind hrest]
      refine ⟨_, l'', out'', c', rfl, by omega, ?_⟩
      rcases hcases with rfl | ⟨k, hk, rfl, n, hn, hn', hslow⟩
      · left
        rw [Storage.sectors_succ, Nat.add_assoc]
      · right
        refine ⟨k + 1, by omega, ?_, n, by omega, hn', hslow⟩
        rw [Storage.sectors_succ, Nat.add_assoc]
    · rw [hfail hs, if_pos (by decide)]
      exact ⟨_, l', out', c + 1, rfl, by omega, .inr ⟨0, by omega, rfl, c, Nat.le_refl c,
        Nat.lt_succ_self c, hs⟩⟩

theorem exchange_deselected (mosi : Byte) (s : Scripted) :
    (scriptedCard store plan).exchange 0 mosi s = (released, ⟨⟨[], [], s.served⟩, s.script⟩) := rfl

theorem exchange_fill (out : List Byte) (c : ℕ) (script : List (List Byte)) :
    (scriptedCard store plan).exchange 1 0xFF ⟨⟨[], out, c⟩, script⟩ =
      (out.headD released, ⟨⟨[], out.tail, c⟩, script⟩) := rfl

theorem receive_byte_selected (out : List Byte) (c : ℕ) (script : List (List Byte)) :
    spiReceiveByte (scriptedCard store plan) ⟨1, ⟨⟨[], out, c⟩, script⟩⟩ =
      (out.headD released, ⟨1, ⟨⟨[], out.tail, c⟩, script⟩⟩) := by
  rw [spiReceiveByte, transfer_eq, exchange_fill]

theorem receive_byte_deselected (s : Scripted) :
    spiReceiveByte (scriptedCard store plan) ⟨0, s⟩ =
      (released, ⟨0, ⟨⟨[], [], s.served⟩, s.script⟩⟩) := by
  rw [spiReceiveByte, transfer_eq, exchange_deselected]

theorem scripted_after (out : List Byte) (c : ℕ) (script : List (List Byte)) (k : ℕ) :
    (scriptedCard store plan).after 1 0xFF ⟨⟨[], out, c⟩, script⟩ k =
      ⟨⟨[], out.drop k, c⟩, script⟩ := by
  induction k generalizing out with
  | zero => rfl
  | succ k ih =>
    rw [Slave.after, exchange_fill, ih, List.drop_tail]

theorem scripted_answer (out : List Byte) (c : ℕ) (script : List (List Byte)) (k : ℕ) :
    (scriptedCard store plan).answer 1 0xFF ⟨⟨[], out, c⟩, script⟩ k = out.getD k released := by
  rw [Slave.answer, scripted_after, exchange_fill]
  simp [List.headD_eq_head?_getD, List.getD_eq_getElem?_getD]

/-- The card gives `b` while the driver polls for it. -/
def InTime (b : Byte) (answer : List Byte) : Prop := b ∈ answer.take responseCount

instance (b : Byte) (answer : List Byte) : Decidable (InTime b answer) :=
  inferInstanceAs (Decidable (_ ∈ _))

theorem in_time_iff (hb : b ≠ released) (answer : List Byte) :
    (∃ k, k < responseCount ∧ answer.getD k released = b) ↔ InTime b answer := by
  rw [InTime, List.mem_take_iff_getElem]
  constructor
  · rintro ⟨k, hk, hget⟩
    rcases Nat.lt_or_ge k answer.length with hlt | hge
    · rw [List.getD_eq_getElem _ _ hlt] at hget
      exact ⟨k, Nat.lt_min.mpr ⟨hk, hlt⟩, hget⟩
    · rw [List.getD_eq_default _ _ hge] at hget
      exact absurd hget.symm hb
  · rintro ⟨k, hk, hget⟩
    obtain ⟨hcount, hlt⟩ := Nat.lt_min.mp hk
    exact ⟨k, hcount, by rw [List.getD_eq_getElem _ _ hlt]; exact hget⟩

theorem response_outcome (store : ℕ → Byte) (plan : ℕ → Answer) (hb : b ≠ released)
    (answer : List Byte) (c : ℕ) (script : List (List Byte)) :
    ∃ out, mmcResponse (scriptedCard store plan) b ⟨1, ⟨⟨[], answer, c⟩, script⟩⟩ =
      (if InTime b answer then 0 else 1, ⟨1, ⟨⟨[], out, c⟩, script⟩⟩) := by
  have hcond : (∃ k, k < responseCount ∧
      (scriptedCard store plan).answer 1 0xFF ⟨⟨[], answer, c⟩, script⟩ k = b) ↔
        InTime b answer := by
    simp only [scripted_answer]
    exact in_time_iff hb answer
  rw [Mmc.response_run]
  dsimp only
  rw [scripted_after]
  refine ⟨_, congrArg₂ Prod.mk ?_ rfl⟩
  exact if_congr hcond rfl rfl

theorem dummy_clocks_outcome (out : List Byte) (c : ℕ) (script : List (List Byte)) :
    dummyClocks (scriptedCard store plan) ⟨1, ⟨⟨[], out, c⟩, script⟩⟩ =
      ((), ⟨0, ⟨⟨[], [], c⟩, script⟩⟩) := by
  rw [dummyClocks, run_bind (receive_byte_selected ..), run_bind Mmc.set_cs_eq,
    run_bind (receive_byte_deselected _), run_bind (receive_byte_deselected _)]
  rfl

/-- A command other than a read takes the next answer of the script. -/
theorem other_command (b₀ b₁ b₂ b₃ b₄ b₅ : Byte) (hb : b₀.extractLsb' 6 2 = 0b01)
    (hne : b₀ ≠ 0x51) (out : List Byte) (c : ℕ) (script : List (List Byte)) :
    spiSend (scriptedCard store plan) [b₀, b₁, b₂, b₃, b₄, b₅] ⟨1, ⟨⟨[], out, c⟩, script⟩⟩ =
      ((), ⟨1, ⟨⟨[], script.headD [], c⟩, script.tail⟩⟩) := by
  have hother : ([b₀, b₁, b₂, b₃, b₄, b₅] : List Byte).head? ≠ some 0x51 :=
    fun h => hne (Option.some.inj h)
  rw [send_command _ _ _ _ _ _ hb, heard, if_neg hother]

theorem head_get (script : List (List Byte)) : script.headD [] = script.getD 0 [] := by
  cases script with
  | nil => rfl
  | cons a script => rfl

theorem get_tail (script : List (List Byte)) (m : ℕ) :
    script.tail.getD m [] = script.getD (m + 1) [] := by
  cases script with
  | nil => simp
  | cons a script => rfl

/-- CMD1 is taken as answered when one of its answers but the last comes in time. -/
theorem op_cond_outcome (store : ℕ → Byte) (plan : ℕ → Answer) (i : ℕ) (out : List Byte) (c : ℕ)
    (script : List (List Byte)) :
    ∃ r out' script', sendOpCond (scriptedCard store plan) i ⟨1, ⟨⟨[], out, c⟩, script⟩⟩ =
        (r, ⟨1, ⟨⟨[], out', c⟩, script'⟩⟩) ∧
      (r ≠ 0 ↔ ∃ m, m + 1 < i ∧ InTime 0x00 (script.getD m [])) := by
  induction i generalizing out script with
  | zero => exact ⟨0, out, script, rfl, by simp⟩
  | succ i ih =>
    obtain ⟨out', hresponse⟩ := response_outcome store plan
      (show (0x00 : Byte) ≠ released by decide) (script.headD []) c script.tail
    rw [sendOpCond, run_bind (other_command _ _ _ _ _ _ (by decide) (by decide) ..),
      run_bind hresponse]
    rw [head_get] at hresponse ⊢
    by_cases hin : InTime 0x00 (script.getD 0 [])
    · rw [if_pos hin, if_neg (by simp)]
      refine ⟨i, out', script.tail, rfl, ?_⟩
      constructor
      · intro hne
        exact ⟨0, by omega, hin⟩
      · rintro ⟨m, hm, -⟩
        omega
    · rw [if_neg hin]
      by_cases hi : 0 < i
      · obtain ⟨r, out'', script', hrest, hiff⟩ := ih out' script.tail
        rw [if_pos ⟨by decide, hi⟩]
        refine ⟨r, out'', script', hrest, hiff.trans ?_⟩
        constructor
        · rintro ⟨m, hm, hintime⟩
          rw [get_tail] at hintime
          exact ⟨m + 1, by omega, hintime⟩
        · rintro ⟨m, hm, hintime⟩
          cases m with
          | zero => exact absurd hintime hin
          | succ m => exact ⟨m, by omega, by rw [get_tail]; exact hintime⟩
      · rw [if_neg fun hboth => hi hboth.2]
        refine ⟨i, out', script.tail, rfl, ?_⟩
        constructor
        · intro hne
          omega
        · rintro ⟨m, hm, -⟩
          omega

/-- The card says that it is idle, and in time that it is ready. -/
structure Wakes (script : List (List Byte)) : Prop where
  idle : InTime 0x01 (script.getD 0 [])
  ready : ∃ m < 254, InTime 0x00 (script.getD (m + 1) [])

theorem clocks_outcome (n : ℕ) (s : Scripted) :
    (spiReceive (scriptedCard store plan) (n + 1) ⟨0, s⟩).2 =
      ⟨0, ⟨⟨[], [], s.served⟩, s.script⟩⟩ := by
  rw [spiReceive, transfer_all_fill]
  dsimp only
  have hafter : ∀ m, (scriptedCard store plan).after 0 0xFF ⟨⟨[], [], s.served⟩, s.script⟩ m =
      ⟨⟨[], [], s.served⟩, s.script⟩ := by
    intro m
    induction m with
    | zero => rfl
    | succ m ih => rw [Slave.after, exchange_deselected, ih]
  rw [Slave.after, exchange_deselected, hafter]

/-- The driver brings the card up exactly when it wakes. -/
theorem init_outcome (store : ℕ → Byte) (plan : ℕ → Answer) (l : BitVec 32) (s : Scripted) :
    ∃ r l' out script', mmcInit (scriptedCard store plan) ⟨l, s⟩ =
        (r, ⟨l', ⟨⟨[], out, s.served⟩, script'⟩⟩) ∧
      (Wakes s.script → r = 0) ∧ (¬Wakes s.script → r = -1) := by
  obtain ⟨out₀, hidle⟩ := response_outcome store plan (show (0x01 : Byte) ≠ released by decide)
    (s.script.headD []) s.served s.script.tail
  have hclocks : (spiReceive (scriptedCard store plan) 10 ⟨0, s⟩).2 = _ := clocks_outcome 9 s
  rw [mmcInit, run_bind Mmc.set_cs_eq, run_bind_eq, hclocks, run_bind Mmc.clear_cs_eq,
    run_bind (other_command _ _ _ _ _ _ (by decide) (by decide) ..), run_bind hidle]
  rw [head_get] at hidle ⊢
  by_cases hin : InTime 0x01 (s.script.getD 0 [])
  · obtain ⟨i, out₁, script₁, hopcond, hiff⟩ := op_cond_outcome store plan mmcTimeout []
      s.served s.script.tail
    rw [if_pos hin, if_neg (by decide), run_bind (dummy_clocks_outcome ..),
      run_bind Mmc.clear_cs_eq, run_bind hopcond]
    have hready : i ≠ 0 ↔ ∃ m < 254, InTime 0x00 (s.script.getD (m + 1) []) := by
      rw [hiff]
      refine exists_congr fun m => ?_
      rw [get_tail, mmcTimeout]
      exact and_congr_left fun _ => by omega
    by_cases hi : i = 0
    · rw [if_pos hi]
      refine ⟨-1, 1, out₁, script₁, rfl, ?_, fun _ => rfl⟩
      intro hwakes
      exact absurd hi (hready.mpr hwakes.ready)
    · obtain ⟨out₂, hblocklen⟩ := response_outcome store plan
        (show (0x00 : Byte) ≠ released by decide) (script₁.headD []) s.served script₁.tail
      rw [if_neg hi, run_bind (dummy_clocks_outcome ..), run_bind Mmc.clear_cs_eq,
        run_bind (other_command _ _ _ _ _ _ (by decide) (by decide) ..), run_bind hblocklen,
        run_bind (dummy_clocks_outcome ..)]
      refine ⟨0, 0, [], script₁.tail, rfl, fun _ => rfl, ?_⟩
      intro hwakes
      exact absurd ⟨hin, hready.mp hi⟩ hwakes
  · rw [if_neg hin, if_pos (by decide)]
    refine ⟨-1, 1, out₀, s.script.tail, rfl, ?_, fun _ => rfl⟩
    intro hwakes
    exact absurd hwakes.idle hin

open FatTable BootRecord

/-- Between two commands, with `first` reads or more behind. -/
def Ready (first : ℕ) (d : Spi Scripted) : Prop := d.slave.command = [] ∧ first ≤ d.slave.served

/-- A read from `first` on has not been answered in time. -/
def Late (plan : ℕ → Answer) (first : ℕ) (d : Spi Scripted) : Prop :=
  ∃ n, first ≤ n ∧ n < d.slave.served ∧ ¬DiskRead.Succeeds (plan n)

theorem image_length (store : ℕ → Byte) (k : ℕ) : (imageOf store k).length = ss := by
  rw [imageOf, blockAt, List.length_map, List.length_range]
  rfl

theorem sd_disk_holds (h : Whole plan) (hlimit : limit ≤ 2 ^ 23) {failed : Spi Scripted → Prop}
    (hfailed : ∀ d, Late plan first d → failed d) :
    Holds (sdDisk (scriptedCard store plan)) (Ready first) failed (imageOf store) limit := by
  have hread : ∀ sector count (d : Spi Scripted), Ready first d → sector + count ≤ limit →
      count < 2 ^ 8 → ∃ r d', (sdDisk (scriptedCard store plan)).read sector count d =
        (r.1, r.2, d') ∧ Ready first d' ∧
        (r = (.ok, Storage.sectors (imageOf store) sector count) ∨
          ∃ k < count, r = (.error, Storage.sectors (imageOf store) sector k) ∧
            Late plan first d') := by
    rintro sector count ⟨l, ⟨⟨command, out, c⟩, script⟩⟩ ⟨rfl, hfirst⟩ hin hcount
    have hsector : (BitVec.ofNat 32 sector).toNat = sector := by
      rw [BitVec.toNat_ofNat]
      omega
    have hbyte : (BitVec.ofNat 8 count).toNat = count := by
      rw [BitVec.toNat_ofNat]
      omega
    obtain ⟨r, l', out', c', hrun, hle, hcases⟩ := blocks_outcome store h
      (show (BitVec.ofNat 32 sector).toNat + 0 + count ≤ 2 ^ 23 by omega) l out c script
    rw [hsector, Nat.add_zero] at hcases
    refine ⟨r, ⟨l', ⟨⟨[], out', c'⟩, script⟩⟩, ?_, ⟨rfl, Nat.le_trans hfirst hle⟩, ?_⟩
    · simp only [sdDisk, hbyte, hrun]
    · refine hcases.imp_right ?_
      rintro ⟨k, hk, hr, n, hn, hn', hslow⟩
      exact ⟨k, hk, hr, n, Nat.le_trans hfirst hn, hn', hslow⟩
  refine ⟨image_length store, ?_, ?_⟩
  · intro sector count d hd hin hcount
    obtain ⟨r, d', heq, hready, -⟩ := hread sector count d hd hin hcount
    rw [heq]
    exact hready
  · intro sector count d hd hin hcount
    obtain ⟨r, d', heq, -, hcases⟩ := hread sector count d hd hin hcount
    rw [heq]
    rcases hcases with rfl | ⟨k, hk, rfl, hlate⟩
    · exact .inl ⟨rfl, rfl⟩
    · exact .inr ⟨DResult.noConfusion, hfailed d' hlate, k, hk, rfl⟩

theorem sd_disk_starts {failed : Spi Scripted → Prop} (d : Spi Scripted)
    (hfailed : ¬Wakes d.slave.script → ∀ d', failed d') :
    Starts (sdDisk (scriptedCard store plan)) (Ready d.slave.served) failed d := by
  obtain ⟨r, l', out, script', hinit, hwakes, hdead⟩ := init_outcome store plan d.select d.slave
  have hrun : (sdDisk (scriptedCard store plan)).init d =
      (BitVec.ofInt 8 r, ⟨l', ⟨⟨[], out, d.slave.served⟩, script'⟩⟩) := by
    change diskInitialize (scriptedCard store plan) sd d = _
    rw [diskInitialize, if_pos rfl, run_bind hinit]
    rfl
  unfold Starts
  rw [hrun]
  split
  · exact ⟨rfl, Nat.le_refl _⟩
  · rename_i hstat
    refine hfailed ?_ _
    intro hw
    rw [hwakes hw] at hstat
    exact hstat (show BitVec.ofInt 8 0 &&& staNoinit = 0 by decide)

open DirSearch PathOpen ElfHeaders

/-- Down to the bytes on the bus: from a card that sends each block whole that it has started, a
well-formed image in its sectors is started, whole, unless the card did not wake or left a read
without an answer in time. The call returns -1 then. -/
theorem boots_from_card (hwhole : Whole plan) (hlimit : v.limit ≤ 2 ^ 23)
    (hpart : PartitionInside (imageOf store) (2 ^ 23)) (hc : Carries (imageOf store) v)
    (hroot : Rooted v) (hfile : HasFile v (imageOf store) bootElf clusters file)
    (helf : LoadedImage.WellFormed file own) (hown : LoadedImage.Owns own buf)
    {s : Fs (Spi Scripted)} (hwin : s.fs.win.length = ss) (hbuf : s.fil.buf.length = ss)
    (mem : Memory.Store 32) :
    let run := bootelf (bootFile (sdDisk (scriptedCard store plan))) buf mem s
    (∃ n, (run n).control = .jumped (fileEhdr file).entry ∨
      (run n).control = .returned (-1) ∧ (¬Wakes s.disk.slave.script ∨
        Late plan s.disk.slave.served (run n).fil.disk)) ∧
    ∀ n entry, (run n).control = .jumped entry → entry = (fileEhdr file).entry ∧
      ∀ a, ¬own a → (run n).mem a = LoadedImage.image file (fileEhdr file).phnum.toNat mem a := by
  have hholds : Holds (sdDisk (scriptedCard store plan)) (Ready s.disk.slave.served)
      (fun d => ¬Wakes s.disk.slave.script ∨ Late plan s.disk.slave.served d) (imageOf store)
      (2 ^ 23) :=
    sd_disk_holds hwhole (Nat.le_refl _) fun d hlate => .inr hlate
  have hboots := BootFaults.boots_file hholds (sd_disk_starts s.disk fun hdead _ => .inl hdead)
    hlimit hpart hc hroot hfile helf hown hwin hbuf mem
  exact ⟨hboots.ends, hboots.whole⟩

/-- The bytes of a card with given sectors. -/
def storeOf (image : ℕ → List Byte) (a : ℕ) : Byte := (image (a / 512)).getD (a % 512) 0

theorem image_of_store {image : ℕ → List Byte} (hsize : ∀ k, (image k).length = ss) :
    imageOf (storeOf image) = image := by
  funext k
  refine List.ext_getElem ((image_length _ k).trans (hsize k).symm) ?_
  intro i hi hi'
  have hlt : i < 512 := by
    rw [hsize] at hi'
    exact hi'
  simp only [imageOf, blockAt, List.getElem_map, List.getElem_range, storeOf]
  rw [Nat.mul_add_div (by decide), Nat.div_eq_of_lt hlt, Nat.add_zero, Nat.mul_add_mod,
    Nat.mod_eq_of_lt hlt, List.getD_eq_getElem _ _ hi']

/-- A card that wakes at once. -/
def freshCard : Spi Scripted := ⟨0, ⟨⟨[], [], 0⟩, [[0x01], [0x00], [0x00]]⟩⟩

theorem small_elf_boots :
    ∃ n, (bootelf (bootFile (sdDisk (scriptedCard (storeOf (smallCard Bootelf.smallElf))
      fun _ => DiskRead.prompt))) 0xFFFC0000 (fun _ => 0xFF) (blankFs freshCard) n).control =
        .jumped 0x100 := by
  have himage : imageOf (storeOf (smallCard Bootelf.smallElf)) = smallCard Bootelf.smallElf :=
    image_of_store (small_card_size Bootelf.smallElf)
  have hpart : PartitionInside (imageOf (storeOf (smallCard Bootelf.smallElf))) (2 ^ 23) := by
    rw [himage]
    exact small_partition _ _
  have hcarries : Carries (imageOf (storeOf (smallCard Bootelf.smallElf))) smallVolume := by
    rw [himage]
    exact small_card_carries _
  have hwhole : Whole fun _ => DiskRead.prompt := fun _ => Nat.le_refl _
  have hwakes : Wakes freshCard.slave.script := ⟨by decide +kernel, 0, by decide, by decide +kernel⟩
  have hprompt : DiskRead.Succeeds DiskRead.prompt := ⟨rfl, by decide, rfl, by decide⟩
  obtain ⟨n, hjumped | ⟨-, hdead | ⟨k, -, -, hslow⟩⟩⟩ :=
    (boots_from_card (s := blankFs freshCard) hwhole (by decide) hpart hcarries small_rooted
      (by rw [himage]; exact BootFaults.small_elf_has_file) LoadedImage.small_elf_well_formed
      (LoadedImage.owns_in_buf 0xFFFC0000) (List.length_replicate ..) (List.length_replicate ..)
      fun _ => 0xFF).1
  · exact ⟨n, hjumped⟩
  · exact absurd hwakes hdead
  · exact absurd hprompt hslow

end Card

end Vp2Motion.Proofs.SdDrive
