import Vp2Motion.Firmware.Fatfs.Basic
import Vp2Motion.Storage.Chained

namespace Vp2Motion.Proofs.FatTable
open Firmware Firmware.Fatfs Fallible Storage

variable {σ : Type}

/-- The disk has the sectors `image` below `limit`. A read may fail after any of its
sectors, and then the disk has failed. -/
structure Holds (disk : Disk σ) (ready failed : σ → Prop) (image : ℕ → List Byte) (limit : ℕ) :
    Prop where
  size : ∀ k, (image k).length = ss
  stays : ∀ sector count d, ready d → sector + count ≤ limit → count < 2 ^ 8 →
    ready (disk.read sector count d).2.2
  read : ∀ sector count d, ready d → sector + count ≤ limit → count < 2 ^ 8 →
    (disk.read sector count d).1 = .ok ∧
      (disk.read sector count d).2.1 = sectors image sector count ∨
    (disk.read sector count d).1 ≠ .ok ∧ failed (disk.read sector count d).2.2 ∧
      ∃ k < count, (disk.read sector count d).2.1 = sectors image sector k

/-- How many bytes the table needs for its entries. -/
def tableSize (type : FatType) (entries : ℕ) : ℕ :=
  match type with
  | .fat12 => (entries * 3 + 1) / 2
  | .fat16 => entries * 2
  | .fat32 => entries * 4

/-- The layout of a volume whose table and data lie below `limit`. -/
structure Volume extends Geometry where
  type : FatType
  limit : ℕ
  kind : type = fatTypeOf (nFatent - 2)
  power : ∃ k ≤ 7, csize = 2 ^ k
  tablePos : 0 < fatbase
  tableFits : fatbase + fsize ≤ limit
  tableHolds : tableSize type nFatent ≤ fsize * ss
  entries : 2 ≤ nFatent ∧ nFatent ≤ 2 ^ 28
  dataPos : 0 < database
  dataFits : database + (nFatent - 2) * csize ≤ limit
  below : limit < 2 ^ 32

variable {disk : Disk σ} {ready failed : σ → Prop} {image : ℕ → List Byte} {v : Volume} {s : Fs σ}

namespace Volume

theorem csize_pos (v : Volume) : 0 < v.csize := by
  obtain ⟨k, -, hk⟩ := v.power
  rw [hk]
  exact Nat.two_pow_pos k

theorem csize_le (v : Volume) : v.csize ≤ 128 := by
  obtain ⟨k, hle, hk⟩ := v.power
  rw [hk]
  exact Nat.pow_le_pow_right (by decide) hle

/-- Byte `i` of the table. -/
def tableByte (v : Volume) (image : ℕ → List Byte) (i : ℕ) : ℕ :=
  ldByte (image (v.fatbase + i / ss)) (i % ss)

/-- The entry of a cluster. -/
def link (v : Volume) (image : ℕ → List Byte) (c : ℕ) : ℕ :=
  match v.type with
  | .fat12 =>
    let wc := v.tableByte image (c + c / 2) + 256 * v.tableByte image (c + c / 2 + 1)
    if c % 2 = 1 then wc / 16 else wc % 4096
  | .fat16 => v.tableByte image (2 * c) + 256 * v.tableByte image (2 * c + 1)
  | .fat32 => (v.tableByte image (4 * c) + 256 * v.tableByte image (4 * c + 1) +
      65536 * (v.tableByte image (4 * c + 2) + 256 * v.tableByte image (4 * c + 3))) % 2 ^ 28

/-- The first sector of a cluster. -/
def base (v : Volume) (c : ℕ) : ℕ := (c - 2) * v.csize + v.database

end Volume

/-- FatFs has mounted the volume, and its window shows what is on the disk. -/
structure Sound (ready : σ → Prop) (image : ℕ → List Byte) (v : Volume) (s : Fs σ) : Prop where
  ready : ready s.disk
  geometry : s.fs.toGeometry = v.toGeometry
  type : s.fs.fsType = some v.type
  window : s.fs.winsect ≠ 0 → s.fs.win = image s.fs.winsect
  length : s.fs.win.length = ss

theorem Sound.type_ne (hs : Sound ready image v s) : s.fs.fsType ≠ none := by
  rw [hs.type]
  exact Option.some_ne_none _

/-- The volume does not depend on the file object. -/
theorem Sound.with_fil (hs : Sound ready image v s) (fil : Fil) :
    Sound ready image v { s with fil := fil } :=
  ⟨hs.ready, hs.geometry, hs.type, hs.window, hs.length⟩

/-- Only the disk and the window have changed. -/
structure Frame (s t : Fs σ) : Prop where
  fil : t.fil = s.fil
  id : t.fs.id = s.fs.id
  registered : t.registered = s.registered
  fsid : t.fsid = s.fsid

theorem Frame.refl (s : Fs σ) : Frame s s := ⟨rfl, rfl, rfl, rfl⟩

theorem Frame.trans (h : Frame s t) (h' : Frame t u) : Frame s u :=
  ⟨h'.fil.trans h.fil, h'.id.trans h.id, h'.registered.trans h.registered, h'.fsid.trans h.fsid⟩

theorem overwrite_all {data buff : List Byte} (h : buff.length ≤ data.length) :
    overwrite data buff = data := by
  rw [overwrite, List.drop_of_length_le h, List.append_nil]

theorem overwrite_nil (buff : List Byte) : overwrite [] buff = buff := rfl

/-- A read of one sector: all of it, or nothing. -/
theorem Holds.read_one (h : Holds disk ready failed image limit) (hd : ready d)
    (hlim : sector < limit) :
    (disk.read sector 1 d).1 = .ok ∧ (disk.read sector 1 d).2.1 = image sector ∨
      (disk.read sector 1 d).1 ≠ .ok ∧ failed (disk.read sector 1 d).2.2 ∧
        (disk.read sector 1 d).2.1 = [] := by
  rcases h.read sector 1 d hd hlim (by decide) with ⟨hok, hdata⟩ | ⟨hfail, hfailed, k, hk, hdata⟩
  · exact .inl ⟨hok, by rw [hdata, sectors_one]⟩
  · obtain rfl : k = 0 := by omega
    exact .inr ⟨hfail, hfailed, hdata⟩

theorem Holds.mono (h : Holds disk ready failed image limit) (hle : limit' ≤ limit) :
    Holds disk ready failed image limit' :=
  ⟨h.size, fun sector count d hd hlim => h.stays sector count d hd (hlim.trans hle),
    fun sector count d hd hlim => h.read sector count d hd (hlim.trans hle)⟩

theorem result_of_wp {α : Type} {p : FfM σ α} {post : α → Fs σ → Prop}
    {err : FResult → Fs σ → Prop} (h : Wp p post err s) :
    ((resultOf (p s)).1 = .ok ∧ ∃ a, post a (resultOf (p s)).2) ∨
      err (resultOf (p s)).1 (resultOf (p s)).2 := by
  unfold Wp at h
  unfold resultOf
  generalize p s = r at h ⊢
  rcases r with ⟨e | a, t⟩
  · exact .inr h
  · exact .inl ⟨rfl, a, h⟩

theorem move_window_spec (h : Holds disk ready failed image v.limit) (hs : Sound ready image v s)
    (hpos : 0 < sector) (hlim : sector < v.limit) :
    Wp (moveWindow disk sector)
      (fun _ t => Sound ready image v t ∧ Frame s t ∧ t.fs.win = image sector)
      (fun res t => res = .diskErr ∧ Sound ready image v t ∧ Frame s t ∧ failed t.disk) s := by
  unfold moveWindow
  rw [wp_bind, wp_get, wp_ite]
  split
  · have hstays := h.stays sector 1 s.disk hs.ready hlim (by decide)
    rw [wp_bind]
    change Wp (modify _ >>= _) _ _ _
    rw [wp_bind, wp_modify, wp_ite]
    rcases h.read_one hs.ready hlim with ⟨hok, hdata⟩ | ⟨hfail, hfailed, hdata⟩
    · rw [if_neg (by simpa using hok), wp_modify]
      have hwin : overwrite (disk.read sector 1 s.disk).2.1 s.fs.win = image sector := by
        rw [hdata]
        exact overwrite_all (by rw [hs.length, h.size])
      exact ⟨⟨hstays, hs.geometry, hs.type, fun _ => hwin, by rw [hwin]; exact h.size sector⟩,
        ⟨rfl, rfl, rfl, rfl⟩, hwin⟩
    · rw [if_pos hfail, wp_throw]
      have hwin : overwrite (disk.read sector 1 s.disk).2.1 s.fs.win = s.fs.win := by
        rw [hdata]
        exact overwrite_nil _
      exact ⟨rfl, ⟨hstays, hs.geometry, hs.type, fun hne => hwin.trans (hs.window hne),
        (congrArg List.length hwin).trans hs.length⟩, ⟨rfl, rfl, rfl, rfl⟩, hfailed⟩
  · rename_i hsame
    have hwinsect : s.fs.winsect = sector := by
      by_contra hne
      exact hsame ⟨hne, by omega⟩
    refine ⟨hs, Frame.refl s, ?_⟩
    rw [← hwinsect]
    exact hs.window (by omega)

theorem dword_eq (h : n < 2 ^ 32) : dword n = n := Nat.mod_eq_of_lt h

/-- A byte of the table is read through the window. -/
theorem table_byte_spec (h : Holds disk ready failed image v.limit) (hs : Sound ready image v s)
    (hi : i < v.fsize * ss) :
    Wp (moveWindow disk (dword (v.fatbase + i / ss)))
      (fun _ t => Sound ready image v t ∧ Frame s t ∧ ∀ j, j / ss = i / ss →
        ldByte t.fs.win (j % ss) = v.tableByte image j)
      (fun _ t => Sound ready image v t ∧ Frame s t ∧ failed t.disk) s := by
  have hfits := v.tableFits
  have hbelow := v.below
  have hpos := v.tablePos
  have hsector : i / ss < v.fsize := Nat.div_lt_of_lt_mul (by rwa [Nat.mul_comm])
  have hbytes : ∀ j, j / ss = i / ss →
      ldByte (image (v.fatbase + i / ss)) (j % ss) = v.tableByte image j := by
    intro j hj
    rw [Volume.tableByte, hj]
  generalize i / ss = q at hsector hbytes ⊢
  rw [dword_eq (by omega)]
  refine (move_window_spec h hs (by omega) (by omega)).mono ?_ fun _ _ => And.right
  rintro - t ⟨hsound, hframe, hwin⟩
  exact ⟨hsound, hframe, hwin ▸ hbytes⟩

theorem table_size_lt (hc : c < v.nFatent) :
    match v.type with
    | .fat12 => c + c / 2 + 1 < v.fsize * ss
    | .fat16 => 2 * c + 1 < v.fsize * ss
    | .fat32 => 4 * c + 3 < v.fsize * ss := by
  have hholds := v.tableHolds
  cases htype : v.type with
  | fat12 =>
    rw [htype, tableSize] at hholds
    change c + c / 2 + 1 < v.fsize * ss
    omega
  | fat16 =>
    rw [htype, tableSize] at hholds
    change 2 * c + 1 < v.fsize * ss
    omega
  | fat32 =>
    rw [htype, tableSize] at hholds
    change 4 * c + 3 < v.fsize * ss
    omega

theorem fat12_small (htype : v.type = .fat12) (hc : c < v.nFatent) : c < 4088 := by
  have hkind := v.kind
  rw [htype, fatTypeOf, minFat16] at hkind
  by_contra hge
  split at hkind
  · cases hkind
  · rw [if_pos (by omega)] at hkind
    cases hkind

theorem fat_entry_spec (h : Holds disk ready failed image v.limit) (hs : Sound ready image v s)
    (hc : c < v.nFatent) :
    Wp (fatEntry disk s.fs c)
      (fun x t => Sound ready image v t ∧ Frame s t ∧ x = v.link image c)
      (fun _ t => Sound ready image v t ∧ Frame s t ∧ failed t.disk) s := by
  have hbase : s.fs.fatbase = v.fatbase := congrArg Geometry.fatbase hs.geometry
  have hsize := table_size_lt hc
  rw [fatEntry, hs.type, hbase, Volume.link]
  cases htype : v.type with
  | fat12 =>
    rw [htype] at hsize
    have hsmall := fat12_small htype hc
    have hlow : dword (c + c / 2) = c + c / 2 := dword_eq (by omega)
    have hhigh : dword (c + c / 2 + 1) = c + c / 2 + 1 := dword_eq (by omega)
    simp only [hlow, hhigh]
    refine (table_byte_spec h hs (by omega)).seq ?_ fun _ _ => id
    rintro - t ⟨hsound, hframe, hbyte⟩
    rw [wp_bind, wp_get]
    refine (table_byte_spec h hsound hsize).seq ?_
      fun _ u hu => ⟨hu.1, hframe.trans hu.2.1, hu.2.2⟩
    rintro - u ⟨hsound', hframe', hbyte'⟩
    rw [wp_bind, wp_get, wp_pure]
    refine ⟨hsound', hframe.trans hframe', ?_⟩
    rw [hbyte _ rfl, hbyte' _ rfl]
  | fat16 =>
    rw [htype] at hsize
    have hsector : c / (ss / 2) = 2 * c / ss := by
      simp only [ss]
      omega
    have hoffset : c * 2 % ss = 2 * c % ss := by rw [Nat.mul_comm]
    have hnext : (2 * c + 1) % ss = 2 * c % ss + 1 := by
      simp only [ss]
      omega
    have hsame : (2 * c + 1) / ss = 2 * c / ss := by
      simp only [ss]
      omega
    simp only [hsector, hoffset]
    refine (table_byte_spec h hs (by omega)).seq ?_ fun _ _ => id
    rintro - t ⟨hsound, hframe, hbyte⟩
    rw [wp_bind, wp_get, wp_pure]
    refine ⟨hsound, hframe, ?_⟩
    rw [ldWord, ← hnext, hbyte _ rfl, hbyte _ hsame]
  | fat32 =>
    rw [htype] at hsize
    have hsector : c / (ss / 4) = 4 * c / ss := by
      simp only [ss]
      omega
    have hoffset : c * 4 % ss = 4 * c % ss := by rw [Nat.mul_comm]
    have hnext : ∀ k < 4, (4 * c + k) % ss = 4 * c % ss + k := by
      intro k hk
      simp only [ss]
      omega
    have hsame : ∀ k < 4, (4 * c + k) / ss = 4 * c / ss := by
      intro k hk
      simp only [ss]
      omega
    simp only [hsector, hoffset]
    refine (table_byte_spec h hs (by omega)).seq ?_ fun _ _ => id
    rintro - t ⟨hsound, hframe, hbyte⟩
    rw [wp_bind, wp_get, wp_pure]
    refine ⟨hsound, hframe, ?_⟩
    rw [ldDword, ldWord, ldWord, Nat.add_assoc (4 * c % ss) 2 1, ← hnext 1 (by omega),
      ← hnext 2 (by omega), ← hnext 3 (by omega), hbyte _ rfl, hbyte _ (hsame 1 (by omega)),
      hbyte _ (hsame 2 (by omega)), hbyte _ (hsame 3 (by omega))]

/-- `get_fat` gives the entry of the cluster or reports an error of the disk. -/
theorem get_fat_spec (h : Holds disk ready failed image v.limit) (hs : Sound ready image v s)
    (hlow : 2 ≤ c) (hc : c < v.nFatent) :
    Wp (getFat disk c)
      (fun x t => Sound ready image v t ∧ Frame s t ∧
        (x = v.link image c ∨ x = fatError ∧ failed t.disk))
      (fun _ _ => False) s := by
  have hentries : s.fs.nFatent = v.nFatent := congrArg Geometry.nFatent hs.geometry
  unfold getFat
  rw [wp_bind, wp_get, wp_ite, if_neg (by rw [hentries]; omega), wp_orElse]
  refine (fat_entry_spec h hs hc).mono ?_ ?_
  · rintro x t ⟨hsound, hframe, hx⟩
    exact ⟨hsound, hframe, .inl hx⟩
  · rintro e t ⟨hsound, hframe, hfailed⟩
    exact ⟨hsound, hframe, .inr ⟨rfl, hfailed⟩⟩

theorem ld_byte_lt (p : List Byte) (i : ℕ) : ldByte p i < 256 := (p.getD i 0).isLt

/-- No entry is taken for an error of the disk. -/
theorem link_lt (v : Volume) (image : ℕ → List Byte) (c : ℕ) : v.link image c < 2 ^ 28 := by
  have hbyte : ∀ i, v.tableByte image i < 256 := fun i => ld_byte_lt _ _
  unfold Volume.link
  cases v.type with
  | fat12 =>
    have hlow := hbyte (c + c / 2)
    have hhigh := hbyte (c + c / 2 + 1)
    simp only
    split
    · omega
    · omega
  | fat16 =>
    have hlow := hbyte (2 * c)
    have hhigh := hbyte (2 * c + 1)
    simp only
    omega
  | fat32 => exact Nat.mod_lt _ (by decide)

/-- A cluster of the volume has its sectors in the data area. -/
theorem clust2sect_eq (hlow : 2 ≤ c) (hc : c < v.nFatent) :
    clust2sect v.toGeometry c = v.base c ∧ v.base c + v.csize ≤ v.limit := by
  have hfits := v.dataFits
  have hbelow := v.below
  have hentries := v.entries
  have hmul : (c - 2) * v.csize + v.csize ≤ (v.nFatent - 2) * v.csize := by
    rw [← Nat.succ_mul]
    exact Nat.mul_le_mul_right _ (by omega)
  have hclst : dword (c + (2 ^ 32 - 2)) = c - 2 := by
    rw [dword, show c + (2 ^ 32 - 2) = c - 2 + 2 ^ 32 by omega, Nat.add_mod_right]
    exact Nat.mod_eq_of_lt (by omega)
  have hlast : dword (v.nFatent + (2 ^ 32 - 2)) = v.nFatent - 2 := by
    rw [dword, show v.nFatent + (2 ^ 32 - 2) = v.nFatent - 2 + 2 ^ 32 by omega,
      Nat.add_mod_right]
    exact Nat.mod_eq_of_lt (by omega)
  rw [clust2sect, hclst, hlast, if_neg (by omega), Volume.base]
  exact ⟨dword_eq (by omega), by omega⟩

def pad (data : List Byte) : List Byte := data ++ List.replicate (ss - data.length) 0

theorem pad_length {data : List Byte} (h : data.length ≤ ss) : (pad data).length = ss := by
  rw [pad, List.length_append, List.length_replicate]
  omega

/-- A boot record for one table of a sector, 16 root entries and two clusters. -/
def smallRecord : List Byte :=
  List.replicate 11 0 ++ [0x00, 0x02, 1, 1, 0, 1, 16, 0, 5, 0, 0xF8, 1, 0] ++
    List.replicate 30 0 ++ [0x46, 0x41, 0x54] ++ List.replicate 453 0 ++ [0x55, 0xAA]

theorem small_record_length : smallRecord.length = ss := by
  simp only [smallRecord, List.length_append, List.length_replicate, List.length_cons,
    List.length_nil]
  rfl

def smallTable : List Byte := [0xF8, 0xFF, 0xFF, 0xFF, 0x0F, 0x00]

/-- The label of the volume and the file `BOOT.ELF`, in cluster 2. -/
def smallRoot : List Byte :=
  [0x56, 0x50, 0x32, 0x20, 0x20, 0x20, 0x20, 0x20, 0x20, 0x20, 0x20, 0x08] ++
    List.replicate 20 0 ++
    [0x42, 0x4F, 0x4F, 0x54, 0x20, 0x20, 0x20, 0x20, 0x45, 0x4C, 0x46, 0x20] ++
    List.replicate 14 0 ++ [2, 0, 88, 0, 0, 0]

def smallCard (file : List Byte) : ℕ → List Byte
  | 0 => pad smallRecord
  | 1 => pad smallTable
  | 2 => pad smallRoot
  | 3 => pad (file.take ss)
  | _ => pad []

theorem small_card_size (file : List Byte) (k : ℕ) : (smallCard file k).length = ss := by
  match k with
  | 0 => exact pad_length (Nat.le_of_eq small_record_length)
  | 1 => exact pad_length (by decide)
  | 2 => exact pad_length (by decide)
  | 3 => exact pad_length (by rw [List.length_take]; exact Nat.min_le_left ..)
  | k + 4 => exact pad_length (by decide)

def smallVolume : Volume where
  csize := 1
  nFats := 1
  nRootdir := 16
  nFatent := 4
  fsize := 1
  fatbase := 1
  dirbase := 2
  database := 3
  type := .fat12
  limit := 5
  kind := by decide
  power := ⟨0, by decide, by decide⟩
  tablePos := by decide
  tableFits := by decide
  tableHolds := by decide
  entries := by decide
  dataPos := by decide
  dataFits := by decide
  below := by decide

/-- A disk that never fails. -/
def steadyDisk (image : ℕ → List Byte) : Disk Unit where
  init d := (0, d)
  read sector count d := (.ok, sectors image sector count, d)

theorem steady_disk_holds {image : ℕ → List Byte} (hsize : ∀ k, (image k).length = ss)
    (limit : ℕ) : Holds (steadyDisk image) (fun _ => True) (fun _ => False) image limit where
  size := hsize
  stays _ _ _ _ _ _ := trivial
  read _ _ _ _ _ _ := .inl ⟨rfl, rfl⟩

/-- The objects before anything is mounted. -/
def blankFs (disk : σ) : Fs σ where
  disk := disk
  registered := true
  fsid := 0
  fs := ⟨⟨0, 0, 0, 0, 0, 0, 0, 0⟩, none, 0, 0, List.replicate ss 0⟩
  fil := ⟨false, 0, 0, 0, 0, 0, 0, 0, List.replicate ss 0⟩

end Vp2Motion.Proofs.FatTable
