import Vp2Motion.Firmware.Fatfs.Mount
import Vp2Motion.Proofs.DirSearch

namespace Vp2Motion.Proofs.BootRecord
open Firmware Firmware.Fatfs Fallible FatTable DirSearch

variable {win : List Byte} {bsect : ℕ}

/-- The sectors before the clusters. -/
def reservedArea (win : List Byte) : ℕ :=
  bpbRsvdSecCnt win + fatSectors win * bpbNumFats win + bpbRootEntCnt win / perSector

def countedClusters (win : List Byte) : ℕ :=
  (totalSectors win - reservedArea win) / bpbSecPerClus win

/-- A boot record of a FAT volume with sectors of 512 bytes. -/
structure WellFormed (win : List Byte) : Prop where
  bytes : bpbBytsPerSec win = 512
  fats : bpbNumFats win = 1 ∨ bpbNumFats win = 2
  power : ∃ k ≤ 7, bpbSecPerClus win = 2 ^ k
  aligned : bpbRootEntCnt win % perSector = 0
  reserved : 0 < bpbRsvdSecCnt win
  cluster : reservedArea win + bpbSecPerClus win ≤ totalSectors win
  root : fatTypeOf (countedClusters win) = .fat32 ↔ bpbRootEntCnt win = 0
  table : tableSize (fatTypeOf (countedClusters win)) (countedClusters win + 2) ≤ fatSectors win * ss

/-- The sizes are such that no sum of them leaves 32 bits, and cluster numbers have 28 bits. -/
structure Fits (win : List Byte) (bsect : ℕ) : Prop where
  area : reservedArea win < 2 ^ 32
  clusters : countedClusters win + 2 ≤ 2 ^ 28
  last : bsect + totalSectors win < 2 ^ 32

theorem power_iff : ∀ b < 256, ¬(b = 0 ∨
    maskWith (BitVec.ofNat 32 b) (BitVec.ofNat 32 b - 1) ≠ 0) ↔ ∃ k ≤ 7, b = 2 ^ k := by
  decide +kernel

theorem system_sectors_eq (h : reservedArea win < 2 ^ 32) :
    systemSectors win = reservedArea win := by
  rw [systemSectors, fatArea]
  unfold reservedArea at h ⊢
  generalize bpbRootEntCnt win / perSector = r at h ⊢
  rw [dword_eq (n := fatSectors win * bpbNumFats win) (by omega),
    dword_eq (n := bpbRsvdSecCnt win + _) (by omega), dword_eq h]

theorem cluster_count_eq (h : reservedArea win < 2 ^ 32) :
    clusterCount win = countedClusters win := by
  rw [clusterCount, system_sectors_eq h, countedClusters]

theorem required_table_eq (h : n ≤ 2 ^ 28) (type : FatType) :
    requiredTable type n = tableSize type n := by
  cases type with
  | fat12 =>
    simp only [requiredTable, tableSize]
    rw [dword_eq (n := n * 3) (by omega), dword_eq (by omega)]
    rcases Nat.even_or_odd' n with ⟨m, rfl | rfl⟩
    · omega
    · omega
  | fat16 => exact dword_eq (by omega)
  | fat32 => exact dword_eq (by omega)

theorem table_size_le (h : n ≤ 2 ^ 28) (type : FatType) : tableSize type n ≤ 2 ^ 30 := by
  cases type with
  | fat12 =>
    simp only [tableSize]
    omega
  | fat16 =>
    simp only [tableSize]
    omega
  | fat32 =>
    simp only [tableSize]
    omega

theorem table_fits_iff (h : n ≤ 2 ^ 28) (type : FatType) :
    ¬tableTooSmall win type n ↔ tableSize type n ≤ fatSectors win * ss := by
  have hle := table_size_le h type
  rw [tableTooSmall, required_table_eq h, ss, dword_eq (by omega)]
  omega

/-- At least one cluster has room. -/
theorem cluster_pos_iff (hpos : 0 < bpbSecPerClus win) :
    (reservedArea win ≤ totalSectors win ∧ countedClusters win ≠ 0) ↔
      reservedArea win + bpbSecPerClus win ≤ totalSectors win := by
  rw [countedClusters, Nat.div_ne_zero_iff]
  omega

theorem ld_word_lt (p : List Byte) (i : ℕ) : ldWord p i < 2 ^ 16 := by
  have hlow := ld_byte_lt p i
  have hhigh := ld_byte_lt p (i + 1)
  rw [ldWord]
  omega

theorem not_rejected_iff (h : Fits win bsect) :
    ¬recordRejected win ↔ bpbBytsPerSec win = 512 ∧
      (bpbNumFats win = 1 ∨ bpbNumFats win = 2) ∧ (∃ k ≤ 7, bpbSecPerClus win = 2 ^ k) ∧
      bpbRootEntCnt win % perSector = 0 ∧ 0 < bpbRsvdSecCnt win ∧
      reservedArea win + bpbSecPerClus win ≤ totalSectors win := by
  have hpower := power_iff (bpbSecPerClus win) (ld_byte_lt win 13)
  rw [recordRejected, system_sectors_eq h.area, cluster_count_eq h.area, ss]
  simp only [not_or] at hpower ⊢
  rw [hpower]
  constructor
  · rintro ⟨hbytes, hfats, hpow, haligned, hreserved, harea, hclusters⟩
    have hpos : 0 < bpbSecPerClus win := by
      obtain ⟨k, -, hk⟩ := hpow
      rw [hk]
      exact Nat.two_pow_pos k
    exact ⟨Classical.not_not.mp hbytes, by omega, hpow, Classical.not_not.mp haligned,
      Nat.pos_of_ne_zero hreserved, (cluster_pos_iff hpos).mp ⟨Nat.not_lt.mp harea, hclusters⟩⟩
  · rintro ⟨hbytes, hfats, hpow, haligned, hreserved, hcluster⟩
    have hpos : 0 < bpbSecPerClus win := by
      obtain ⟨k, -, hk⟩ := hpow
      rw [hk]
      exact Nat.two_pow_pos k
    obtain ⟨harea, hclusters⟩ := (cluster_pos_iff hpos).mpr hcluster
    exact ⟨Classical.not_not.mpr hbytes, by omega, hpow, Classical.not_not.mpr haligned,
      Nat.ne_of_gt hreserved, Nat.not_lt.mpr harea, hclusters⟩

/-- The layout of the volume behind a boot record. -/
def layout (win : List Byte) (bsect : ℕ) : Geometry where
  csize := bpbSecPerClus win
  nFats := bpbNumFats win
  nRootdir := bpbRootEntCnt win
  nFatent := countedClusters win + 2
  fsize := fatSectors win
  fatbase := bsect + bpbRsvdSecCnt win
  dirbase :=
    if fatTypeOf (countedClusters win) = .fat32 then bpbRootClus win
    else bsect + bpbRsvdSecCnt win + fatSectors win * bpbNumFats win
  database := bsect + reservedArea win

theorem root_iff (win : List Byte) (type : FatType) :
    ¬rootRejected win type ↔ (type = .fat32 ↔ bpbRootEntCnt win = 0) := by
  unfold rootRejected
  by_cases htype : type = .fat32
  · simp [htype]
  · simp [htype]

theorem well_formed_iff (h : Fits win bsect) :
    WellFormed win ↔ ¬recordRejected win ∧ ¬rootRejected win (fatTypeOf (countedClusters win)) ∧
      ¬tableTooSmall win (fatTypeOf (countedClusters win)) (countedClusters win + 2) := by
  rw [not_rejected_iff h, root_iff, table_fits_iff h.clusters]
  constructor
  · intro hw
    exact ⟨⟨hw.bytes, hw.fats, hw.power, hw.aligned, hw.reserved, hw.cluster⟩, hw.root, hw.table⟩
  · rintro ⟨⟨hbytes, hfats, hpower, haligned, hreserved, hcluster⟩, hroot, htable⟩
    exact ⟨hbytes, hfats, hpower, haligned, hreserved, hcluster, hroot, htable⟩

/-- All its sectors have numbers of 32 bits. -/
theorem layout_eq (h : Fits win bsect) (hw : WellFormed win) :
    dword (countedClusters win + 2) = countedClusters win + 2 ∧
    dword (bsect + bpbRsvdSecCnt win) = bsect + bpbRsvdSecCnt win ∧
    dword (bsect + bpbRsvdSecCnt win + fatArea win) =
      bsect + bpbRsvdSecCnt win + fatSectors win * bpbNumFats win ∧
    dword (bsect + systemSectors win) = bsect + reservedArea win := by
  have hclusters := h.clusters
  have hlast := h.last
  have hcluster := hw.cluster
  rw [system_sectors_eq h.area, fatArea]
  have harea : bpbRsvdSecCnt win + fatSectors win * bpbNumFats win ≤ reservedArea win :=
    Nat.le_add_right ..
  rw [dword_eq (n := fatSectors win * bpbNumFats win) (by omega)]
  exact ⟨dword_eq (by omega), dword_eq (by omega), dword_eq (by omega), dword_eq (by omega)⟩

/-- A boot record is mounted exactly when it is well formed, and then as it says. -/
theorem geometry_of_iff (h : Fits win bsect) (type : FatType) (geometry : Geometry) :
    geometryOf win bsect = some (type, geometry) ↔
      WellFormed win ∧ type = fatTypeOf (countedClusters win) ∧ geometry = layout win bsect := by
  have hiff := well_formed_iff h
  have hentries : dword (countedClusters win + 2) = countedClusters win + 2 := by
    have hclusters := h.clusters
    exact dword_eq (by omega)
  rw [geometryOf, cluster_count_eq h.area, hentries]
  by_cases hrecord : recordRejected win
  · rw [if_pos hrecord]
    exact ⟨nofun, fun hw => absurd hrecord (hiff.mp hw.1).1⟩
  · rw [if_neg hrecord]
    dsimp only
    by_cases hroot : rootRejected win (fatTypeOf (countedClusters win))
    · rw [if_pos hroot]
      exact ⟨nofun, fun hw => absurd hroot (hiff.mp hw.1).2.1⟩
    · rw [if_neg hroot]
      by_cases htable : tableTooSmall win (fatTypeOf (countedClusters win)) (countedClusters win + 2)
      · rw [if_pos htable]
        exact ⟨nofun, fun hw => absurd htable (hiff.mp hw.1).2.2⟩
      · have hw := hiff.mpr ⟨hrecord, hroot, htable⟩
        obtain ⟨-, hfatbase, hdirbase, hdatabase⟩ := layout_eq h hw
        rw [if_neg htable, hfatbase, hdirbase, hdatabase, Option.some.injEq, Prod.mk.injEq]
        exact ⟨fun heq => ⟨hw, heq.1.symm, heq.2.symm⟩, fun heq => ⟨heq.2.1.symm, heq.2.2.symm⟩⟩

/-- The volume of a well-formed boot record: its table and its clusters lie within the
sectors that the record counts. -/
def volumeOf (h : Fits win bsect) (hw : WellFormed win) : Volume where
  toGeometry := layout win bsect
  type := fatTypeOf (countedClusters win)
  limit := bsect + totalSectors win
  kind := rfl
  power := hw.power
  tablePos := Nat.add_pos_right bsect hw.reserved
  tableFits := by
    have hcluster := hw.cluster
    have htable : fatSectors win ≤ fatSectors win * bpbNumFats win :=
      Nat.le_mul_of_pos_right _ (by have hfats := hw.fats; omega)
    have harea : bpbRsvdSecCnt win + fatSectors win * bpbNumFats win ≤ reservedArea win :=
      Nat.le_add_right ..
    change bsect + bpbRsvdSecCnt win + fatSectors win ≤ bsect + totalSectors win
    omega
  tableHolds := hw.table
  entries := ⟨Nat.le_add_left .., h.clusters⟩
  dataPos := by
    have hreserved := hw.reserved
    have harea : bpbRsvdSecCnt win ≤ reservedArea win := by
      rw [reservedArea, Nat.add_assoc]
      exact Nat.le_add_right ..
    change 0 < bsect + reservedArea win
    omega
  dataFits := by
    have hcluster := hw.cluster
    have hmul := Nat.div_mul_le_self (totalSectors win - reservedArea win) (bpbSecPerClus win)
    change bsect + reservedArea win + (countedClusters win + 2 - 2) * bpbSecPerClus win ≤
      bsect + totalSectors win
    rw [Nat.add_sub_cancel, countedClusters]
    omega
  below := h.last

/-- The root cluster of FAT32, which mounting does not check. -/
def RootInside (win : List Byte) : Prop :=
  fatTypeOf (countedClusters win) = .fat32 →
    2 ≤ bpbRootClus win ∧ bpbRootClus win < countedClusters win + 2

theorem volume_rooted (h : Fits win bsect) (hw : WellFormed win) (hroot : RootInside win) :
    Rooted (volumeOf h hw) where
  aligned := hw.aligned
  word := ld_word_lt win 17
  area htype := by
    have hreserved := hw.reserved
    have hcluster := hw.cluster
    have hdirbase : (volumeOf h hw).dirbase =
        bsect + bpbRsvdSecCnt win + fatSectors win * bpbNumFats win := if_neg htype
    rw [hdirbase]
    refine ⟨by omega, ?_⟩
    change _ + bpbRootEntCnt win / perSector ≤ bsect + totalSectors win
    rw [reservedArea] at hcluster
    omega
  cluster htype := by
    have hdirbase : (volumeOf h hw).dirbase = bpbRootClus win := if_pos htype
    rw [hdirbase]
    exact hroot htype

variable {σ : Type} {disk : Disk σ} {ready failed : σ → Prop} {image : ℕ → List Byte} {s : Fs σ}

/-- The sector of the boot record. -/
def bootSector (image : ℕ → List Byte) : Option ℕ :=
  match bootKind (image 0) with
  | .fat => some 0
  | .other =>
    if ldByte (image 0) 450 ≠ 0 ∧ bootKind (image (ldDword (image 0) 454)) = .fat then
      some (ldDword (image 0) 454)
    else none
  | _ => none

/-- The drive is ready once its status says so. -/
def Starts (disk : Disk σ) (ready failed : σ → Prop) (d : σ) : Prop :=
  if (disk.init d).1 &&& staNoinit = 0 then ready (disk.init d).2 else failed (disk.init d).2

/-- On the way to a volume. -/
structure Mounting (ready : σ → Prop) (s t : Fs σ) : Prop where
  ready : ready t.disk
  fil : t.fil = s.fil
  registered : t.registered = s.registered
  fsid : t.fsid = s.fsid
  type : t.fs.fsType = s.fs.fsType
  length : t.fs.win.length = ss

theorem check_fs_spec (h : Holds disk ready failed image limit) (hd : ready s.disk)
    (hlen : s.fs.win.length = ss) (hsect : sect < limit) :
    Wp (checkFs disk sect)
      (fun kind t => Mounting ready s t ∧
        (kind = .error ∧ failed t.disk ∨ kind = bootKind (image sect) ∧ t.fs.win = image sect))
      (fun _ _ => False) s := by
  have hstays := h.stays sect 1 s.disk hd hsect (by decide)
  unfold checkFs
  rw [wp_bind]
  change Wp (modify _ >>= _) _ _ _
  rw [wp_bind, wp_modify, wp_ite]
  rcases h.read_one hd hsect with ⟨hok, hdata⟩ | ⟨hfail, hfailed, hdata⟩
  · have hwin : overwrite (disk.read sect 1 s.disk).2.1 s.fs.win = image sect := by
      rw [hdata]
      exact overwrite_all (by rw [hlen, h.size])
    rw [if_neg (by simpa using hok), wp_bind, wp_get, wp_pure]
    exact ⟨⟨hstays, rfl, rfl, rfl, rfl, (congrArg List.length hwin).trans (h.size sect)⟩,
      .inr ⟨congrArg bootKind hwin, hwin⟩⟩
  · have hwin : overwrite (disk.read sect 1 s.disk).2.1 s.fs.win = s.fs.win := by
      rw [hdata]
      exact overwrite_nil _
    rw [if_pos hfail, wp_pure]
    exact ⟨⟨hstays, rfl, rfl, rfl, rfl, (congrArg List.length hwin).trans hlen⟩,
      .inl ⟨rfl, hfailed⟩⟩

theorem Mounting.trans {t u : Fs σ} (h : Mounting ready s t) (h' : Mounting ready t u) :
    Mounting ready s u :=
  ⟨h'.ready, h'.fil.trans h.fil, h'.registered.trans h.registered, h'.fsid.trans h.fsid,
    h'.type.trans h.type, h'.length⟩

theorem boot_kind_ne_error (win : List Byte) : bootKind win ≠ .error := by
  unfold bootKind
  split
  · decide
  · split
    · decide
    · decide

/-- The first partition starts on the disk. -/
def PartitionInside (image : ℕ → List Byte) (limit : ℕ) : Prop :=
  bootKind (image 0) = .other → ldByte (image 0) 450 ≠ 0 → ldDword (image 0) 454 < limit

theorem find_volume_spec (h : Holds disk ready failed image limit) (hd : ready s.disk)
    (hlen : s.fs.win.length = ss) (hlimit : 0 < limit) (hpart : PartitionInside image limit) :
    Wp (findVolume disk)
      (fun r t => Mounting ready s t ∧
        (r.1 = .error ∧ failed t.disk ∨
          r.1 = .fat ∧ bootSector image = some r.2 ∧ t.fs.win = image r.2 ∨
          r.1 ≠ .error ∧ r.1 ≠ .fat ∧ bootSector image = none))
      (fun _ _ => False) s := by
  unfold findVolume
  refine (check_fs_spec h hd hlen hlimit).seq ?_ fun _ _ => id
  rintro kind t ⟨hm, hkind⟩
  rw [wp_ite]
  split
  · rename_i hother
    subst hother
    obtain ⟨hboot, hwin⟩ : BootKind.other = bootKind (image 0) ∧ t.fs.win = image 0 :=
      hkind.resolve_left fun herror => BootKind.noConfusion herror.1
    rw [wp_bind, wp_get, wp_ite, hwin]
    split
    · rename_i hentry
      refine (check_fs_spec h hm.ready hm.length (hpart hboot.symm hentry)).seq ?_ fun _ _ => id
      rintro kind' u ⟨hm', hkind'⟩
      rw [wp_pure]
      refine ⟨hm.trans hm', ?_⟩
      rcases hkind' with hfailed | ⟨rfl, hwin'⟩
      · exact .inl hfailed
      · right
        rw [bootSector, ← hboot]
        by_cases hfat : bootKind (image (ldDword (image 0) 454)) = .fat
        · exact .inl ⟨hfat, if_pos ⟨hentry, hfat⟩, hwin'⟩
        · exact .inr ⟨boot_kind_ne_error _, hfat, if_neg fun hboth => hfat hboth.2⟩
    · rename_i hentry
      rw [wp_pure]
      refine ⟨hm, .inr (.inr ⟨by decide, by decide, ?_⟩)⟩
      rw [bootSector, ← hboot]
      exact if_neg fun hboth => hentry hboth.1
  · rename_i hother
    rw [wp_pure]
    refine ⟨hm, ?_⟩
    rcases hkind with hfailed | ⟨rfl, hwin⟩
    · exact .inl hfailed
    · right
      rw [bootSector]
      cases hboot : bootKind (image 0) with
      | fat => exact .inl ⟨rfl, rfl, hwin⟩
      | other => exact absurd hboot hother
      | none => exact .inr ⟨by decide, by decide, rfl⟩
      | error => exact absurd hboot (boot_kind_ne_error _)

/-- The volume that the disk holds is mounted, or the drive has failed. -/
structure Mounted (ready : σ → Prop) (image : ℕ → List Byte) (s t : Fs σ) : Prop where
  ready : ready t.disk
  fil : t.fil = s.fil
  registered : t.registered = s.registered
  winsect : t.fs.winsect = 0
  length : t.fs.win.length = ss
  record : ∃ bsect type, bootSector image = some bsect ∧ t.fs.fsType = some type ∧
    geometryOf (image bsect) bsect = some (type, t.fs.toGeometry)

structure NotMounted (failed : σ → Prop) (image : ℕ → List Byte) (s : Fs σ) (res : FResult)
    (t : Fs σ) : Prop where
  fil : t.fil = s.fil
  type : t.fs.fsType = none
  result : (res = .notReady ∨ res = .diskErr) ∧ failed t.disk ∨ res = .noFilesystem ∧
    ∀ bsect, bootSector image = some bsect → geometryOf (image bsect) bsect = none

theorem mount_volume_spec (h : Holds disk ready failed image limit)
    (hstarts : Starts disk ready failed s.disk) (hlen : s.fs.win.length = ss) (hlimit : 0 < limit)
    (hpart : PartitionInside image limit) :
    Wp (mountVolume disk) (fun _ => Mounted ready image s) (NotMounted failed image s) s := by
  unfold Starts at hstarts
  unfold mountVolume
  rw [wp_bind, wp_modify, wp_bind]
  change Wp (if _ then _ else _) _ _ _
  rw [wp_ite]
  split
  · rename_i hstat
    rw [if_neg hstat] at hstarts
    rw [wp_throw]
    exact ⟨rfl, rfl, .inl ⟨.inl rfl, hstarts⟩⟩
  · rename_i hstat
    rw [if_pos (Classical.not_not.mp hstat)] at hstarts
    refine (find_volume_spec (s := { s with
      fs := { s.fs with fsType := none }, disk := (disk.init s.disk).2 }) h hstarts hlen hlimit
      hpart).seq ?_ fun _ _ => False.elim
    rintro ⟨kind, bsect⟩ t ⟨hm, hr⟩
    simp only at hr ⊢
    rw [wp_ite, wp_ite]
    rcases hr with ⟨rfl, hfailed⟩ | ⟨rfl, hsector, hwin⟩ | ⟨herr, hfat, hnone⟩
    · rw [if_pos rfl, wp_throw]
      exact ⟨hm.fil, hm.type, .inl ⟨.inr rfl, hfailed⟩⟩
    · rw [if_neg (by decide), if_neg (by decide), wp_bind, wp_get, hwin]
      cases hgeo : geometryOf (image bsect) bsect with
      | none =>
        rw [wp_throw]
        refine ⟨hm.fil, hm.type, .inr ⟨rfl, ?_⟩⟩
        intro bsect' hsector'
        rw [hsector, Option.some.injEq] at hsector'
        rwa [← hsector']
      | some found =>
        obtain ⟨type, geometry⟩ := found
        simp only
        rw [wp_modify]
        exact ⟨hm.ready, hm.fil, hm.registered, rfl, hm.length, bsect, type, hsector, rfl, hgeo⟩
    · rw [if_neg herr, if_pos hfat, wp_throw]
      refine ⟨hm.fil, hm.type, .inr ⟨rfl, ?_⟩⟩
      rw [hnone]
      exact nofun

/-- Whatever a disk holds, its volume is mounted exactly when the boot record is well
formed, unless the drive fails. All that is read from the volume then lies within the
sectors that the record counts. -/
theorem mounts_well_formed (h : Holds disk ready failed image limit)
    (hstarts : Starts disk ready failed s.disk) (hlen : s.fs.win.length = ss) (hlimit : 0 < limit)
    (hpart : PartitionInside image limit)
    (hfits : ∀ bsect, bootSector image = some bsect → Fits (image bsect) bsect) :
    let r := resultOf (mountVolume disk s)
    (r.1 = .ok ∧ ∃ bsect, bootSector image = some bsect ∧ WellFormed (image bsect) ∧
      ∃ v : Volume, v.limit = bsect + totalSectors (image bsect) ∧
        v.toGeometry = layout (image bsect) bsect ∧ Sound ready image v r.2) ∨
    (r.2.fs.fsType = none ∧ ((r.1 = .notReady ∨ r.1 = .diskErr) ∧ failed r.2.disk ∨
      r.1 = .noFilesystem ∧
        ∀ bsect, bootSector image = some bsect → ¬WellFormed (image bsect))) := by
  rcases result_of_wp (mount_volume_spec h hstarts hlen hlimit hpart) with ⟨hok, -, hm⟩ | hm
  · obtain ⟨bsect, type, hsector, htype, hgeo⟩ := hm.record
    have hfit := hfits bsect hsector
    obtain ⟨hw, rfl, hlayout⟩ := (geometry_of_iff hfit type _).mp hgeo
    exact .inl ⟨hok, bsect, hsector, hw, volumeOf hfit hw, rfl, rfl, hm.ready, hlayout, htype,
      fun hne => absurd hm.winsect hne, hm.length⟩
  · refine .inr ⟨hm.type, hm.result.imp_right ?_⟩
    rintro ⟨hres, hnone⟩
    refine ⟨hres, ?_⟩
    intro bsect hsector hw
    have hsome := (geometry_of_iff (hfits bsect hsector) _ _).mpr ⟨hw, rfl, rfl⟩
    rw [hnone bsect hsector] at hsome
    cases hsome

theorem small_boot_sector (file : List Byte) : bootSector (smallCard file) = some 0 := by
  rw [bootSector, show bootKind (smallCard file 0) = .fat by
    change bootKind (pad smallRecord) = .fat
    decide +kernel]

theorem small_fits (file : List Byte) : Fits (smallCard file 0) 0 := by
  change Fits (pad smallRecord) 0
  constructor
  · decide +kernel
  · decide +kernel
  · decide +kernel

theorem small_partition (file : List Byte) (limit : ℕ) :
    PartitionInside (smallCard file) limit := by
  intro hother
  have hfat : bootKind (pad smallRecord) = .fat := by decide +kernel
  rw [smallCard, hfat] at hother
  cases hother

theorem small_starts (image : ℕ → List Byte) :
    Starts (steadyDisk image) (fun _ => True) (fun _ => False) () := by
  change if (0 : Byte) &&& staNoinit = 0 then True else False
  decide

theorem small_card_mounted :
    let r := resultOf (mountVolume (steadyDisk (smallCard [])) (blankFs ()))
    r.1 = .ok ∧ ∃ v : Volume, v.limit = 5 ∧ Sound (fun _ => True) (smallCard []) v r.2 := by
  have hfits : ∀ bsect, bootSector (smallCard []) = some bsect →
      Fits (smallCard [] bsect) bsect := by
    intro bsect hsector
    rw [small_boot_sector, Option.some.injEq] at hsector
    subst hsector
    exact small_fits []
  rcases mounts_well_formed (s := blankFs ()) (steady_disk_holds (small_card_size []) 5)
    (small_starts _) (List.length_replicate ..) (by decide) (small_partition [] 5) hfits with
    ⟨hok, bsect, hsector, -, v, hlimit, -, hsound⟩ | ⟨-, ⟨-, hfailed⟩ | ⟨-, hbad⟩⟩
  · rw [small_boot_sector, Option.some.injEq] at hsector
    subst hsector
    have htotal : totalSectors (pad smallRecord) = 5 := by decide +kernel
    exact ⟨hok, v, hlimit.trans (congrArg (0 + ·) htotal), hsound⟩
  · exact hfailed.elim
  · refine absurd ?_ (hbad 0 (small_boot_sector []))
    have hgeo : geometryOf (pad smallRecord) 0 =
        some (smallVolume.type, smallVolume.toGeometry) := by
      decide +kernel
    exact ((geometry_of_iff (small_fits []) _ _).mp hgeo).1

end Vp2Motion.Proofs.BootRecord
