import Vp2Motion.Proofs.BootRecord
import Vp2Motion.Proofs.FileCalls

namespace Vp2Motion.Proofs.PathOpen
open Firmware Firmware.Fatfs Fallible FatTable FileRead DirSearch BootRecord

variable {σ : Type} {disk : Disk σ} {ready failed : σ → Prop} {image : ℕ → List Byte} {v : Volume}
  {s : Fs σ}

theorem name_loop_rest (h : nameLoop path n = .ok (n', c, rest)) :
    rest.length ≤ path.tail.length ∧ (path = [] → n' = n) := by
  induction path generalizing n with
  | nil =>
    cases h
    exact ⟨Nat.le_refl 0, fun _ => rfl⟩
  | cons d path ih =>
    refine ⟨?_, nofun⟩
    rw [nameLoop] at h
    split at h
    · cases h
      exact Nat.le_refl _
    · split at h
      · cases h
      · have hrest := (ih h).1
        rw [List.length_tail] at hrest
        exact hrest.trans (Nat.sub_le ..)

/-- A segment is taken from the path. -/
theorem create_name_shrinks (h : createName path = .ok name) : name.rest.length < path.length := by
  have hsuffix := (List.dropWhile_suffix (l := path) fun c => decide (isSeparator c)).length_le
  unfold createName at h
  split at h
  · cases h
  · rename_i n c rest hloop
    obtain ⟨hrest, hempty⟩ := name_loop_rest hloop
    split at h
    · cases h
    · rename_i hi
      cases h
      change rest.length < path.length
      generalize path.dropWhile _ = p at hsuffix hrest hempty
      cases p with
      | nil => exact absurd (by rw [hempty rfl]) hi
      | cons d p =>
        simp only [List.tail_cons, List.length_cons] at hrest hsuffix
        omega

/-- The entry that a path leads to from a directory. -/
def resolve (v : Volume) (image : ℕ → List Byte) (path : List Byte) (sclust : ℕ) :
    Except FResult (List Byte) :=
  match _h : createName path with
  | .error res => .error res
  | .ok name =>
    match search v image sclust name.fn with
    | .error res => .error (notFound name.ns res)
    | .ok dir =>
      if name.ns &&& nsLast ≠ 0 then .ok dir
      else if dirAttr dir &&& amDir = 0 then .error .noPath
      else resolve v image name.rest (ldClust (some v.type) dir)
termination_by path.length
decreasing_by exact create_name_shrinks ‹_›

theorem resolve_error (h : createName path = .error res) (v : Volume) (image : ℕ → List Byte)
    (sclust : ℕ) : resolve v image path sclust = .error res := by
  rw [resolve]
  split
  · rename_i h'
    rw [h] at h'
    cases h'
    rfl
  · rename_i h'
    rw [h] at h'
    cases h'

theorem resolve_name (h : createName path = .ok name) (v : Volume) (image : ℕ → List Byte)
    (sclust : ℕ) : resolve v image path sclust =
      match search v image sclust name.fn with
      | .error res => .error (notFound name.ns res)
      | .ok dir =>
        if name.ns &&& nsLast ≠ 0 then .ok dir
        else if dirAttr dir &&& amDir = 0 then .error .noPath
        else resolve v image name.rest (ldClust (some v.type) dir) := by
  conv_lhs => rw [resolve]
  split
  · rename_i h'
    rw [h] at h'
    cases h'
  · rename_i h'
    rw [h] at h'
    cases h'
    rfl

theorem not_found_disk (ns : Byte) : notFound ns .diskErr = .diskErr := by
  rw [notFound, if_neg fun h => FResult.noConfusion h.1]

theorem follow_segments_spec (h : Holds disk ready failed image v.limit) (hroot : Rooted v)
    (hs : Sound ready image v s) (dj : Dir) (hfuel : path.length < fuel) :
    Wp (followSegments disk fuel dj path)
      (Found ready image v (resolve v image path dj.sclust) s)
      (Missing ready failed image v (resolve v image path dj.sclust) s) s := by
  induction fuel generalizing path dj s with
  | zero => omega
  | succ fuel ih =>
    rw [followSegments]
    cases hname : createName path with
    | error res =>
      rw [resolve_error hname]
      exact ⟨hs, Frame.refl s, .inr rfl⟩
    | ok name =>
      have hshrinks := create_name_shrinks hname
      rw [resolve_name hname]
      simp only
      rw [wp_bind, wp_mapError]
      refine (dir_find_spec h hroot hs _).mono ?_ ?_
      · intro dj' u hu
        have hentry : search v image dj.sclust name.fn = _ := hu.entry
        rw [hentry, wp_ite]
        simp only
        split
        · rw [wp_pure]
          exact ⟨hu.sound, hu.frame, rfl, hu.dir⟩
        · rw [wp_bind, wp_get, wp_ite, hu.sound.type]
          split
          · rw [wp_throw]
            exact ⟨hu.sound, hu.frame, .inr rfl⟩
          · refine (ih hu.sound _ (by omega)).mono ?_ ?_
            · rintro dj'' w ⟨hsound, hframe, hresult, hdir⟩
              exact ⟨hsound, hu.frame.trans hframe, hresult, hdir⟩
            · rintro res w ⟨hsound, hframe, hresult⟩
              exact ⟨hsound, hu.frame.trans hframe, hresult⟩
      · rintro res u ⟨hsound, hframe, hres⟩
        refine ⟨hsound, hframe, ?_⟩
        rcases hres with ⟨rfl, hfailed⟩ | hsearch
        · exact .inl ⟨not_found_disk _, hfailed⟩
        · right
          rw [hsearch]

/-- The entry that `f_open` takes for a path on the volume. -/
def fileEntry (v : Volume) (image : ℕ → List Byte) (path : List Byte) :
    Except FResult (List Byte) :=
  if (stripHeading path).headD 0 < 0x20 then
    match tableOf v image 0 with
    | .error res => .error res
    | .ok _ => .error .invalidName
  else
    match resolve v image (stripHeading path) 0 with
    | .error res => .error res
    | .ok dir => if dirAttr dir &&& amDir ≠ 0 then .error .noFile else .ok dir

/-- The file object of an entry, at the start of the file. -/
structure Taken (dir : List Byte) (type : FatType) (mode : Byte) (s t : Fs σ) : Prop where
  fs : t.fil.fs = true
  id : t.fs.id = t.fil.id
  flag : t.fil.flag = mode &&& faRead
  fptr : t.fil.fptr = 0
  fsize : t.fil.fsize = dirFileSize dir
  sclust : t.fil.sclust = ldClust (some type) dir
  dsect : t.fil.dsect = 0
  buf : t.fil.buf = s.fil.buf

theorem take_entry_spec (hs : Sound ready image v s) (hdir : dj.dir.isSome) (mode : Byte) :
    let dir := entryAt s.fs.win (dj.dir.getD 0)
    Wp (takeEntry mode dj)
      (fun _ t => Sound ready image v t ∧ Taken dir v.type mode s t ∧ dirAttr dir &&& amDir = 0)
      (fun res t => t = s ∧ res = .noFile ∧ dirAttr dir &&& amDir ≠ 0) s := by
  obtain ⟨offset, hoffset⟩ := Option.isSome_iff_exists.mp hdir
  unfold takeEntry
  rw [wp_bind, wp_get, hoffset]
  simp only [Option.getD_some]
  rw [wp_ite]
  split
  · rename_i hattr
    rw [wp_throw]
    exact ⟨rfl, rfl, hattr⟩
  · rename_i hattr
    rw [wp_modify]
    exact ⟨hs.with_fil _, ⟨rfl, rfl, rfl, rfl, rfl, by rw [← hs.type], rfl, rfl⟩,
      Classical.not_not.mp hattr⟩

/-- The file object that a path gives, or why it gives none. -/
theorem open_path_spec (h : Holds disk ready failed image v.limit) (hroot : Rooted v)
    (hs : Sound ready image v s) (path : List Byte) (mode : Byte) :
    Wp (followPath disk blankDir path >>= takeEntry mode)
      (fun _ t => Sound ready image v t ∧
        ∃ dir, fileEntry v image path = .ok dir ∧ Taken dir v.type mode s t)
      (fun res t => t.fil = s.fil ∧
        (res = .diskErr ∧ failed t.disk ∨ fileEntry v image path = .error res)) s := by
  unfold followPath fileEntry
  dsimp only
  split
  · refine Wp.seq (?_ : Wp _ (fun dj u => u = s ∧ dj.dir = none ∧ ∃ t, tableOf v image 0 = .ok t)
      _ s) ?_ fun _ _ => id
    · refine (dir_sdi_spec hroot hs _).seq ?_ ?_
      · rintro dj u ⟨rfl, -, t, htable, -⟩
        rw [wp_pure]
        exact ⟨rfl, rfl, t, htable⟩
      · rintro res u ⟨rfl, htable⟩
        rw [show tableOf v image 0 = _ from htable]
        exact ⟨rfl, .inr rfl⟩
    · intro dj u hu
      refine hu.2.2.elim fun t htable => ?_
      rw [htable, takeEntry, wp_bind, wp_get, hu.2.1, hu.1]
      exact ⟨rfl, .inr rfl⟩
  · refine (follow_segments_spec h hroot hs _ (Nat.lt_succ_self _)).seq ?_ ?_
    · intro dj u hu
      have hentry : resolve v image (stripHeading path) 0 = _ := hu.entry
      rw [hentry]
      simp only
      refine (take_entry_spec hu.sound hu.dir mode).mono ?_ ?_
      · rintro - t ⟨hsound, htaken, hattr⟩
        rw [if_neg (Classical.not_not.mpr hattr)]
        refine ⟨hsound, _, rfl, ?_⟩
        exact { htaken with buf := htaken.buf.trans (by rw [hu.frame.fil]) }
      · rintro res t ⟨rfl, rfl, hattr⟩
        rw [if_pos hattr]
        exact ⟨hu.frame.fil, .inr rfl⟩
    · rintro res u ⟨-, hframe, hresult⟩
      refine ⟨hframe.fil, hresult.imp_right ?_⟩
      intro hresolve
      rw [show resolve v image (stripHeading path) 0 = _ from hresolve]

/-- The disk carries the volume where mounting looks for it. -/
def Carries (image : ℕ → List Byte) (v : Volume) : Prop :=
  ∃ bsect, bootSector image = some bsect ∧
    geometryOf (image bsect) bsect = some (v.type, v.toGeometry)

/-- What a disk with a well-formed boot record carries, if the root cluster is one of the volume. -/
theorem carries_record (hsector : bootSector image = some bsect) (h : Fits (image bsect) bsect)
    (hw : WellFormed (image bsect)) (hroot : RootInside (image bsect)) :
    Carries image (volumeOf h hw) ∧ Rooted (volumeOf h hw) :=
  ⟨⟨bsect, hsector, (geometry_of_iff h _ _).mpr ⟨hw, rfl, rfl⟩⟩, volume_rooted h hw hroot⟩

/-- The volume is mounted by now, or will be on the next call. -/
def Registered (ready : σ → Prop) (image : ℕ → List Byte) (v : Volume) (s : Fs σ) : Prop :=
  s.registered = true ∧ (Sound ready image v s ∨ s.fs.fsType = none ∧ s.fs.win.length = ss)

theorem chk_mounted_spec (h : Holds disk ready failed image limit)
    (hstarts : Starts disk ready failed s.disk) (hlimit : 0 < limit)
    (hpart : PartitionInside image limit) (hc : Carries image v)
    (hs : Registered ready image v s) (path : List Byte) :
    Wp (chkMounted disk path)
      (fun rest t => (driveOf path).1 = 0 ∧ rest = (driveOf path).2 ∧ Sound ready image v t ∧
        t.fil = s.fil)
      (fun res t => t.fil = s.fil ∧ ((res = .notReady ∨ res = .diskErr) ∧ failed t.disk ∨
        1 ≤ (driveOf path).1 ∧ res = .invalidDrive)) s := by
  unfold chkMounted
  rw [wp_bind, wp_get, wp_ite]
  split
  · rename_i hdrive
    exact ⟨rfl, .inr ⟨hdrive, rfl⟩⟩
  · rename_i hdrive
    rw [wp_ite, if_neg (by rw [hs.1]; decide), wp_ite]
    rcases hs.2 with hsound | ⟨htype, hlen⟩
    · rw [if_pos hsound.type_ne, wp_pure]
      exact ⟨by omega, rfl, hsound, rfl⟩
    · rw [if_neg (Classical.not_not.mpr htype)]
      refine (mount_volume_spec h hstarts hlen hlimit hpart).seq ?_ ?_
      · intro _ t hm
        obtain ⟨bsect, hsector, hgeo⟩ := hc
        obtain ⟨bsect', type, hsector', htype', hgeo'⟩ := hm.record
        rw [hsector, Option.some.injEq] at hsector'
        subst hsector'
        rw [hgeo, Option.some.injEq, Prod.mk.injEq] at hgeo'
        rw [wp_pure]
        exact ⟨by omega, rfl, ⟨hm.ready, hgeo'.2.symm, hgeo'.1 ▸ htype',
          fun hne => absurd hm.winsect hne, hm.length⟩, hm.fil⟩
      · rintro res t ⟨hfil, -, hresult⟩
        refine ⟨hfil, ?_⟩
        rcases hresult with hfailed | ⟨-, hnone⟩
        · exact .inl hfailed
        · obtain ⟨bsect, hsector, hgeo⟩ := hc
          rw [hnone bsect hsector] at hgeo
          cases hgeo

theorem f_open_spec (h : Holds disk ready failed image limit)
    (hstarts : Starts disk ready failed s.disk)
    (hlimit : v.limit ≤ limit) (hpart : PartitionInside image limit) (hc : Carries image v)
    (hroot : Rooted v) (hs : Registered ready image v s) (path : List Byte) (mode : Byte) :
    Wp (fOpen disk path mode)
      (fun _ t => Sound ready image v t ∧ (driveOf path).1 = 0 ∧
        ∃ dir, fileEntry v image (driveOf path).2 = .ok dir ∧ Taken dir v.type mode s t)
      (fun res t => t.fil.fs = false ∧ ((res = .notReady ∨ res = .diskErr) ∧ failed t.disk ∨
        1 ≤ (driveOf path).1 ∧ res = .invalidDrive ∨
        (driveOf path).1 = 0 ∧ fileEntry v image (driveOf path).2 = .error res)) s := by
  have hpos : 0 < limit := by
    have hdata := v.dataPos
    have hfits := v.dataFits
    omega
  unfold fOpen
  rw [wp_bind, wp_modify]
  have hreg : Registered ready image v { s with fil := { s.fil with fs := false } } :=
    ⟨hs.1, hs.2.imp_left fun hsound => hsound.with_fil _⟩
  have hchk := chk_mounted_spec (s := { s with fil := { s.fil with fs := false } }) h hstarts hpos
    hpart hc hreg path
  refine hchk.seq ?_ ?_
  · rintro rest t ⟨hdrive, rfl, hsound, hfil⟩
    refine (open_path_spec (h.mono hlimit) hroot hsound _ mode).mono ?_ ?_
    · rintro - u ⟨hsound', dir, hentry, htaken⟩
      refine ⟨hsound', hdrive, dir, hentry, ?_⟩
      exact { htaken with buf := htaken.buf.trans (by rw [hfil]) }
    · rintro res u ⟨hfil', hresult⟩
      refine ⟨by rw [hfil', hfil], ?_⟩
      rcases hresult with ⟨hdisk, hfailed⟩ | herror
      · exact .inl ⟨.inr hdisk, hfailed⟩
      · exact .inr (.inr ⟨hdrive, herror⟩)
  · rintro res t ⟨hfil, hresult⟩
    exact ⟨by rw [hfil], hresult.imp_right .inl⟩

/-- Whatever the directories of the volume hold, `f_open` opens the entry that the path
leads to, at the start of its file, and fails with the reason why there is none. Only the
drive can keep it from that, and a file object that is not open is not valid. -/
theorem opens_named_file (h : Holds disk ready failed image limit)
    (hstarts : Starts disk ready failed s.disk) (hlimit : v.limit ≤ limit)
    (hpart : PartitionInside image limit) (hc : Carries image v) (hroot : Rooted v)
    (hs : Registered ready image v s) (path : List Byte) :
    let r := resultOf (fOpen disk path faRead s)
    ((r.1 = .notReady ∨ r.1 = .diskErr) ∧ failed r.2.disk ∧ r.2.fil.fs = false) ∨
    (1 ≤ (driveOf path).1 ∧ r.1 = .invalidDrive ∧ r.2.fil.fs = false) ∨
    ((driveOf path).1 = 0 ∧
      match fileEntry v image (driveOf path).2 with
      | .error res => r.1 = res ∧ r.2.fil.fs = false
      | .ok dir => r.1 = .ok ∧ Sound ready image v r.2 ∧ Taken dir v.type faRead s r.2) := by
  have hspec := f_open_spec h hstarts hlimit hpart hc hroot hs path faRead
  rcases result_of_wp hspec with ⟨hok, -, hsound, hdrive, dir, hentry, htaken⟩ |
    ⟨hfs, ⟨hres, hfailed⟩ | hdrive | ⟨hdrive, herror⟩⟩
  · rw [hentry]
    exact .inr (.inr ⟨hdrive, hok, hsound, htaken⟩)
  · exact .inl ⟨hres, hfailed, hfs⟩
  · exact .inr (.inl ⟨hdrive.1, hdrive.2, hfs⟩)
  · rw [herror]
    exact .inr (.inr ⟨hdrive, rfl, hfs⟩)

theorem small_card_carries (file : List Byte) : Carries (smallCard file) smallVolume := by
  refine ⟨0, small_boot_sector file, ?_⟩
  change geometryOf (pad smallRecord) 0 = some (smallVolume.type, smallVolume.toGeometry)
  decide +kernel

theorem small_rooted : Rooted smallVolume where
  aligned := by decide
  word := by decide
  area _ := by decide
  cluster htype := by cases htype

/-- `BOOT.ELF` in the form of a directory entry. -/
def bootName : Name where
  fn := [0x42, 0x4F, 0x4F, 0x54, 0x20, 0x20, 0x20, 0x20, 0x45, 0x4C, 0x46]
  ns := 0x1C
  rest := []

theorem boot_name : createName bootElf = .ok bootName := by decide +kernel

def smallEntry : List Byte := bootName.fn ++ [0x20] ++ List.replicate 14 0 ++ [2, 0, 88, 0, 0, 0]

theorem small_file_entry :
    fileEntry smallVolume (smallCard [1, 2, 3]) bootElf = .ok smallEntry := by
  have hstrip : stripHeading bootElf = bootElf := by decide
  have hsearch : search smallVolume (smallCard [1, 2, 3]) 0 bootName.fn = .ok smallEntry := by
    decide +kernel
  rw [fileEntry, hstrip, if_neg (by decide), resolve_name boot_name, hsearch]
  decide

theorem small_file_opened :
    let r := resultOf (fOpen (steadyDisk (smallCard [1, 2, 3])) bootElf faRead (blankFs ()))
    r.1 = .ok ∧ Sound (fun _ => True) (smallCard [1, 2, 3]) smallVolume r.2 ∧
      Taken smallEntry .fat12 faRead (blankFs ()) r.2 := by
  have hdrive : driveOf bootElf = (0, bootElf) := by decide
  have h := opens_named_file (steady_disk_holds (small_card_size [1, 2, 3]) 5) (small_starts _)
    (Nat.le_refl 5) (small_partition [1, 2, 3] 5) (small_card_carries [1, 2, 3]) small_rooted
    (s := blankFs ()) ⟨rfl, .inr ⟨rfl, List.length_replicate ..⟩⟩ bootElf
  rw [hdrive, small_file_entry] at h
  rcases h with ⟨-, hfailed, -⟩ | ⟨hbad, -⟩ | ⟨-, hopened⟩
  · exact hfailed.elim
  · exact absurd hbad (by decide)
  · exact hopened

/-- A file in the directories of a volume. -/
structure HasFile (v : Volume) (image : ℕ → List Byte) (path : List Byte) (clusters : List ℕ)
    (file : List Byte) : Prop where
  stored : Stored v image clusters file
  entry : ∃ dir, fileEntry v image path = .ok dir ∧
    ldClust (some v.type) dir = clusters.headD 0 ∧ dirFileSize dir = file.length

theorem Taken.opened {t : Fs σ} (ht : Taken dir v.type faRead s t)
    (hclust : ldClust (some v.type) dir = clusters.headD 0)
    (hsize : dirFileSize dir = file.length) (hbuf : s.fil.buf.length = ss) :
    Open v image clusters file t where
  fs := ht.fs
  id := ht.id
  flag := ht.flag
  fsize := ht.fsize.trans hsize
  sclust := ht.sclust.trans hclust
  cached hne := absurd ht.dsect hne
  length := by rw [ht.buf, hbuf]
  fptr := by
    rw [ht.fptr]
    exact Nat.zero_le _
  clust hpos := by
    rw [ht.fptr] at hpos
    exact absurd hpos (Nat.lt_irrefl 0)
  dsect hne := by
    rw [ht.fptr] at hne
    exact absurd (Nat.zero_mod ss) hne

/-- The loader opens its file at the start, or not at all. -/
theorem boot_file_opens (h : Holds disk ready failed image limit)
    (hstarts : Starts disk ready failed s.disk) (hlimit : v.limit ≤ limit)
    (hpart : PartitionInside image limit) (hc : Carries image v) (hroot : Rooted v)
    (hfile : HasFile v image bootElf clusters file)
    (hwin : s.fs.win.length = ss) (hbuf : s.fil.buf.length = ss) :
    ((bootFile disk).fOpen s).1 = .ok ∧
        FileCalls.Stands ready v image clusters file 0 ((bootFile disk).fOpen s).2 ∨
      ((bootFile disk).fOpen s).1 ≠ .ok ∧ failed ((bootFile disk).fOpen s).2.disk := by
  have hreg : Registered ready image v (fMount s) := ⟨rfl, .inr ⟨rfl, hwin⟩⟩
  have hspec := f_open_spec (s := fMount s) h hstarts hlimit hpart hc hroot hreg bootElf faRead
  obtain ⟨dir, hentry, hclust, hsize⟩ := hfile.entry
  have hdrive : driveOf bootElf = (0, bootElf) := by decide
  rcases result_of_wp hspec with ⟨hok, -, hsound, -, dir', hentry', ht⟩ | ⟨-, hresult⟩
  · rw [hdrive, hentry, Except.ok.injEq] at hentry'
    subst hentry'
    exact .inl ⟨hok, hsound, ht.opened hclust hsize hbuf, ht.fptr⟩
  · right
    rw [hdrive] at hresult
    rcases hresult with ⟨hres, hfailed⟩ | ⟨hdrive, -⟩ | ⟨-, herror⟩
    · refine ⟨?_, hfailed⟩
      intro hok
      rw [show (resultOf (fOpen disk bootElf faRead (fMount s))).1 = .ok from hok] at hres
      rcases hres with hr | hr
      · cases hr
      · cases hr
    · exact absurd hdrive (by decide)
    · rw [hentry] at herror
      cases herror

end Vp2Motion.Proofs.PathOpen
