import Vp2Motion.Firmware.Fatfs.File
import Vp2Motion.Proofs.FatTable

namespace Vp2Motion.Proofs.FileRead
open Firmware Firmware.Fatfs Fallible Storage FatTable

variable {σ : Type} {disk : Disk σ} {ready failed : σ → Prop} {image : ℕ → List Byte} {v : Volume}
  {clusters : List ℕ} {file : List Byte} {s t : Fs σ}

/-- The bytes of a cluster. -/
def bytes (v : Volume) : ℕ := v.csize * ss

/-- The clusters are linked in the table and the file is what they start with. -/
structure Stored (v : Volume) (image : ℕ → List Byte) (clusters : List ℕ) (file : List Byte) :
    Prop where
  linked : clusters.IsChain fun a b => v.link image a = b
  inside : ∀ c ∈ clusters, 2 ≤ c ∧ c < v.nFatent
  data : file <+: contents image v.base v.csize clusters
  size : file.length < 2 ^ 32

/-- The file object belongs to the file, wherever it points to. -/
structure Handle (image : ℕ → List Byte) (clusters : List ℕ) (file : List Byte) (s : Fs σ) :
    Prop where
  fs : s.fil.fs = true
  id : s.fs.id = s.fil.id
  flag : s.fil.flag = faRead
  fsize : s.fil.fsize = file.length
  sclust : s.fil.sclust = clusters.headD 0
  cached : s.fil.dsect ≠ 0 → s.fil.buf = image s.fil.dsect
  length : s.fil.buf.length = ss

/-- Between two calls the cluster is that of the byte before the file pointer, and within
a sector the sector buffer has the byte behind it. -/
structure Open (v : Volume) (image : ℕ → List Byte) (clusters : List ℕ) (file : List Byte)
    (s : Fs σ) : Prop extends Handle image clusters file s where
  fptr : s.fil.fptr ≤ file.length
  clust : 0 < s.fil.fptr → clusters[(s.fil.fptr - 1) / bytes v]? = some s.fil.clust
  dsect : s.fil.fptr % ss ≠ 0 → s.fil.dsect = v.base s.fil.clust + s.fil.fptr / ss % v.csize

/-- The file object after `ABORT`. -/
structure Aborted (s : Fs σ) : Prop where
  fs : s.fil.fs = true
  id : s.fs.id = s.fil.id
  type : s.fs.fsType ≠ none
  flag : s.fil.flag &&& faError ≠ 0

/-- The handle does not depend on the file pointer and the cluster. -/
theorem Handle.moved (hh : Handle image clusters file s) (hid : t.fs.id = s.fs.id)
    (hfil : t.fil = { s.fil with fptr := p, clust := c }) : Handle image clusters file t := by
  constructor
  all_goals rw [hfil]
  · exact hh.fs
  · rw [hid]
    exact hh.id
  · exact hh.flag
  · exact hh.fsize
  · exact hh.sclust
  · exact hh.cached
  · exact hh.length

/-- Nor on which sector is in the sector buffer. -/
theorem Handle.buffered (hh : Handle image clusters file s) (hid : t.fs.id = s.fs.id)
    (hfil : t.fil = { s.fil with dsect := k, buf := image k }) (hsize : (image k).length = ss) :
    Handle image clusters file t := by
  constructor
  all_goals rw [hfil]
  · exact hh.fs
  · rw [hid]
    exact hh.id
  · exact hh.flag
  · exact hh.fsize
  · exact hh.sclust
  · exact fun _ => rfl
  · exact hsize

section Layout
variable (v)

theorem bytes_pos : 0 < bytes v := Nat.mul_pos v.csize_pos (by decide)

theorem ss_pos : 0 < ss := by decide

theorem position_bytes (p : ℕ) : (p / bytes v * v.csize + p / ss % v.csize) * ss + p % ss = p :=
  position_eq v.csize ss p

theorem base_pos (c : ℕ) : 0 < v.base c := Nat.lt_of_lt_of_le v.dataPos (Nat.le_add_left ..)

end Layout

section Parts
variable (hsize : ∀ k, (image k).length = ss) (h : Stored v image clusters file)
include hsize h

theorem Stored.cluster_lt (hp : p < file.length) : p / bytes v < clusters.length := by
  have hle := h.data.length_le
  rw [contents_length hsize] at hle
  exact Nat.div_lt_of_lt_mul (by rw [Nat.mul_comm]; exact Nat.lt_of_lt_of_le hp hle)

theorem Stored.cluster_at (hp : p < file.length) : ∃ c, clusters[p / bytes v]? = some c ∧
    2 ≤ c ∧ c < v.nFatent := by
  have hlt := h.cluster_lt hsize hp
  exact ⟨_, List.getElem?_eq_getElem hlt, h.inside _ (List.getElem_mem hlt)⟩

omit hsize in
theorem Stored.part (hn : p + n ≤ file.length) :
    (file.drop p).take n = ((contents image v.base v.csize clusters).drop p).take n := by
  obtain ⟨rest, hrest⟩ := h.data
  rw [← hrest, List.drop_append_of_le_length (by omega),
    List.take_append_of_le_length (by simp; omega)]

/-- Bytes of the file within one sector. -/
theorem Stored.in_sector (hn : p + n ≤ file.length) (hfit : p % ss + n ≤ ss)
    (hc : clusters[p / bytes v]? = some c) :
    (file.drop p).take n = ((image (v.base c + p / ss % v.csize)).drop (p % ss)).take n := by
  obtain ⟨hi, rfl⟩ := List.getElem?_eq_some_iff.mp hc
  rw [h.part hn, ← part_of_sector hsize hi (Nat.mod_lt _ v.csize_pos) hfit, position_bytes]

/-- Whole sectors of the file within one cluster. -/
theorem Stored.in_cluster (hn : p + m * ss ≤ file.length) (hp : p % ss = 0)
    (hfit : p / ss % v.csize + m ≤ v.csize) (hc : clusters[p / bytes v]? = some c) :
    (file.drop p).take (m * ss) = sectors image (v.base c + p / ss % v.csize) m := by
  obtain ⟨hi, rfl⟩ := List.getElem?_eq_some_iff.mp hc
  have hpos := position_bytes v p
  rw [hp, Nat.add_zero] at hpos
  rw [h.part hn, ← run_of_sectors hsize hi hfit, hpos]

end Parts

theorem low_mask (hk : k < 32) : (BitVec.ofNat 32 (2 ^ k) - 1).toNat = 2 ^ k - 1 := by
  have hlt : 2 ^ k < 2 ^ 32 := Nat.pow_lt_pow_right (by decide) hk
  rw [BitVec.toNat_sub_of_le, BitVec.toNat_ofNat, Nat.mod_eq_of_lt hlt]
  · rfl
  · rw [BitVec.le_def, BitVec.toNat_ofNat, Nat.mod_eq_of_lt hlt]
    exact Nat.two_pow_pos k

theorem mask_low (hk : k < 32) (ha : a < 2 ^ 32) :
    maskWith (BitVec.ofNat 32 a) (BitVec.ofNat 32 (2 ^ k) - 1) = a % 2 ^ k := by
  rw [maskWith, BitVec.toNat_and, low_mask hk, BitVec.toNat_ofNat, Nat.mod_eq_of_lt ha,
    Nat.and_two_pow_sub_one_eq_mod]

theorem sector_in_cluster_eq (v : Volume) (hp : p < 2 ^ 32) :
    sectorInCluster v.toGeometry p = p / ss % v.csize := by
  obtain ⟨k, hk, hcsize⟩ := v.power
  have hle := v.csize_le
  have hlt : p / ss % v.csize < v.csize := Nat.mod_lt _ v.csize_pos
  rw [sectorInCluster, hcsize, mask_low (by omega) (Nat.lt_of_le_of_lt (Nat.div_le_self p ss) hp),
    ← hcsize]
  exact Nat.mod_eq_of_lt (by omega)

theorem flag_aborted (flag : Byte) : (flag ||| faError) &&& faError ≠ 0 := by
  revert flag
  decide

/-- The outcome of a disk error in the middle of a call. -/
def Failed (ready failed : σ → Prop) (image : ℕ → List Byte) (v : Volume) (res : FResult)
    (s : Fs σ) : Prop :=
  res = .diskErr ∧ Sound ready image v s ∧ failed s.disk ∧ Aborted s

theorem wp_abort {α : Type} {post : α → Fs σ → Prop} (hs : Sound ready image v s)
    (hfailed : failed s.disk) (hfs : s.fil.fs = true) (hid : s.fs.id = s.fil.id) :
    Wp (abort .diskErr) post (Failed ready failed image v) s := by
  unfold abort
  rw [wp_bind, wp_modify, wp_throw]
  exact ⟨rfl, hs.with_fil _, hfailed, hfs, hid, hs.type_ne, flag_aborted _⟩

/-- The file object has moved on to cluster `c`. -/
structure Moved (s : Fs σ) (c : ℕ) (t : Fs σ) : Prop where
  fil : t.fil = { s.fil with clust := c }
  id : t.fs.id = s.fs.id

theorem split_bytes (v : Volume) (p : ℕ) :
    p / bytes v * bytes v + p / ss % v.csize * ss + p % ss = p := by
  calc
    p / bytes v * bytes v + p / ss % v.csize * ss + p % ss =
        (p / bytes v * v.csize + p / ss % v.csize) * ss + p % ss := by
      rw [Nat.add_mul, bytes, ← Nat.mul_assoc]
    _ = p := position_bytes v p

/-- At the start of a cluster the byte before is in the one before. -/
theorem pred_cluster (hpos : 0 < p) (haligned : p % ss = 0) (hfirst : p / ss % v.csize = 0) :
    (p - 1) / bytes v + 1 = p / bytes v := by
  have hsplit := split_bytes v p
  have hb := bytes_pos v
  rw [haligned, hfirst, Nat.zero_mul, Nat.add_zero] at hsplit
  generalize p / bytes v = q at hsplit
  cases q with
  | zero => omega
  | succ q =>
    rw [Nat.succ_mul] at hsplit
    rw [pred_div_eq (q := q) (by omega) (by rw [Nat.succ_mul]; omega)]

/-- Elsewhere it is in the same. -/
theorem same_cluster (h : p % ss ≠ 0 ∨ p / ss % v.csize ≠ 0) :
    (p - 1) / bytes v = p / bytes v := by
  have hsplit := split_bytes v p
  have hwithin := within_div (bytes_pos v) p
  refine pred_div_eq ?_ (Nat.le_of_lt hwithin.2)
  rcases h with hr | hk
  · omega
  · have hsector : ss ≤ p / ss % v.csize * ss := Nat.le_mul_of_pos_left _ (Nat.pos_of_ne_zero hk)
    have hss := ss_pos
    omega

theorem next_cluster_spec (h : Holds disk ready failed image v.limit)
    (hfile : Stored v image clusters file) (hs : Sound ready image v s)
    (ho : Open v image clusters file s)
    (haligned : s.fil.fptr % ss = 0) (hc : clusters[s.fil.fptr / bytes v]? = some c)
    (hlow : 2 ≤ c) (hhigh : c < v.nFatent) :
    Wp (nextCluster disk (s.fil.fptr / ss % v.csize))
      (fun _ t => Sound ready image v t ∧ Moved s c t) (Failed ready failed image v) s := by
  have hbelow : c ≠ fatError := by
    have hentries := v.entries
    rw [fatError]
    omega
  unfold nextCluster
  rw [wp_bind, wp_get, wp_ite]
  split
  · rename_i hfirst
    rw [wp_bind, clusterAtPointer, wp_ite]
    split
    · rename_i hzero
      have hsclust : s.fil.sclust = c := by
        rw [ho.sclust]
        rw [hzero, Nat.zero_div] at hc
        cases clusters with
        | nil => cases hc
        | cons d ds => exact Option.some.inj hc
      rw [wp_pure, wp_ite, if_neg (by omega), wp_ite, if_neg (by rw [hsclust]; exact hbelow),
        wp_modify]
      exact ⟨hs.with_fil _, by rw [hsclust], rfl⟩
    · rename_i hne
      have hpos : 0 < s.fil.fptr := Nat.pos_of_ne_zero hne
      have hindex := pred_cluster hpos haligned hfirst
      obtain ⟨hi, hclust⟩ := List.getElem?_eq_some_iff.mp (ho.clust hpos)
      obtain ⟨hj, hnext⟩ := List.getElem?_eq_some_iff.mp hc
      have hlink : v.link image s.fil.clust = c := by
        have hpair := hfile.linked.getElem ((s.fil.fptr - 1) / bytes v) (by omega)
        rw [hclust] at hpair
        simp only [hindex] at hpair
        exact hpair.trans hnext
      have hclustIn := hfile.inside _ (List.getElem_mem hi)
      rw [hclust] at hclustIn
      refine (get_fat_spec h hs hclustIn.1 hclustIn.2).mono ?_ fun _ _ => False.elim
      rintro x t ⟨hsound, hframe, hx⟩
      rw [hlink] at hx
      rw [wp_ite, wp_ite]
      rcases hx with rfl | ⟨rfl, hfailed⟩
      · rw [if_neg (by omega), if_neg hbelow, wp_modify]
        exact ⟨hsound.with_fil _, by rw [hframe.fil], hframe.id⟩
      · rw [if_neg (by decide), if_pos rfl]
        exact wp_abort hsound hfailed (by rw [hframe.fil]; exact ho.fs)
          (by rw [hframe.fil, hframe.id]; exact ho.id)
  · rename_i hk
    rw [wp_pure]
    have hpos : 0 < s.fil.fptr := by
      by_contra hzero
      apply hk
      rw [Nat.eq_zero_of_not_pos hzero]
      simp
    have hclust := ho.clust hpos
    rw [same_cluster (.inr hk), hc, Option.some.injEq] at hclust
    exact ⟨hs, by rw [hclust], rfl⟩

theorem fill_buf_spec (h : Holds disk ready failed image v.limit) (hs : Sound ready image v s)
    (hh : Handle image clusters file s) (hpos : 0 < sector) (hlim : sector < v.limit) :
    Wp (fillBuf disk sector)
      (fun _ t => Sound ready image v t ∧ t.fs.id = s.fs.id ∧
        t.fil = { s.fil with dsect := sector, buf := image sector })
      (Failed ready failed image v) s := by
  unfold fillBuf
  rw [wp_bind, wp_get, wp_ite]
  split
  · have hstays := h.stays sector 1 s.disk hs.ready hlim (by decide)
    rw [wp_bind]
    change Wp (modify _ >>= _) _ _ _
    rw [wp_bind, wp_modify, wp_ite]
    rcases h.read_one hs.ready hlim with ⟨hok, hdata⟩ | ⟨hfail, hfailed, -⟩
    · rw [if_neg (by simpa using hok), wp_modify]
      have hbuf : overwrite (disk.read sector 1 s.disk).2.1 s.fil.buf = image sector := by
        rw [hdata]
        exact overwrite_all (by rw [hh.length, h.size])
      refine ⟨⟨hstays, hs.geometry, hs.type, hs.window, hs.length⟩, rfl, ?_⟩
      simp only [hbuf]
    · rw [if_pos hfail]
      exact wp_abort ⟨hstays, hs.geometry, hs.type, hs.window, hs.length⟩ hfailed hh.fs hh.id
  · rename_i hsame
    have hdsect : s.fil.dsect = sector := Classical.not_not.mp hsame
    subst hdsect
    rw [wp_pure]
    refine ⟨hs, rfl, ?_⟩
    rw [← hh.cached (by omega)]

/-- What a pass of the loop gives: the next bytes of the file. -/
def Delivered (ready : σ → Prop) (v : Volume) (image : ℕ → List Byte) (clusters : List ℕ)
    (file : List Byte) (fptr btr : ℕ) (r : ℕ × List Byte) (t : Fs σ) : Prop :=
  0 < r.1 ∧ r.1 ≤ btr ∧ r.2 = (file.drop fptr).take r.1 ∧ Sound ready image v t ∧
    t.fil.fptr = fptr ∧ Open v image clusters file (advance r.1 t)

/-- The file object after bytes that all lie in the current cluster. -/
theorem Open.of_advance (hh : Handle image clusters file s) (hpos : 0 < n)
    (hrest : s.fil.fptr + n ≤ file.length)
    (hc : clusters[s.fil.fptr / bytes v]? = some s.fil.clust)
    (hfit : s.fil.fptr + n ≤ (s.fil.fptr / bytes v + 1) * bytes v)
    (hdsect : (s.fil.fptr + n) % ss ≠ 0 → s.fil.dsect =
      v.base s.fil.clust + (s.fil.fptr + n) / ss % v.csize) :
    Open v image clusters file (advance n s) := by
  have hwithin := within_div (bytes_pos v) s.fil.fptr
  refine ⟨hh.moved rfl rfl, hrest, ?_, hdsect⟩
  intro _
  change clusters[(s.fil.fptr + n - 1) / bytes v]? = some s.fil.clust
  rw [pred_div_eq (by omega) hfit]
  exact hc

theorem sector_fits (v : Volume) (hr : p % ss + n ≤ ss) :
    p + n ≤ (p / bytes v + 1) * bytes v := by
  have hsplit := split_bytes v p
  have hk : p / ss % v.csize < v.csize := Nat.mod_lt _ v.csize_pos
  have hle : (p / ss % v.csize + 1) * ss ≤ bytes v := Nat.mul_le_mul_right ss hk
  rw [Nat.add_mul, Nat.one_mul] at hle ⊢
  omega

/-- Bytes from the sector buffer. -/
theorem pick_partial_spec (hsize : ∀ k, (image k).length = ss)
    (hfile : Stored v image clusters file) (hs : Sound ready image v s)
    (hh : Handle image clusters file s) (hbtr : 0 < btr)
    (hrest : s.fil.fptr + btr ≤ file.length)
    (hc : clusters[s.fil.fptr / bytes v]? = some s.fil.clust)
    (hdsect : s.fil.dsect = v.base s.fil.clust + s.fil.fptr / ss % v.csize) :
    Wp (pickPartial btr) (Delivered ready v image clusters file s.fil.fptr btr)
      (Failed ready failed image v) s := by
  have hr : s.fil.fptr % ss < ss := Nat.mod_lt _ ss_pos
  have hbuf : s.fil.buf = image s.fil.dsect := hh.cached (by
    have hbase := base_pos v s.fil.clust
    omega)
  unfold pickPartial
  rw [wp_bind, wp_get]
  simp only
  generalize hn : min (ss - s.fil.fptr % ss) btr = n
  have hpos : 0 < n := by omega
  have hfit : s.fil.fptr % ss + n ≤ ss := by omega
  rw [wp_pure]
  refine ⟨hpos, by omega, ?_, hs, rfl, ?_⟩
  · rw [hbuf, hdsect, hfile.in_sector hsize (by omega) hfit hc]
  · refine .of_advance hh hpos (by omega) hc (sector_fits v hfit) ?_
    intro hne
    have hsame : (s.fil.fptr + n) / ss = s.fil.fptr / ss := by
      rw [ss] at *
      omega
    rw [hsame, hdsect]

/-- Whole sectors up to the end of the cluster. -/
theorem read_sectors_spec (h : Holds disk ready failed image v.limit)
    (hfile : Stored v image clusters file) (hs : Sound ready image v s)
    (hh : Handle image clusters file s) (hrest : s.fil.fptr + btr ≤ file.length)
    (haligned : s.fil.fptr % ss = 0) (hc : clusters[s.fil.fptr / bytes v]? = some s.fil.clust)
    (hlim : v.base s.fil.clust + v.csize ≤ v.limit) (hcc : btr / ss ≠ 0) :
    Wp (readSectors disk (v.base s.fil.clust + s.fil.fptr / ss % v.csize)
        (s.fil.fptr / ss % v.csize) (btr / ss))
      (Delivered ready v image clusters file s.fil.fptr btr) (Failed ready failed image v) s := by
  have hk : s.fil.fptr / ss % v.csize < v.csize := Nat.mod_lt _ v.csize_pos
  have hcsize : s.fs.csize = v.csize := congrArg Geometry.csize hs.geometry
  have hsplit := split_bytes v s.fil.fptr
  have hle := v.csize_le
  have hbtr : btr / ss * ss ≤ btr := Nat.div_mul_le_self btr ss
  unfold readSectors
  rw [wp_bind, wp_get]
  simp only [hcsize]
  generalize hm : (if v.csize < s.fil.fptr / ss % v.csize + btr / ss then
    v.csize - s.fil.fptr / ss % v.csize else btr / ss) = m
  generalize hkth : s.fil.fptr / ss % v.csize = k at *
  have hfit : k + m ≤ v.csize := by
    split at hm <;> omega
  have hpos : 0 < m := by
    split at hm <;> omega
  have hcount : m ≤ btr / ss := by
    split at hm <;> omega
  have hbytes : m * ss ≤ btr := (Nat.mul_le_mul_right ss hcount).trans hbtr
  have hstays := h.stays (v.base s.fil.clust + k) m s.disk hs.ready (by omega) (by omega)
  rw [Nat.mod_eq_of_lt (show m < 256 by omega), wp_bind]
  change Wp (if _ then _ else _) _ _ _
  rw [wp_ite]
  rcases h.read (v.base s.fil.clust + k) m s.disk hs.ready (by omega) (by omega) with
    ⟨hok, hread⟩ | ⟨hfail, hfailed, -⟩
  · rw [if_neg (by simpa using hok), wp_pure]
    have hdata := hfile.in_cluster h.size (m := m) (by omega) haligned (by rw [hkth]; exact hfit) hc
    rw [hkth, ← hread, Nat.mul_comm m ss] at hdata
    have hend : s.fil.fptr + ss * m ≤ (s.fil.fptr / bytes v + 1) * bytes v := by
      have hcluster : (k + m) * ss ≤ bytes v := Nat.mul_le_mul_right ss hfit
      rw [Nat.add_mul] at hcluster
      rw [Nat.add_mul, Nat.one_mul, Nat.mul_comm ss m]
      omega
    have hinside : s.fil.fptr + ss * m ≤ file.length := by
      rw [Nat.mul_comm ss m]
      omega
    have hzero : (s.fil.fptr + ss * m) % ss = 0 := by rw [Nat.add_mul_mod_self_left, haligned]
    refine ⟨Nat.mul_pos ss_pos hpos, by rw [Nat.mul_comm]; exact hbytes, hdata.symm,
      ⟨hstays, hs.geometry, hs.type, hs.window, hs.length⟩, rfl, ?_⟩
    exact .of_advance (hh.moved rfl rfl) (Nat.mul_pos ss_pos hpos) hinside hc hend
      fun hne => absurd hzero hne
  · rw [if_pos hfail]
    exact wp_abort ⟨hstays, hs.geometry, hs.type, hs.window, hs.length⟩ hfailed hh.fs hh.id

/-- One pass of the loop of `f_read`. -/
theorem read_step_spec (h : Holds disk ready failed image v.limit)
    (hfile : Stored v image clusters file) (hs : Sound ready image v s)
    (ho : Open v image clusters file s) (hbtr : 0 < btr)
    (hrest : s.fil.fptr + btr ≤ file.length) :
    Wp (readStep disk btr) (Delivered ready v image clusters file s.fil.fptr btr)
      (Failed ready failed image v) s := by
  have hlt : s.fil.fptr < 2 ^ 32 := by
    have hsize := hfile.size
    omega
  obtain ⟨c, hc, hlow, hhigh⟩ := hfile.cluster_at h.size (show s.fil.fptr < file.length by omega)
  obtain ⟨hsect, hlim⟩ := clust2sect_eq hlow hhigh
  unfold readStep
  rw [wp_bind, wp_get, wp_ite]
  split
  · rename_i haligned
    rw [hs.geometry, sector_in_cluster_eq v hlt]
    refine (next_cluster_spec h hfile hs ho haligned hc hlow hhigh).seq ?_ fun _ _ => id
    intro _ t ht
    have hsound := ht.1
    have hmoved := ht.2
    have hclust : t.fil.clust = c := by rw [hmoved.fil]
    have hfptr : t.fil.fptr = s.fil.fptr := by rw [hmoved.fil]
    have hh : Handle image clusters file t := ho.toHandle.moved hmoved.id hmoved.fil
    have hk : s.fil.fptr / ss % v.csize < v.csize := Nat.mod_lt _ v.csize_pos
    have hbelow := v.below
    rw [wp_bind, wp_get, hsound.geometry, hclust, hsect, wp_ite,
      if_neg (Nat.ne_of_gt (base_pos v c)), dword_eq (by omega), wp_ite]
    rw [← hfptr] at hrest haligned hc hk ⊢
    rw [← hclust] at hc hlim ⊢
    split
    · rename_i hcc
      exact read_sectors_spec h hfile hsound hh hrest haligned hc hlim hcc
    · have hbase := base_pos v t.fil.clust
      refine (fill_buf_spec h hsound hh (by omega) (by omega)).seq ?_ fun _ _ => id
      intro _ u hu
      have hfil := hu.2.2
      have hbuffered : Handle image clusters file u := hh.buffered hu.2.1 hfil (h.size _)
      have hpick : Wp _ _ (Failed ready failed image v) u := pick_partial_spec h.size hfile hu.1
        hbuffered hbtr (by rw [hfil]; exact hrest) (by rw [hfil]; exact hc) (by rw [hfil])
      rwa [hfil] at hpick
  · rename_i hne
    have hpos : 0 < s.fil.fptr := by
      by_contra hzero
      rw [Nat.eq_zero_of_not_pos hzero] at hne
      exact hne (Nat.zero_mod ss)
    have hc := ho.clust hpos
    rw [same_cluster (.inl hne)] at hc
    exact pick_partial_spec h.size hfile hs ho.toHandle hbtr hrest hc (ho.dsect hne)

/-- The loop of `f_read` delivers the bytes it is asked for, or what it had when the disk
failed. -/
theorem read_loop_spec (h : Holds disk ready failed image v.limit)
    (hfile : Stored v image clusters file) (hs : Sound ready image v s)
    (ho : Open v image clusters file s) (hfuel : btr ≤ fuel)
    (hrest : s.fil.fptr + btr ≤ file.length) :
    let r := readLoop disk fuel btr s
    (r.1 = .ok ∧ r.2.1 = (file.drop s.fil.fptr).take btr ∧ Sound ready image v r.2.2 ∧
        Open v image clusters file r.2.2 ∧ r.2.2.fil.fptr = s.fil.fptr + btr) ∨
      (Failed ready failed image v r.1 r.2.2 ∧ r.2.1 <+: (file.drop s.fil.fptr).take btr) := by
  induction fuel generalizing btr s with
  | zero =>
    obtain rfl : btr = 0 := Nat.le_zero.mp hfuel
    exact .inl ⟨rfl, by simp [readLoop], hs, ho, rfl⟩
  | succ fuel ih =>
    by_cases hzero : btr = 0
    · subst hzero
      exact .inl ⟨rfl, by simp [readLoop], hs, ho, rfl⟩
    · have hstep := read_step_spec h hfile hs ho (Nat.pos_of_ne_zero hzero) hrest
      simp only [readLoop, if_neg hzero]
      unfold Wp at hstep
      generalize readStep disk btr s = r at hstep ⊢
      rcases r with ⟨res | ⟨rcnt, data⟩, t⟩
      · exact .inr ⟨hstep, List.nil_prefix⟩
      · obtain ⟨hpos, hle, hdata, hsound, hfptr, hopen⟩ := hstep
        simp only at hpos hle hdata hopen
        have hjoin : data ++ (file.drop (s.fil.fptr + rcnt)).take (btr - rcnt) =
            (file.drop s.fil.fptr).take btr := by
          rw [hdata, ← List.drop_drop, ← List.take_add, Nat.add_sub_cancel' hle]
        have hnext : (advance rcnt t).fil.fptr = s.fil.fptr + rcnt :=
          congrArg (· + rcnt) hfptr
        have hih := ih (s := advance rcnt t)
          (hsound.with_fil _) hopen
          (show btr - rcnt ≤ fuel by omega) (by rw [hnext]; omega)
        rw [hnext] at hih
        rcases hih with ⟨hok, hrest, hsound', hopen', hend⟩ | ⟨hfailed, hpart⟩
        · refine .inl ⟨hok, ?_, hsound', hopen', by rw [hend]; omega⟩
          change data ++ (readLoop disk fuel (btr - rcnt) (advance rcnt t)).2.1 = _
          rw [hrest, hjoin]
        · refine .inr ⟨hfailed, ?_⟩
          rw [← hjoin]
          exact List.prefix_append_right_inj data |>.mpr hpart

theorem validate_eq (hfs : s.fil.fs = true) (htype : s.fs.fsType ≠ none)
    (hid : s.fs.id = s.fil.id) : validate s = (.ok (), s) := by
  unfold validate
  rw [bind_apply]
  change (if _ then _ else _ : FfM σ Unit) s = _
  rw [if_neg (by simp [hfs, htype, hid])]
  rfl

/-- `f_read` gives the bytes behind the file pointer, as many as are asked for and as
there are, unless the disk fails. -/
theorem f_read_spec (h : Holds disk ready failed image v.limit)
    (hfile : Stored v image clusters file) (hs : Sound ready image v s)
    (ho : Open v image clusters file s) (btr : ℕ) :
    let r := fRead disk btr s
    (r.1 = .ok ∧ r.2.1 = (file.drop s.fil.fptr).take btr ∧ Sound ready image v r.2.2 ∧
        Open v image clusters file r.2.2 ∧
        r.2.2.fil.fptr = s.fil.fptr + ((file.drop s.fil.fptr).take btr).length) ∨
      (Failed ready failed image v r.1 r.2.2 ∧ r.2.1 <+: (file.drop s.fil.fptr).take btr) := by
  have hle := ho.fptr
  have hcut : (file.drop s.fil.fptr).take (min btr (s.fil.fsize - s.fil.fptr)) =
      (file.drop s.fil.fptr).take btr := by
    rw [List.take_eq_take_iff, List.length_drop, ho.fsize]
    omega
  have hcount : min btr (s.fil.fsize - s.fil.fptr) =
      ((file.drop s.fil.fptr).take btr).length := by
    rw [List.length_take, List.length_drop, ho.fsize]
  have hloop := read_loop_spec h hfile hs ho (Nat.le_refl (min btr (s.fil.fsize - s.fil.fptr)))
    (by rw [ho.fsize]; omega)
  rw [hcut] at hloop
  unfold fRead
  rw [validate_eq ho.fs hs.type_ne ho.id]
  simp only [ho.flag]
  rw [if_neg (by decide), if_neg (by decide)]
  rw [← hcount]
  exact hloop

/-- After an abort every call fails. -/
theorem f_read_aborted (hs : Aborted s) (btr : ℕ) : fRead disk btr s = (.intErr, [], s) := by
  unfold fRead
  rw [validate_eq hs.fs hs.type hs.id]
  simp only [ne_eq, hs.flag, not_false_eq_true, ↓reduceIte]

end Vp2Motion.Proofs.FileRead
