import Vp2Motion.Proofs.FileRead

namespace Vp2Motion.Proofs.FileSeek
open Firmware Firmware.Fatfs Fallible Storage FatTable FileRead

variable {σ : Type} {disk : Disk σ} {ready failed : σ → Prop} {image : ℕ → List Byte} {v : Volume}
  {clusters : List ℕ} {file : List Byte} {s t : Fs σ}

/-- Clearing the low bits of a word. -/
theorem mask_high (hk : k < 32) (ha : a < 2 ^ 32) :
    maskWith (BitVec.ofNat 32 a) (~~~(BitVec.ofNat 32 (2 ^ k) - 1)) = a / 2 ^ k * 2 ^ k := by
  apply Nat.eq_of_testBit_eq
  intro i
  rw [maskWith, Nat.testBit_mul_two_pow, Nat.testBit_div_two_pow]
  change (BitVec.ofNat 32 a &&& ~~~(BitVec.ofNat 32 (2 ^ k) - 1)).getLsbD i = _
  rw [BitVec.getLsbD_and, BitVec.getLsbD_not, BitVec.getLsbD_ofNat,
    BitVec.getLsbD, low_mask hk, Nat.testBit_two_pow_sub_one]
  rcases Nat.lt_or_ge i 32 with hi | hi
  · rcases Nat.lt_or_ge i k with hik | hik
    · simp [hik, Nat.not_le.mpr hik]
    · simp [hi, hik, Nat.not_lt.mpr hik]
  · have hzero : a.testBit i = false :=
      Nat.testBit_lt_two_pow (ha.trans_le (Nat.pow_le_pow_right (by decide) hi))
    rw [Nat.sub_add_cancel (by omega), hzero]
    simp [Nat.not_lt.mpr hi]

/-- In the middle of a seek the file pointer is at the start of cluster `clst`. -/
structure Seeking (ready : σ → Prop) (v : Volume) (image : ℕ → List Byte) (clusters : List ℕ)
    (file : List Byte) (j clst : ℕ) (s : Fs σ) : Prop where
  sound : Sound ready image v s
  handle : Handle image clusters file s
  fptr : s.fil.fptr = j * bytes v
  clust : s.fil.clust = clst
  index : clusters[j]? = some clst

theorem seek_start_spec (hfile : Stored v image clusters file) (hs : Sound ready image v s)
    (hh : Handle image clusters file s) (hfptr : s.fil.fptr = 0) (hofs : 0 < ofs)
    (hle : ofs ≤ file.length) (hifptr : ifptr ≤ file.length)
    (hclust : 0 < ifptr → clusters[(ifptr - 1) / bytes v]? = some s.fil.clust)
    (hfirst : clusters[0]? = some s.fil.sclust) :
    Wp (seekStart ifptr (bytes v) ofs)
      (fun r t => ∃ j, j * bytes v < ofs ∧ r.2 = ofs - j * bytes v ∧
        Seeking ready v image clusters file j r.1 t)
      (Failed ready failed image v) s := by
  have hsize := hfile.size
  unfold seekStart
  rw [wp_bind, wp_get, wp_ite]
  split
  · rename_i hforward
    obtain ⟨k, hk, hcsize⟩ := v.power
    have hpower : bytes v = 2 ^ (k + 9) := by
      rw [bytes, hcsize, Nat.pow_add]
      rfl
    have hmask : maskWith (BitVec.ofNat 32 (ifptr - 1)) (~~~(BitVec.ofNat 32 (bytes v) - 1)) =
        (ifptr - 1) / bytes v * bytes v := by
      rw [hpower]
      exact mask_high (by omega) (by omega)
    simp only [hmask]
    rw [wp_bind, wp_modify, wp_pure]
    refine ⟨(ifptr - 1) / bytes v, ?_, rfl,
      hs.with_fil _, hh.moved rfl rfl, rfl, rfl, hclust hforward.1⟩
    have hdown := Nat.mul_le_mul_right (bytes v) hforward.2
    have hself := Nat.div_mul_le_self (ofs - 1) (bytes v)
    omega
  · rw [wp_bind, wp_modify, wp_pure]
    exact ⟨0, by omega, by simp, hs.with_fil _, hh.moved rfl rfl, by simpa using hfptr, rfl,
      hfirst⟩

/-- The next cluster of the chain is where the table says. -/
theorem chain_next (hsize : ∀ k, (image k).length = ss) (hfile : Stored v image clusters file)
    (hc : clusters[j]? = some clst) (hnext : (j + 1) * bytes v < file.length) :
    clusters[j + 1]? = some (v.link image clst) ∧ 2 ≤ v.link image clst ∧
      v.link image clst < v.nFatent ∧ 2 ≤ clst ∧ clst < v.nFatent := by
  obtain ⟨hj, rfl⟩ := List.getElem?_eq_some_iff.mp hc
  have hlt := hfile.cluster_lt hsize hnext
  rw [Nat.mul_div_cancel _ (bytes_pos v)] at hlt
  have hlink := hfile.linked.getElem j hlt
  have hin := hfile.inside _ (List.getElem_mem hlt)
  rw [← hlink] at hin
  exact ⟨by rw [hlink, List.getElem?_eq_getElem hlt], hin.1, hin.2,
    hfile.inside _ (List.getElem_mem hj)⟩

theorem follow_chain_spec (h : Holds disk ready failed image v.limit)
    (hfile : Stored v image clusters file) (hs : Seeking ready v image clusters file j clst s)
    (hlt : j * bytes v < ofs) (hle : ofs ≤ file.length) (hfuel : ofs - j * bytes v ≤ fuel) :
    Wp (followChain disk (bytes v) fuel clst (ofs - j * bytes v))
      (fun r t => r.2 = ofs - (ofs - 1) / bytes v * bytes v ∧
        Seeking ready v image clusters file ((ofs - 1) / bytes v) r.1 t)
      (Failed ready failed image v) s := by
  have hb := bytes_pos v
  induction fuel generalizing j clst s with
  | zero => omega
  | succ fuel ih =>
    have hmul : (j + 1) * bytes v = j * bytes v + bytes v := Nat.succ_mul ..
    rw [followChain, wp_ite]
    split
    · rename_i hmore
      obtain ⟨hindex, hlow, hhigh, hclst, hclst'⟩ :=
        chain_next h.size hfile hs.index (by omega)
      have hne : v.link image clst ≠ fatError := by
        have hsmall := link_lt v image clst
        rw [fatError]
        omega
      refine (get_fat_spec h hs.sound hclst hclst').seq ?_ fun _ _ => False.elim
      rintro x t ⟨hsound, hframe, hx⟩
      have hentries : t.fs.nFatent = v.nFatent := congrArg Geometry.nFatent hsound.geometry
      rw [wp_ite]
      rcases hx with rfl | ⟨rfl, hfailed⟩
      · rw [if_neg hne, wp_bind, wp_get, wp_ite, if_neg (by rw [hentries]; omega), wp_bind,
          wp_modify, show ofs - j * bytes v - bytes v = ofs - (j + 1) * bytes v by omega]
        have hfil := hframe.fil
        refine ih ⟨hsound.with_fil _, hs.handle.moved hframe.id (by rw [hfil]), ?_, rfl, hindex⟩
          (by omega) (by omega)
        change t.fil.fptr + bytes v = (j + 1) * bytes v
        rw [hfil, hs.fptr, hmul]
      · rw [if_pos rfl]
        exact wp_abort hsound hfailed (by rw [hframe.fil]; exact hs.handle.fs)
          (by rw [hframe.fil, hframe.id]; exact hs.handle.id)
    · rename_i hlast
      rw [wp_pure, pred_div_eq hlt (by omega)]
      exact ⟨rfl, hs⟩

/-- The offset within the cluster, as a sector and a byte of it. -/
theorem left_in_cluster (v : Volume) (h : ofs % ss ≠ 0) :
    (ofs - (ofs - 1) / bytes v * bytes v) % ss = ofs % ss ∧
      (ofs - (ofs - 1) / bytes v * bytes v) / ss = ofs / ss % v.csize := by
  have hsplit := split_bytes v ofs
  have hr : ofs % ss < ss := Nat.mod_lt _ ss_pos
  rw [same_cluster (.inl h), show ofs - ofs / bytes v * bytes v =
    ofs % ss + ofs / ss % v.csize * ss by omega]
  rw [Nat.add_mul_mod_self_right, Nat.mod_mod, Nat.add_mul_div_right _ _ ss_pos,
    Nat.div_eq_of_lt hr, Nat.zero_add]
  exact ⟨rfl, rfl⟩

theorem left_aligned (v : Volume) (h : ofs % ss = 0) :
    (ofs - (ofs - 1) / bytes v * bytes v) % ss = 0 := by
  refine Nat.mod_eq_zero_of_dvd (Nat.dvd_sub (Nat.dvd_of_mod_eq_zero h) ?_)
  rw [bytes, ← Nat.mul_assoc]
  exact Nat.dvd_mul_left ss _

theorem seek_sector_spec (hs : Sound ready image v s) (hlow : 2 ≤ clst) (hhigh : clst < v.nFatent) :
    Wp (seekSector clst (ofs - (ofs - 1) / bytes v * bytes v))
      (fun nsect t => t = s ∧ (ofs % ss ≠ 0 → nsect = v.base clst + ofs / ss % v.csize))
      (Failed ready failed image v) s := by
  obtain ⟨hsect, hlim⟩ := clust2sect_eq hlow hhigh
  have hk : ofs / ss % v.csize < v.csize := Nat.mod_lt _ v.csize_pos
  have hbelow := v.below
  unfold seekSector
  rw [wp_bind, wp_get, hs.geometry, hsect, wp_ite]
  by_cases hofs : ofs % ss = 0
  · rw [if_neg (Classical.not_not.mpr (left_aligned v hofs)), wp_pure]
    exact ⟨rfl, fun hne => absurd hofs hne⟩
  · obtain ⟨hmod, hdiv⟩ := left_in_cluster v hofs
    rw [if_pos (by rw [hmod]; exact hofs), hdiv, wp_ite, if_neg (Nat.ne_of_gt (base_pos v clst)),
      wp_pure, dword_eq (by omega)]
    exact ⟨rfl, fun _ => rfl⟩

/-- Before the sector buffer is filled: the file pointer and its cluster are there. -/
structure Sought (ready : σ → Prop) (v : Volume) (image : ℕ → List Byte) (clusters : List ℕ)
    (file : List Byte) (ofs nsect : ℕ) (s : Fs σ) : Prop where
  sound : Sound ready image v s
  handle : Handle image clusters file s
  fptr : s.fil.fptr = ofs
  clust : 0 < ofs → clusters[(ofs - 1) / bytes v]? = some s.fil.clust
  nsect : ofs % ss ≠ 0 → nsect = v.base s.fil.clust + ofs / ss % v.csize

/-- From the start of the seek on. -/
theorem seek_rest_spec (h : Holds disk ready failed image v.limit)
    (hfile : Stored v image clusters file)
    (hs : Seeking ready v image clusters file j clst s) (hlt : j * bytes v < ofs)
    (hle : ofs ≤ file.length) :
    Wp (followChain disk (bytes v) (ofs - j * bytes v) clst (ofs - j * bytes v) >>= fun last => do
        modify fun s => { s with fil := { s.fil with fptr := s.fil.fptr + last.2 } }
        seekSector last.1 last.2)
      (Sought ready v image clusters file ofs) (Failed ready failed image v) s := by
  refine (follow_chain_spec h hfile hs hlt hle (Nat.le_refl _)).seq ?_ fun _ _ => id
  rintro ⟨clst', left⟩ t ⟨hleft, hseek⟩
  simp only at hleft hseek ⊢
  subst hleft
  have hmem : clst' ∈ clusters := List.mem_of_getElem? hseek.index
  have hin := hfile.inside clst' hmem
  have hself := Nat.div_mul_le_self (ofs - 1) (bytes v)
  rw [wp_bind, wp_modify]
  have hsound : Sound ready image v { t with
      fil := { t.fil with fptr := t.fil.fptr + (ofs - (ofs - 1) / bytes v * bytes v) } } :=
    hseek.sound.with_fil _
  refine (seek_sector_spec hsound hin.1 hin.2).mono ?_ fun _ _ => id
  rintro nsect u ⟨rfl, hnsect⟩
  refine ⟨hsound, hseek.handle.moved rfl rfl, ?_, ?_, ?_⟩
  · change t.fil.fptr + (ofs - (ofs - 1) / bytes v * bytes v) = ofs
    rw [hseek.fptr]
    omega
  · intro _
    change clusters[(ofs - 1) / bytes v]? = some t.fil.clust
    rw [hseek.clust]
    exact hseek.index
  · change _ → nsect = v.base t.fil.clust + _
    rw [hseek.clust]
    exact hnsect

theorem seek_to_spec (h : Holds disk ready failed image v.limit)
    (hfile : Stored v image clusters file)
    (hs : Sound ready image v s) (hh : Handle image clusters file s) (hfptr : s.fil.fptr = 0)
    (hle : ofs ≤ file.length) (hifptr : ifptr ≤ file.length)
    (hclust : 0 < ifptr → clusters[(ifptr - 1) / bytes v]? = some s.fil.clust) :
    Wp (seekTo disk ifptr ofs) (Sought ready v image clusters file ofs)
      (Failed ready failed image v) s := by
  have hcsize : s.fs.csize * ss = bytes v := by
    rw [bytes, show s.fs.csize = v.csize from congrArg Geometry.csize hs.geometry]
  unfold seekTo
  rw [wp_bind, wp_get, hcsize, wp_ite]
  split
  · rename_i hofs
    have hfirst : clusters[0]? = some s.fil.sclust := by
      have hlt := hfile.cluster_lt h.size (show 0 < file.length by omega)
      rw [Nat.zero_div] at hlt
      rw [hh.sclust]
      cases clusters with
      | nil => simp at hlt
      | cons c cs => rfl
    refine (seek_start_spec hfile hs hh hfptr (Nat.pos_of_ne_zero hofs) hle hifptr hclust
      hfirst).seq ?_ fun _ _ => id
    rintro ⟨clst, left⟩ t ht
    refine ht.elim fun j hj => ?_
    simp only at hj ⊢
    have hin := hfile.inside clst (List.mem_of_getElem? hj.2.2.index)
    rw [wp_ite, if_pos (by omega), hj.2.1]
    exact seek_rest_spec h hfile hj.2.2 hj.1 hle
  · rename_i hzero
    obtain rfl : ofs = 0 := Classical.not_not.mp hzero
    rw [wp_pure]
    exact ⟨hs, hh, hfptr, fun hlt => absurd hlt (Nat.lt_irrefl 0), fun hne => absurd rfl hne⟩

/-- The last step fills the sector buffer where the file pointer is within a sector. -/
theorem seek_fill_spec (h : Holds disk ready failed image v.limit)
    (hfile : Stored v image clusters file)
    (hs : Sought ready v image clusters file ofs nsect s) (hle : ofs ≤ file.length) :
    Wp (if s.fil.fptr % ss ≠ 0 then fillBuf disk nsect else pure ())
      (fun _ t => Sound ready image v t ∧ Open v image clusters file t ∧ t.fil.fptr = ofs)
      (Failed ready failed image v) s := by
  obtain ⟨hsound, hh, hfptr, hclust, hnsect⟩ := hs
  rw [wp_ite, hfptr]
  split
  · rename_i hne
    have hpos : 0 < ofs := by
      by_contra hzero
      rw [Nat.eq_zero_of_not_pos hzero] at hne
      exact hne (Nat.zero_mod ss)
    have hin := hfile.inside _ (List.mem_of_getElem? (hclust hpos))
    have hlim := (clust2sect_eq hin.1 hin.2).2
    have hk : ofs / ss % v.csize < v.csize := Nat.mod_lt _ v.csize_pos
    have hbase := base_pos v s.fil.clust
    rw [hnsect hne]
    refine (fill_buf_spec h hsound hh (by omega) (by omega)).mono ?_ fun _ _ => id
    rintro - t ⟨hsound', hid, hfil⟩
    refine ⟨hsound', ⟨hh.buffered hid hfil (h.size _), ?_, ?_, ?_⟩, ?_⟩
    all_goals rw [hfil]
    · simp only [hfptr]
      exact hle
    · simp only [hfptr]
      exact hclust
    · simp only [hfptr]
      exact fun _ => trivial
    · exact hfptr
  · rename_i haligned
    rw [wp_pure]
    refine ⟨hsound, ⟨hh, by omega, by rw [hfptr]; exact hclust, ?_⟩, hfptr⟩
    rw [hfptr]
    exact fun hne => absurd hne haligned

/-- `f_lseek` puts the file pointer to the offset, or to the end of the file, unless the
disk fails. -/
theorem f_lseek_spec (h : Holds disk ready failed image v.limit)
    (hfile : Stored v image clusters file)
    (hs : Sound ready image v s) (ho : Open v image clusters file s) (ofs : ℕ) :
    Wp (fLseek disk ofs)
      (fun _ t => Sound ready image v t ∧ Open v image clusters file t ∧
        t.fil.fptr = min ofs file.length)
      (Failed ready failed image v) s := by
  unfold fLseek
  rw [wp_bind, Wp, validate_eq ho.fs hs.type_ne ho.id]
  change Wp _ _ _ s
  rw [wp_bind, wp_get, ho.flag, ho.fsize, wp_ite, if_neg (by decide), wp_bind, wp_modify]
  have hto := seek_to_spec (s := { s with fil := { s.fil with fptr := 0 } }) h hfile
    (hs.with_fil _) (ho.toHandle.moved rfl rfl) rfl
    (Nat.min_le_right ofs file.length) ho.fptr ho.clust
  refine hto.seq ?_ fun _ _ => id
  intro nsect t ht
  rw [wp_bind, wp_get]
  exact seek_fill_spec h hfile ht (Nat.min_le_right ofs file.length)

/-- After an abort `f_lseek` does nothing. -/
theorem f_lseek_aborted (hs : Aborted s) (ofs : ℕ) : fLseek disk ofs s = (.error .intErr, s) := by
  unfold fLseek
  rw [bind_apply, validate_eq hs.fs hs.type hs.id]
  change (if _ then _ else _ : FfM σ Unit) s = _
  rw [if_pos hs.flag]
  rfl

end Vp2Motion.Proofs.FileSeek
