import Vp2Motion.Firmware.Fatfs.Directory
import Vp2Motion.Proofs.FileRead

namespace Vp2Motion.Proofs.DirSearch
open Firmware Firmware.Fatfs Fallible FatTable

variable {σ : Type} {disk : Disk σ} {ready failed : σ → Prop} {image : ℕ → List Byte} {v : Volume}
  {s : Fs σ}

/-- The root directory lies on the volume. -/
structure Rooted (v : Volume) : Prop where
  aligned : v.nRootdir % perSector = 0
  word : v.nRootdir < 2 ^ 16
  area : v.type ≠ .fat32 → 0 < v.dirbase ∧ v.dirbase + v.nRootdir / perSector ≤ v.limit
  cluster : v.type = .fat32 → 2 ≤ v.dirbase ∧ v.dirbase < v.nFatent

/-- The entries of a directory, in blocks of `per` sectors, and the result at their end. -/
structure Table where
  blocks : List ℕ
  per : ℕ
  first : ℕ → ℕ
  ending : FResult

namespace Table

/-- No more entries than there are indices. -/
def count (t : Table) : ℕ := min (2 ^ 16) (t.blocks.length * t.per * perSector)

def entry (t : Table) (image : ℕ → List Byte) (k : ℕ) : List Byte :=
  entryAt (image (t.first (t.blocks.getD (k / perSector / t.per) 0) + k / perSector % t.per))
    (k % perSector * szDir)

def entries (t : Table) (image : ℕ → List Byte) : List (List Byte) :=
  (List.range t.count).map (t.entry image)

end Table

/-- The clusters from `c` on, and how the chain ends. -/
def chainFrom (v : Volume) (image : ℕ → List Byte) : (fuel c : ℕ) → List ℕ × FResult
  | 0, _ => ([], .noFile)
  | fuel + 1, c =>
    if v.link image c ≤ 1 then ([c], .intErr)
    else if v.nFatent ≤ v.link image c then ([c], .noFile)
    else (c :: (chainFrom v image fuel (v.link image c)).1,
      (chainFrom v image fuel (v.link image c)).2)

/-- As many clusters as can be needed for all indices. -/
def maxChain : ℕ := 2 ^ 16 / perSector

def chainTable (v : Volume) (image : ℕ → List Byte) (c : ℕ) : Table where
  blocks := (chainFrom v image maxChain c).1
  per := v.csize
  first := v.base
  ending :=
    if 2 ^ 16 ≤ (chainFrom v image maxChain c).1.length * v.csize * perSector then .noFile
    else (chainFrom v image maxChain c).2

def rootTable (v : Volume) : Table where
  blocks := [0]
  per := v.nRootdir / perSector
  first _ := v.dirbase
  ending := .noFile

/-- The directory whose first cluster is `sclust`, 0 for the root directory. -/
def tableOf (v : Volume) (image : ℕ → List Byte) (sclust : ℕ) : Except FResult Table :=
  if sclust = 1 ∨ v.nFatent ≤ sclust then .error .intErr
  else if sclust ≠ 0 then .ok (chainTable v image sclust)
  else if v.type = .fat32 then .ok (chainTable v image v.dirbase)
  else if v.nRootdir = 0 then .error .intErr
  else .ok (rootTable v)

/-- The first entry with the name, before the end of the directory. -/
def lookup (name : List Byte) (ending : FResult) : List (List Byte) → Except FResult (List Byte)
  | [] => .error ending
  | dir :: rest =>
    if dir.getD 0 0 = 0 then .error .noFile
    else if dirAttr dir &&& amVol = 0 ∧ dir.take 11 = name then .ok dir
    else lookup name ending rest

def search (v : Volume) (image : ℕ → List Byte) (sclust : ℕ) (name : List Byte) :
    Except FResult (List Byte) :=
  match tableOf v image sclust with
  | .error res => .error res
  | .ok table => lookup name table.ending (table.entries image)

theorem chain_from_mem (hlow : 2 ≤ c) (hc : c < v.nFatent) :
    ∀ b ∈ (chainFrom v image fuel c).1, 2 ≤ b ∧ b < v.nFatent := by
  induction fuel generalizing c with
  | zero => simp [chainFrom]
  | succ fuel ih =>
    rw [chainFrom]
    split
    · simpa using ⟨hlow, hc⟩
    · split
      · simpa using ⟨hlow, hc⟩
      · simp only [List.mem_cons]
        rintro b (rfl | hb)
        · exact ⟨hlow, hc⟩
        · exact ih (by omega) (by omega) b hb

theorem chain_from_head (v : Volume) (image : ℕ → List Byte) (fuel c : ℕ) :
    (chainFrom v image (fuel + 1) c).1[0]? = some c := by
  rw [chainFrom]
  split
  · rfl
  · split
    · rfl
    · rfl

/-- The end of a chain that is short enough. -/
def Ends (v : Volume) (image : ℕ → List Byte) (b : ℕ) (res : FResult) : Prop :=
  v.link image b ≤ 1 ∧ res = .intErr ∨
    1 < v.link image b ∧ v.nFatent ≤ v.link image b ∧ res = .noFile

theorem chain_from_next {i b : ℕ} (hb : (chainFrom v image fuel c).1[i]? = some b) :
    (i + 1 < (chainFrom v image fuel c).1.length →
      (chainFrom v image fuel c).1[i + 1]? = some (v.link image b) ∧
        1 < v.link image b ∧ v.link image b < v.nFatent) ∧
    (i + 1 = (chainFrom v image fuel c).1.length → i + 1 < fuel →
      Ends v image b (chainFrom v image fuel c).2) := by
  induction fuel generalizing c i with
  | zero => simp [chainFrom] at hb
  | succ fuel ih =>
    by_cases hbad : v.link image c ≤ 1
    · simp only [chainFrom, if_pos hbad] at hb ⊢
      obtain ⟨hi, rfl⟩ := List.getElem?_eq_some_iff.mp hb
      obtain rfl : i = 0 := by simpa using hi
      exact ⟨fun hlt => absurd hlt (Nat.lt_irrefl 1), fun _ _ => .inl ⟨hbad, rfl⟩⟩
    · by_cases hend : v.nFatent ≤ v.link image c
      · simp only [chainFrom, if_neg hbad, if_pos hend] at hb ⊢
        obtain ⟨hi, rfl⟩ := List.getElem?_eq_some_iff.mp hb
        obtain rfl : i = 0 := by simpa using hi
        exact ⟨fun hlt => absurd hlt (Nat.lt_irrefl 1),
          fun _ _ => .inr ⟨Nat.not_le.mp hbad, hend, rfl⟩⟩
      · simp only [chainFrom, if_neg hbad, if_neg hend] at hb ⊢
        cases i with
        | zero =>
          obtain rfl : c = b := by simpa using hb
          cases fuel with
          | zero =>
            exact ⟨fun hlt => absurd hlt (Nat.lt_irrefl 1),
              fun _ hlt => absurd hlt (Nat.lt_irrefl 1)⟩
          | succ fuel =>
            have hhead := chain_from_head v image fuel (v.link image c)
            refine ⟨fun _ => ⟨by simpa using hhead, by omega, by omega⟩, ?_⟩
            intro hlen _
            obtain ⟨hpos, -⟩ := List.getElem?_eq_some_iff.mp hhead
            simp only [List.length_cons] at hlen
            omega
        | succ i =>
          rw [List.getElem?_cons_succ] at hb
          obtain ⟨hnext, hlast⟩ := ih hb
          simp only [List.length_cons, List.getElem?_cons_succ]
          exact ⟨fun hlt => hnext (by omega), fun hlen hlt => hlast (by omega) (by omega)⟩

/-- The table is a chain of clusters. -/
structure Chained (v : Volume) (image : ℕ → List Byte) (t : Table) : Prop where
  per : t.per = v.csize
  first : t.first = v.base
  inside : ∀ b ∈ t.blocks, 2 ≤ b ∧ b < v.nFatent
  next : ∀ i b, t.blocks[i]? = some b →
    (i + 1 < t.blocks.length → t.blocks[i + 1]? = some (v.link image b) ∧
      1 < v.link image b ∧ v.link image b < v.nFatent) ∧
    (i + 1 = t.blocks.length → t.blocks.length * t.per * perSector < 2 ^ 16 →
      Ends v image b t.ending)

/-- The table is on the volume, and goes on as the code takes it to. -/
structure Linked (v : Volume) (image : ℕ → List Byte) (t : Table) : Prop where
  per_pos : 0 < t.per
  inside : ∀ b ∈ t.blocks, 0 < t.first b ∧ t.first b + t.per ≤ v.limit
  full : 2 ^ 16 ≤ t.blocks.length * t.per * perSector → t.ending = .noFile
  kind : t = rootTable v ∨ Chained v image t

theorem per_sector_eq : perSector = 16 := rfl

theorem chain_table_linked (hlow : 2 ≤ c) (hc : c < v.nFatent) :
    Linked v image (chainTable v image c) where
  per_pos := v.csize_pos
  inside b hb := by
    obtain ⟨hblow, hbhigh⟩ := chain_from_mem hlow hc b hb
    exact ⟨FileRead.base_pos v b, (clust2sect_eq hblow hbhigh).2⟩
  full h := if_pos h
  kind := by
    refine .inr ⟨rfl, rfl, chain_from_mem hlow hc, ?_⟩
    intro i b hb
    obtain ⟨hnext, hlast⟩ := chain_from_next hb
    refine ⟨hnext, ?_⟩
    intro hlen hsize
    have hshort : (chainFrom v image maxChain c).1.length < maxChain := by
      have hcsize := v.csize_pos
      by_contra hge
      have hmul := Nat.mul_le_mul (Nat.mul_le_mul (Nat.not_lt.mp hge) hcsize)
        (Nat.le_refl perSector)
      exact absurd hsize (Nat.not_lt.mpr hmul)
    have hend := hlast hlen (hlen ▸ hshort)
    rwa [← show (chainTable v image c).ending = _ from if_neg (Nat.not_le.mpr hsize)] at hend

theorem root_table_linked (hroot : Rooted v) (htype : v.type ≠ .fat32) (hne : v.nRootdir ≠ 0) :
    Linked v image (rootTable v) where
  per_pos := by
    have haligned := hroot.aligned
    change 0 < v.nRootdir / perSector
    rw [per_sector_eq] at *
    omega
  inside _ _ := hroot.area htype
  full _ := rfl
  kind := .inl rfl

theorem table_linked (hroot : Rooted v) (h : tableOf v image sclust = .ok table) :
    Linked v image table := by
  unfold tableOf at h
  split at h
  · cases h
  · rename_i hin
    split at h
    · cases h
      exact chain_table_linked (by omega) (by omega)
    · split at h
      · rename_i htype
        cases h
        exact chain_table_linked (hroot.cluster htype).1 (hroot.cluster htype).2
      · rename_i htype
        split at h
        · cases h
        · rename_i hne
          cases h
          exact root_table_linked hroot htype hne

/-- The directory object is at entry `k`. -/
structure At (t : Table) (k : ℕ) (dj : Dir) : Prop where
  index : dj.index = k
  clust : t.blocks[k / perSector / t.per]? = some dj.clust
  sect : dj.sect = t.first dj.clust + k / perSector % t.per
  dir : dj.dir = some (k % perSector * szDir)

/-- The next sector is in the same block or the first of the next. -/
theorem next_div (hper : 0 < per) (q : ℕ) :
    (q + 1) % per ≠ 0 ∧ (q + 1) / per = q / per ∧ (q + 1) % per = q % per + 1 ∨
      (q + 1) % per = 0 ∧ (q + 1) / per = q / per + 1 := by
  have hq := Nat.div_add_mod q per
  have hr := Nat.mod_lt q hper
  rcases Nat.lt_or_ge (q % per + 1) per with hlt | hge
  · have hdiv : (q + 1) / per = q / per := by
      refine Nat.div_eq_of_lt_le ?_ ?_
      · rw [Nat.mul_comm]
        omega
      · rw [Nat.add_mul, Nat.mul_comm (q / per)]
        omega
    have hmod : (q + 1) % per = q % per + 1 := by
      have hq' := Nat.div_add_mod (q + 1) per
      rw [hdiv] at hq'
      omega
    exact .inl ⟨by omega, hdiv, hmod⟩
  · have hmul : q + 1 = per * (q / per + 1) := by
      rw [Nat.mul_add]
      omega
    exact .inr ⟨by rw [hmul, Nat.mul_mod_right], by rw [hmul, Nat.mul_div_cancel_left _ hper]⟩

section Next
variable {t : Table} {dj : Dir} {k : ℕ}

theorem At.sector_lt (hl : Linked v image t) (ha : At t k dj) :
    k / perSector < t.blocks.length * t.per := by
  obtain ⟨hi, -⟩ := List.getElem?_eq_some_iff.mp ha.clust
  exact (Nat.div_lt_iff_lt_mul hl.per_pos).mp hi

theorem At.lt_size (hl : Linked v image t) (ha : At t k dj) :
    k < t.blocks.length * t.per * perSector :=
  (Nat.div_lt_iff_lt_mul (by decide)).mp (ha.sector_lt hl)

theorem At.sect_bounds (hl : Linked v image t) (ha : At t k dj) :
    0 < dj.sect ∧ dj.sect < v.limit := by
  have hin := hl.inside _ (List.mem_of_getElem? ha.clust)
  have hr := Nat.mod_lt (k / perSector) hl.per_pos
  rw [ha.sect]
  omega

/-- The outcome of going on to the entry after `k`. -/
structure Stepped (ready : σ → Prop) (image : ℕ → List Byte) (v : Volume) (t : Table) (k : ℕ)
    (s : Fs σ) (dj dj' : Dir) (u : Fs σ) : Prop where
  sound : Sound ready image v u
  frame : Frame s u
  count : k + 1 < t.count
  clust : t.blocks[(k + 1) / perSector / t.per]? = some dj'.clust
  sect : dj'.sect = t.first dj'.clust + (k + 1) / perSector % t.per
  fn : dj'.fn = dj.fn

/-- Entry `k` was the last, or the disk has failed. -/
structure Ended (ready failed : σ → Prop) (image : ℕ → List Byte) (v : Volume) (t : Table)
    (k : ℕ) (s : Fs σ) (res : FResult) (u : Fs σ) : Prop where
  sound : Sound ready image v u
  frame : Frame s u
  result : res = .diskErr ∧ failed u.disk ∨ res = t.ending ∧ k + 1 = t.count

theorem root_count (hroot : Rooted v) : (rootTable v).count = v.nRootdir := by
  have haligned := hroot.aligned
  have hword := hroot.word
  change min (2 ^ 16) (1 * (v.nRootdir / perSector) * perSector) = v.nRootdir
  rw [per_sector_eq] at *
  omega

theorem next_root_sector_spec (hl : Linked v image (rootTable v)) (hroot : Rooted v)
    (hs : Sound ready image v s) (ha : At (rootTable v) k dj) (hnext : (k + 1) % perSector = 0) :
    Wp (nextSector disk dj (k + 1))
      (Stepped ready image v (rootTable v) k s dj)
      (Ended ready failed image v (rootTable v) k s) s := by
  have hcount := root_count hroot
  have hsize := ha.lt_size hl
  have hsector := ha.sector_lt hl
  have hbounds := ha.sect_bounds hl
  have hbelow := v.below
  have haligned := hroot.aligned
  have hdirs : s.fs.nRootdir = v.nRootdir := congrArg Geometry.nRootdir hs.geometry
  have hsect := ha.sect
  have hclust := ha.clust
  simp only [rootTable, List.length_singleton, Nat.one_mul] at hsector hclust hsect hsize
  rw [Nat.div_eq_of_lt hsector] at hclust
  rw [Nat.mod_eq_of_lt hsector] at hsect
  have hzero : dj.clust = 0 := (Option.some.inj hclust).symm
  have hdiv : (k + 1) / perSector = k / perSector + 1 := by
    rw [per_sector_eq] at *
    omega
  unfold nextSector
  rw [wp_bind, wp_get, wp_ite, if_pos hzero, wp_ite, hdirs]
  split
  · rename_i hend
    rw [wp_throw]
    refine ⟨hs, Frame.refl s, .inr ⟨rfl, ?_⟩⟩
    rw [hcount]
    rw [per_sector_eq] at *
    omega
  · rename_i hmore
    have hlt : k / perSector + 1 < v.nRootdir / perSector := by
      rw [per_sector_eq] at *
      omega
    rw [wp_pure]
    refine ⟨hs, Frame.refl s, by omega, ?_, ?_, rfl⟩
    · change [0][(k + 1) / perSector / (v.nRootdir / perSector)]? = some dj.clust
      rw [hdiv, Nat.div_eq_of_lt hlt, hzero]
      rfl
    · change dword (dj.sect + 1) = v.dirbase + (k + 1) / perSector % (v.nRootdir / perSector)
      rw [hdiv, Nat.mod_eq_of_lt hlt, dword_eq (by omega), hsect]
      rfl

/-- The first entry of a block that is there, or the end of the table. -/
theorem block_start (hl : Linked v image t) (hk : k + 1 < 2 ^ 16)
    (hnext : (k + 1) % perSector = 0) (hfirst : (k / perSector + 1) % t.per = 0)
    (hdiv : (k / perSector + 1) / t.per = k / perSector / t.per + 1) :
    (k / perSector / t.per + 1 < t.blocks.length → k + 1 < t.count) ∧
    (k / perSector / t.per + 1 = t.blocks.length → k + 1 = t.count ∧
      t.blocks.length * t.per * perSector < 2 ^ 16) := by
  have hq : k / perSector + 1 = (k / perSector / t.per + 1) * t.per := by
    rw [← hdiv, Nat.div_mul_cancel (Nat.dvd_of_mod_eq_zero hfirst)]
  have hstart : k + 1 = (k / perSector / t.per + 1) * t.per * perSector := by
    rw [← hq]
    rw [per_sector_eq] at *
    omega
  constructor
  · intro hlt
    have hmul : (k / perSector / t.per + 1) * (t.per * perSector) <
        t.blocks.length * (t.per * perSector) :=
      Nat.mul_lt_mul_of_pos_right hlt (Nat.mul_pos hl.per_pos (by decide))
    rw [Table.count]
    rw [← Nat.mul_assoc, ← Nat.mul_assoc] at hmul
    omega
  · intro hlen
    rw [hlen] at hstart
    rw [Table.count]
    omega

theorem next_chain_sector_spec (h : Holds disk ready failed image v.limit) (hl : Linked v image t)
    (hc : Chained v image t) (hs : Sound ready image v s) (ha : At t k dj) (hk : k + 1 < 2 ^ 16)
    (hnext : (k + 1) % perSector = 0) :
    Wp (nextSector disk dj (k + 1)) (Stepped ready image v t k s dj)
      (Ended ready failed image v t k s) s := by
  have hin := hc.inside _ (List.mem_of_getElem? ha.clust)
  have hbounds := ha.sect_bounds hl
  have hbelow := v.below
  have hcsize : s.fs.csize = v.csize := congrArg Geometry.csize hs.geometry
  have hq : (k + 1) / perSector = k / perSector + 1 := by
    rw [per_sector_eq] at *
    omega
  have hmask : maskWith (BitVec.ofNat 32 (k / perSector + 1)) (BitVec.ofNat 32 v.csize - 1) =
      (k / perSector + 1) % t.per := by
    obtain ⟨e, he, hpow⟩ := v.power
    rw [hc.per, hpow]
    refine FileRead.mask_low (by omega) ?_
    have := Nat.div_le_self k perSector
    omega
  unfold nextSector
  rw [wp_bind, wp_get, wp_ite, if_neg (by omega), hq, hcsize, hmask, wp_ite]
  rcases next_div hl.per_pos (k / perSector) with ⟨hne, hdiv, hmod⟩ | ⟨hfirst, hdiv⟩
  · rw [if_neg hne, wp_pure]
    refine ⟨hs, Frame.refl s, ?_, ?_, ?_, rfl⟩
    · have hlt : k / perSector + 1 < t.blocks.length * t.per := by
        obtain ⟨hi, -⟩ := List.getElem?_eq_some_iff.mp ha.clust
        rw [← hdiv] at hi
        exact (Nat.div_lt_iff_lt_mul hl.per_pos).mp hi
      rw [Table.count]
      rw [per_sector_eq] at *
      omega
    · rw [hq, hdiv]
      exact ha.clust
    · change dword (dj.sect + 1) = t.first dj.clust + (k + 1) / perSector % t.per
      rw [hq, hmod, dword_eq (by omega), ha.sect]
      omega
  · rw [if_pos hfirst]
    obtain ⟨hmore, hlast⟩ := hc.next _ _ ha.clust
    obtain ⟨hinside, hend⟩ := block_start hl hk hnext hfirst hdiv
    have hi := (List.getElem?_eq_some_iff.mp ha.clust).1
    refine (get_fat_spec h hs hin.1 hin.2).seq ?_ fun _ _ => False.elim
    rintro x u ⟨hsound, hframe, hx⟩
    rw [wp_ite, wp_ite]
    rcases hx with rfl | ⟨rfl, hfailed⟩
    · have hsmall := link_lt v image dj.clust
      have hentries : u.fs.nFatent = v.nFatent := congrArg Geometry.nFatent hsound.geometry
      have hne : v.link image dj.clust ≠ fatError := by
        rw [fatError]
        omega
      rw [if_neg hne, wp_bind, wp_get, wp_ite, hentries]
      rcases Nat.lt_or_ge (k / perSector / t.per + 1) t.blocks.length with hlt | hge
      · obtain ⟨hblock, hlow, hhigh⟩ := hmore hlt
        rw [if_neg (by omega), if_neg (by omega), wp_pure]
        refine ⟨hsound, hframe, hinside hlt, ?_, ?_, rfl⟩
        · rw [hq, hdiv]
          exact hblock
        · rw [hsound.geometry, (clust2sect_eq hlow hhigh).1, hq, hfirst, hc.first, Nat.add_zero]
      · have hlen : k / perSector / t.per + 1 = t.blocks.length := by omega
        obtain ⟨hcount, hsize⟩ := hend hlen
        rcases hlast hlen hsize with ⟨hbad, hres⟩ | ⟨hgood, hover, hres⟩
        · rw [if_pos hbad, wp_throw]
          exact ⟨hsound, hframe, .inr ⟨hres.symm, hcount⟩⟩
        · rw [if_neg (by omega), if_pos hover, wp_throw]
          exact ⟨hsound, hframe, .inr ⟨hres.symm, hcount⟩⟩
    · rw [if_neg (by decide), if_pos rfl, wp_throw]
      exact ⟨hsound, hframe, .inl ⟨rfl, hfailed⟩⟩

theorem dir_next_spec (h : Holds disk ready failed image v.limit) (hroot : Rooted v)
    (hl : Linked v image t) (hs : Sound ready image v s) (ha : At t k dj) (hk : k < 2 ^ 16) :
    Wp (dirNext disk dj)
      (fun dj' u => Sound ready image v u ∧ Frame s u ∧ k + 1 < t.count ∧ At t (k + 1) dj' ∧
        dj'.fn = dj.fn)
      (Ended ready failed image v t k s) s := by
  have hsize := ha.lt_size hl
  have hbounds := ha.sect_bounds hl
  unfold dirNext
  rw [ha.index, wp_ite]
  rcases Nat.lt_or_ge (k + 1) (2 ^ 16) with hlt | hge
  · rw [Nat.mod_eq_of_lt hlt, if_neg (by omega), wp_ite]
    split
    · rename_i hnext
      have hstep : Wp (nextSector disk dj (k + 1)) (Stepped ready image v t k s dj)
          (Ended ready failed image v t k s) s := by
        rcases hl.kind with rfl | hc
        · exact next_root_sector_spec hl hroot hs ha hnext
        · exact next_chain_sector_spec h hl hc hs ha hlt hnext
      refine hstep.seq ?_ fun _ _ => id
      intro dj' u hu
      rw [wp_pure]
      exact ⟨hu.sound, hu.frame, hu.count, ⟨rfl, hu.clust, hu.sect, rfl⟩, hu.fn⟩
    · rename_i hsame
      have hdiv : (k + 1) / perSector = k / perSector := by
        rw [per_sector_eq] at *
        omega
      rw [wp_pure]
      refine ⟨hs, Frame.refl s, ?_, ⟨rfl, ?_, ?_, rfl⟩, rfl⟩
      · rw [Table.count]
        rw [per_sector_eq] at *
        omega
      · rw [hdiv]
        exact ha.clust
      · rw [hdiv]
        exact ha.sect
  · obtain rfl : k = 2 ^ 16 - 1 := by omega
    rw [if_pos (.inl rfl), wp_throw]
    refine ⟨hs, Frame.refl s, .inr ⟨(hl.full (by omega)).symm, ?_⟩⟩
    rw [Table.count]
    omega

end Next

/-- The directory object is at the entry that the search gives, which stands in the
window. -/
structure Found (ready : σ → Prop) (image : ℕ → List Byte) (v : Volume)
    (result : Except FResult (List Byte)) (s : Fs σ) (dj : Dir) (u : Fs σ) : Prop where
  sound : Sound ready image v u
  frame : Frame s u
  entry : result = .ok (entryAt u.fs.win (dj.dir.getD 0))
  dir : dj.dir.isSome

/-- The search fails, or the disk. -/
structure Missing (ready failed : σ → Prop) (image : ℕ → List Byte) (v : Volume)
    (result : Except FResult (List Byte)) (s : Fs σ) (res : FResult) (u : Fs σ) : Prop where
  sound : Sound ready image v u
  frame : Frame s u
  result : res = .diskErr ∧ failed u.disk ∨ result = .error res

section Search
variable {t : Table} {dj : Dir} {k : ℕ}

/-- The entries from `k` on. -/
def entriesFrom (t : Table) (image : ℕ → List Byte) (k : ℕ) : List (List Byte) :=
  (List.range' k (t.count - k)).map (t.entry image)

theorem entries_from_cons (hk : k < t.count) :
    entriesFrom t image k = t.entry image k :: entriesFrom t image (k + 1) := by
  rw [entriesFrom, entriesFrom, show t.count - k = t.count - (k + 1) + 1 by omega,
    List.range'_succ, List.map_cons]

theorem At.entry (ha : At t k dj) :
    t.entry image k = entryAt (image dj.sect) (dj.dir.getD 0) := by
  rw [Table.entry, ha.dir, ha.sect, List.getD_eq_getElem?_getD, ha.clust]
  rfl

theorem dir_find_from_spec (h : Holds disk ready failed image v.limit) (hroot : Rooted v)
    (hl : Linked v image t) (hs : Sound ready image v s) (ha : At t k dj) (hk : k < t.count)
    (hfuel : t.count - k ≤ fuel) :
    Wp (dirFindFrom disk fuel dj)
      (Found ready image v (lookup dj.fn t.ending (entriesFrom t image k)) s)
      (Missing ready failed image v (lookup dj.fn t.ending (entriesFrom t image k)) s) s := by
  induction fuel generalizing k dj s with
  | zero => omega
  | succ fuel ih =>
    have hbounds := ha.sect_bounds hl
    have hword : k < 2 ^ 16 := by
      rw [Table.count] at hk
      omega
    rw [dirFindFrom, entries_from_cons hk, lookup]
    refine (move_window_spec h hs hbounds.1 hbounds.2).seq ?_ ?_
    · rintro - u ⟨hsound, hframe, hwin⟩
      have hentry : t.entry image k = entryAt u.fs.win (dj.dir.getD 0) := by rw [hwin, ha.entry]
      rw [wp_bind, wp_get, wp_ite, wp_ite, hentry]
      split
      · rw [wp_throw]
        exact ⟨hsound, hframe, .inr rfl⟩
      · split
        · rw [wp_pure]
          exact ⟨hsound, hframe, rfl, by rw [ha.dir]; rfl⟩
        · refine (dir_next_spec h hroot hl hsound ha hword).seq ?_ ?_
          · rintro dj' w ⟨hsound', hframe', hcount, hat, hfn⟩
            have hih := ih hsound' hat hcount (by omega)
            rw [hfn] at hih
            refine hih.mono ?_ ?_
            · rintro dj'' x ⟨hx, hfx, hresult, hdir⟩
              exact ⟨hx, hframe.trans (hframe'.trans hfx), hresult, hdir⟩
            · rintro res x ⟨hx, hfx, hresult⟩
              exact ⟨hx, hframe.trans (hframe'.trans hfx), hresult⟩
          · rintro res w ⟨hsound', hframe', hresult⟩
            refine ⟨hsound', hframe.trans hframe', hresult.imp_right ?_⟩
            rintro ⟨rfl, hcount⟩
            rw [entriesFrom, hcount, Nat.sub_self]
            rfl
    · rintro res u ⟨hres, hsound, hframe, hfailed⟩
      exact ⟨hsound, hframe, .inl ⟨hres, hfailed⟩⟩

end Search

theorem At.count_pos (hl : Linked v image t) (ha : At t 0 dj) : 0 < t.count := by
  have hsize := ha.lt_size hl
  rw [Table.count]
  omega

/-- The first entry of a chain. -/
theorem chain_start (hlow : 2 ≤ c) (hhigh : c < v.nFatent) (dj : Dir) :
    At (chainTable v image c) 0 { dj with
      index := 0, clust := c, sect := dword (clust2sect v.toGeometry c + 0 / perSector)
      dir := some (0 % perSector * szDir) } := by
  obtain ⟨hsect, hlim⟩ := clust2sect_eq hlow hhigh
  have hbelow := v.below
  refine ⟨rfl, ?_, ?_, rfl⟩
  · change (chainFrom v image maxChain c).1[0 / perSector / v.csize]? = some c
    rw [Nat.zero_div, Nat.zero_div]
    exact chain_from_head v image (maxChain - 1) c
  · change dword (clust2sect v.toGeometry c + 0 / perSector) =
      v.base c + 0 / perSector % v.csize
    rw [hsect, Nat.zero_div, Nat.zero_mod, dword_eq (by omega)]

/-- The start that `dir_sdi` takes: the area of the root directory or a cluster. -/
theorem table_start_cases (hroot : Rooted v) (hs : Sound ready image v s)
    (hin : ¬(sclust = 1 ∨ v.nFatent ≤ sclust)) :
    tableStart s.fs sclust = 0 ∧ v.type ≠ .fat32 ∧ tableOf v image sclust =
      (if v.nRootdir = 0 then .error .intErr else .ok (rootTable v)) ∨
    2 ≤ tableStart s.fs sclust ∧ tableStart s.fs sclust < v.nFatent ∧
      tableOf v image sclust = .ok (chainTable v image (tableStart s.fs sclust)) := by
  have hdirbase : s.fs.dirbase = v.dirbase := congrArg Geometry.dirbase hs.geometry
  rw [tableStart, tableOf, hs.type, hdirbase, if_neg hin]
  by_cases hsclust : sclust = 0
  · rw [if_neg (Classical.not_not.mpr hsclust)]
    by_cases htype : v.type = .fat32
    · rw [if_pos ⟨hsclust, congrArg some htype⟩, if_pos htype]
      exact .inr ⟨(hroot.cluster htype).1, (hroot.cluster htype).2, rfl⟩
    · rw [if_neg fun hboth => htype (Option.some.inj hboth.2), if_neg htype]
      exact .inl ⟨hsclust, htype, rfl⟩
  · rw [if_neg fun hboth => hsclust hboth.1, if_pos hsclust]
    exact .inr ⟨by omega, by omega, rfl⟩

/-- Going to the first entry. -/
theorem dir_sdi_spec (hroot : Rooted v) (hs : Sound ready image v s) (dj : Dir) :
    Wp (dirSdi disk dj 0)
      (fun dj' u => u = s ∧ dj'.fn = dj.fn ∧
        ∃ t, tableOf v image dj.sclust = .ok t ∧ 0 < t.count ∧ At t 0 dj')
      (fun res u => u = s ∧ tableOf v image dj.sclust = .error res) s := by
  have hentries : s.fs.nFatent = v.nFatent := congrArg Geometry.nFatent hs.geometry
  have hdirs : s.fs.nRootdir = v.nRootdir := congrArg Geometry.nRootdir hs.geometry
  have hdirbase : s.fs.dirbase = v.dirbase := congrArg Geometry.dirbase hs.geometry
  unfold dirSdi
  rw [wp_bind, wp_get, wp_ite, hentries]
  split
  · rename_i hout
    rw [wp_throw, tableOf, if_pos hout]
    exact ⟨rfl, rfl⟩
  · rename_i hin
    rw [wp_ite]
    rcases table_start_cases hroot hs hin with ⟨hzero, htype, htable⟩ | ⟨hlow, hhigh, htable⟩
    · rw [if_pos hzero, wp_ite, htable, hdirs, hdirbase]
      split
      · rename_i hnone
        rw [wp_throw, if_pos (by omega)]
        exact ⟨rfl, rfl⟩
      · rename_i hsome
        have hlinked : Linked v image (rootTable v) := root_table_linked hroot htype (by omega)
        have hlow : v.dirbase < 2 ^ 32 :=
          ((Nat.le_add_right ..).trans (hroot.area htype).2).trans_lt v.below
        rw [wp_pure, if_neg (by omega)]
        have hat : At (rootTable v) 0 { dj with
            index := 0, clust := 0, sect := dword (v.dirbase + 0 / perSector)
            dir := some (0 % perSector * szDir) } := by
          refine ⟨rfl, ?_, ?_, rfl⟩
          · rw [Nat.zero_div, Nat.zero_div]
            rfl
          · change dword (v.dirbase + 0 / perSector) = v.dirbase + 0 / perSector % _
            rw [Nat.zero_div, Nat.zero_mod]
            exact dword_eq hlow
        exact ⟨rfl, rfl, _, rfl, hat.count_pos hlinked, hat⟩
    · have hstart : At (chainTable v image _) 0 _ := chain_start hlow hhigh dj
      rw [if_neg (by omega), htable, hs.geometry, followTable, wp_bind, wp_pure, wp_pure]
      exact ⟨rfl, rfl, _, rfl, hstart.count_pos (chain_table_linked hlow hhigh), hstart⟩

/-- `dir_find` finds the first entry with the name, in whatever the directory holds. -/
theorem dir_find_spec (h : Holds disk ready failed image v.limit) (hroot : Rooted v)
    (hs : Sound ready image v s) (dj : Dir) :
    Wp (dirFind disk dj)
      (Found ready image v (search v image dj.sclust dj.fn) s)
      (Missing ready failed image v (search v image dj.sclust dj.fn) s) s := by
  refine (dir_sdi_spec hroot hs dj).seq ?_ ?_
  · intro dj' u hu
    refine hu.2.2.elim fun t ht => ?_
    obtain ⟨htable, hpos, hat⟩ := ht
    have hentries : t.entries image = entriesFrom t image 0 := by
      rw [Table.entries, entriesFrom, List.range_eq_range', Nat.sub_zero]
    have hsearch : search v image dj.sclust dj.fn =
        lookup dj'.fn t.ending (entriesFrom t image 0) := by
      rw [search, htable, ← hentries, hu.2.1]
    have hfuel : t.count - 0 ≤ 2 ^ 16 := by
      rw [Table.count]
      omega
    rw [hsearch, hu.1]
    exact dir_find_from_spec h hroot (table_linked hroot htable) hs hat hpos hfuel
  · rintro res u ⟨rfl, htable⟩
    refine ⟨hs, Frame.refl u, .inr ?_⟩
    rw [search, htable]

end Vp2Motion.Proofs.DirSearch
