import Mathlib.Data.Nat.ModEq
import Vnu.Fat16.Operations
import Vnu.Lib.Blocks

/-!
What a mounted volume holds: one table entry per cluster and the bytes of every region, where region
0 is the root. A store of the driver is an update of this view and nothing else.
-/
namespace Vnu.Fat16

open Lib Function Nat

variable {c r k r' o len i : ℕ}

structure Geometry (fs : Fs) : Prop where
  readOk : ∀ lba, fs.dev.readOk lba = true
  writeOk : ∀ lba, fs.dev.writeOk lba = true
  fats : 1 ≤ fs.numFats
  root : fs.firstFat + fs.numFats * fs.fatsz ≤ fs.firstRoot
  rootSectors : fs.rootDirSectors = 32
  data : fs.firstRoot + 32 ≤ fs.firstData
  spc_pos : 1 ≤ fs.spc
  spc_le : fs.spc ≤ 128
  max_ge : 4086 ≤ fs.maxCluster
  max_le : fs.maxCluster ≤ 0xFFF3
  table : 2 * (fs.maxCluster + 1) ≤ fs.fatsz * 512
  top : fs.firstData + (fs.maxCluster - 1) * fs.spc ≤ fs.totalSectors
  total : fs.totalSectors < 2 ^ 32

def Fs.Region (fs : Fs) (r : ℕ) : Prop := r = 0 ∨ fs.InRange r

def Fs.regionStart (fs : Fs) (r : ℕ) : ℕ :=
  if r = 0 then fs.firstRoot else fs.firstData + (r - 2) * fs.spc

def Fs.regionSectors (fs : Fs) (r : ℕ) : ℕ := if r = 0 then fs.rootDirSectors else fs.spc

def Fs.regionBytes (fs : Fs) (r : ℕ) : ℕ := fs.regionSectors r * 512

section

variable {fs : Fs}

theorem Fs.InRange.ne_zero (h : fs.InRange c) : c ≠ 0 := by
  have := h.1
  omega

theorem region_zero : fs.Region 0 := Or.inl rfl

theorem region_of_inRange (h : fs.InRange c) : fs.Region c := Or.inr h

theorem Geometry.cb_pos (hg : Geometry fs) : 0 < fs.cb := by
  have := hg.spc_pos
  simp only [Fs.cb]
  omega

theorem Geometry.cb_le (hg : Geometry fs) : fs.cb ≤ 65536 := by
  have := hg.spc_le
  simp only [Fs.cb]
  omega

theorem regionBytes_zero (hg : Geometry fs) : fs.regionBytes 0 = 16384 := by
  simp [Fs.regionBytes, Fs.regionSectors, hg.rootSectors]

theorem regionBytes_cluster (hc : fs.InRange c) : fs.regionBytes c = fs.cb := by
  simp [Fs.regionBytes, Fs.regionSectors, Fs.cb, hc.ne_zero]

theorem Geometry.cluster_end (hg : Geometry fs) (hc : fs.InRange c) :
    fs.firstData + (c - 2) * fs.spc + fs.spc ≤ fs.totalSectors := by
  have h1 := hc.1
  have h2 := hc.2
  have hmul := Blocks.block_le (show c - 2 < fs.maxCluster - 1 by omega) fs.spc
  have := hg.top
  omega

theorem clusterToSector_eq (hg : Geometry fs) (hc : fs.InRange c) :
    clusterToSector fs c = fs.firstData + (c - 2) * fs.spc := by
  have h1 := hc.1
  have hend := hg.cluster_end hc
  have htot := hg.total
  have hsplit : fs.firstData + (c + (2 ^ 32 - 2)) * fs.spc =
      fs.firstData + (c - 2) * fs.spc + fs.spc * 2 ^ 32 := by
    have : c + (2 ^ 32 - 2) = (c - 2) + 2 ^ 32 := by omega
    rw [this, add_mul, mul_comm (2 ^ 32), add_assoc]
  rw [clusterToSector, hsplit, Nat.add_mul_mod_self_right]
  exact Nat.mod_eq_of_lt (by omega)

theorem regionStart_cluster (hg : Geometry fs) (hc : fs.InRange c) :
    fs.regionStart c = clusterToSector fs c := by
  rw [clusterToSector_eq hg hc]
  simp [Fs.regionStart, hc.ne_zero]

theorem region_bounds (hg : Geometry fs) (hr : fs.Region r) (hk : k < fs.regionSectors r) :
    fs.firstRoot ≤ fs.regionStart r + k ∧ fs.regionStart r + k < fs.totalSectors := by
  have hdata := hg.data
  rcases hr with rfl | hr
  · have := hg.rootSectors
    have h2 := hg.top
    simp only [Fs.regionSectors, Fs.regionStart, if_true] at hk ⊢
    omega
  · have hend := hg.cluster_end hr
    simp only [Fs.regionSectors, Fs.regionStart, hr.ne_zero, if_false] at hk ⊢
    omega

/-- Regions do not overlap: a sector belongs to one of them. -/
theorem region_inj (hg : Geometry fs) {k' : ℕ} (hr : fs.Region r) (hr' : fs.Region r')
    (hk : k < fs.regionSectors r) (hk' : k' < fs.regionSectors r')
    (h : fs.regionStart r + k = fs.regionStart r' + k') : r = r' ∧ k = k' := by
  have hdata := hg.data
  have hroot := hg.rootSectors
  -- A cluster with a smaller number ends before the next one starts.
  have hlt : ∀ a b : ℕ, 2 ≤ a → a < b → (a - 2) * fs.spc + fs.spc ≤ (b - 2) * fs.spc :=
    fun a b ha hab => Blocks.block_le (by omega) fs.spc
  simp only [Fs.regionSectors, Fs.regionStart] at hk hk' h
  rcases hr with rfl | hr <;> rcases hr' with rfl | hr'
  · simp only [if_true] at h
    omega
  · simp only [if_true, hr'.ne_zero, if_false] at h hk hk'
    omega
  · simp only [if_true, hr.ne_zero, if_false] at h hk hk'
    omega
  simp only [hr.ne_zero, hr'.ne_zero, if_false] at h hk hk'
  rcases Nat.lt_trichotomy r r' with hrr | hrr | hrr
  · have := hlt r r' hr.1 hrr
    omega
  · subst hrr
    omega
  · have := hlt r' r hr'.1 hrr
    omega

theorem lba_inj {a b : ℕ} (ha : a < 2 ^ 32) (hb : b < 2 ^ 32) (h : fs.lba a = fs.lba b) :
    a = b := by
  have hmod : a % 2 ^ 32 = b % 2 ^ 32 := Nat.ModEq.add_left_cancel' fs.partLba h
  rwa [Nat.mod_eq_of_lt ha, Nat.mod_eq_of_lt hb] at hmod

theorem update_lba {a b : ℕ} {d : Disk} {buf : Buf} (ha : a < 2 ^ 32) (hb : b < 2 ^ 32)
    (hne : b ≠ a) : update d (fs.lba a) buf (fs.lba b) = d (fs.lba b) :=
  update_of_ne (fun h => hne (lba_inj hb ha h)) _ _

end

@[ext]
structure View where
  fat : ℕ → ℕ
  dat : ℕ → ℕ → UInt8

open Classical in
noncomputable def view (fs : Fs) (d : Disk) : View where
  fat c := if c ≤ fs.maxCluster
    then rd16 (d (fs.lba (fs.firstFat + c * 2 / 512))) (c * 2 % 512) else 0
  dat r i := if fs.Region r ∧ i < fs.regionBytes r
    then d (fs.lba (fs.regionStart r + i / 512)) (i % 512) else 0

def View.setFat (v : View) (c x : ℕ) : View := { v with fat := update v.fat c x }

def View.patch (v : View) (r o len : ℕ) (src : Buf) : View :=
  { v with dat := fun r' i => if r' = r ∧ o ≤ i ∧ i < o + len then src (i - o) else v.dat r' i }

@[simp] theorem setFat_dat (v : View) (c x : ℕ) : (v.setFat c x).dat = v.dat := rfl

@[simp] theorem setFat_fat (v : View) (c x : ℕ) : (v.setFat c x).fat = update v.fat c x := rfl

@[simp] theorem patch_fat (v : View) (r o len : ℕ) (src : Buf) :
    (v.patch r o len src).fat = v.fat := rfl

theorem patch_dat_in {v : View} {r : ℕ} {src : Buf} (hlo : o ≤ i)
    (hhi : i < o + len) : (v.patch r o len src).dat r i = src (i - o) :=
  if_pos ⟨rfl, hlo, hhi⟩

theorem patch_dat_out {v : View} {r : ℕ} {src : Buf} (h : i < o ∨ o + len ≤ i) :
    (v.patch r o len src).dat r i = v.dat r i :=
  if_neg fun hin => by omega

theorem patch_dat_other (v : View) (o len : ℕ) (src : Buf) (h : r' ≠ r) :
    (v.patch r o len src).dat r' = v.dat r' := by
  funext i
  simp [View.patch, h]

section

variable {fs : Fs} (hg : Geometry fs) (d : Disk)
include hg

theorem devRead_eq (rel : ℕ) : devRead fs rel d = some (d (fs.lba rel)) := by
  simp [devRead, hg.readOk]

theorem devWrite_ends (rel : ℕ) (buf : Buf) {Q : Unit → Disk → Prop} {E : Disk → Prop}
    (h : Q () (update d (fs.lba rel) buf)) : (devWrite fs rel buf).Ends d Q E := by
  simpa [Act.Ends, devWrite, hg.writeOk] using h

omit hg in
theorem sector_dat (hr : fs.Region r) (hk : k < fs.regionSectors r) {j : ℕ}
    (hj : j < 512) : d (fs.lba (fs.regionStart r + k)) j = (view fs d).dat r (k * 512 + j) := by
  have hlt : k * 512 + j < fs.regionBytes r := by
    simp only [Fs.regionBytes]
    omega
  have hdiv : (k * 512 + j) / 512 = k := by omega
  have hmod : (k * 512 + j) % 512 = j := by omega
  simp only [view, hr, hlt, and_self, if_true, hdiv, hmod]

omit hg in
theorem sector_lt (h : i < fs.regionBytes r) : i / 512 < fs.regionSectors r := by
  simp only [Fs.regionBytes] at h
  omega

/-- A sector stored in a region is seen as a patch of that region. -/
theorem view_store_region (hr : fs.Region r) (hk : k < fs.regionSectors r) (buf : Buf) :
    view fs (update d (fs.lba (fs.regionStart r + k)) buf) =
      (view fs d).patch r (k * 512) 512 buf := by
  have hb := region_bounds hg hr hk
  have htot := hg.total
  apply View.ext
  · -- Table sectors lie in front of all regions.
    funext c
    simp only [view, patch_fat]
    split
    · rename_i hc
      congr 1
      apply update_of_ne
      intro heq
      have hroot := hg.root
      have htab := hg.table
      have hone : fs.fatsz ≤ fs.numFats * fs.fatsz := Nat.le_mul_of_pos_left _ hg.fats
      have := lba_inj (by omega) (by omega) heq
      omega
    · rfl
  · funext r' i
    simp only [view, View.patch]
    by_cases hin : fs.Region r' ∧ i < fs.regionBytes r'
    · have hk' := sector_lt hin.2
      have hb' := region_bounds hg hin.1 hk'
      simp only [hin, and_self, if_true]
      by_cases hsame : r' = r ∧ k * 512 ≤ i ∧ i < k * 512 + 512
      · obtain ⟨rfl, hlo, hhi⟩ := hsame
        have hdiv : i / 512 = k := by omega
        have hmod : i % 512 = i - k * 512 := by omega
        rw [if_pos ⟨rfl, hlo, hhi⟩, hdiv, update_self, hmod]
      · rw [if_neg hsame, update_of_ne]
        intro heq
        have hrel := lba_inj (by omega) (by omega) heq
        obtain ⟨rfl, hkk⟩ := region_inj hg hin.1 hr hk' hk hrel
        exact hsame ⟨rfl, by omega, by omega⟩
    · have hout : ¬ (r' = r ∧ k * 512 ≤ i ∧ i < k * 512 + 512) := by
        rintro ⟨rfl, -, hhi⟩
        exact hin ⟨hr, hhi.trans_le (Blocks.block_le hk 512)⟩
      simp only [hin, if_false, hout]

theorem view_edit_region {off : ℕ} (hr : fs.Region r) (hk : k < fs.regionSectors r)
    (hlen : off + len ≤ 512) (src : Buf) {buf : Buf}
    (hbuf : ∀ j, j < 512 → buf j = if off ≤ j ∧ j < off + len then src (j - off)
      else d (fs.lba (fs.regionStart r + k)) j) :
    view fs (update d (fs.lba (fs.regionStart r + k)) buf) =
      (view fs d).patch r (k * 512 + off) len src := by
  rw [view_store_region hg d hr hk]
  apply View.ext
  · rw [patch_fat, patch_fat]
  funext r' i
  simp only [View.patch]
  by_cases hin : r' = r ∧ k * 512 ≤ i ∧ i < k * 512 + 512
  · obtain ⟨rfl, hlo, hhi⟩ := hin
    rw [if_pos ⟨rfl, hlo, hhi⟩, hbuf _ (by omega)]
    by_cases hch : k * 512 + off ≤ i ∧ i < k * 512 + off + len
    · have h1 : off ≤ i - k * 512 ∧ i - k * 512 < off + len := by omega
      have h2 : i - k * 512 - off = i - (k * 512 + off) := by omega
      rw [if_pos h1, if_pos ⟨rfl, hch⟩, h2]
    · have h1 : ¬ (off ≤ i - k * 512 ∧ i - k * 512 < off + len) := by omega
      have h3 : k * 512 + (i - k * 512) = i := by omega
      rw [if_neg h1, if_neg fun hcon => hch hcon.2, sector_dat d hr hk (by omega), h3]
  · rw [if_neg hin, if_neg]
    rintro ⟨hrc, hlo, hhi⟩
    refine hin ⟨hrc, ?_⟩
    omega

/-- A sector in front of the root is in no region. -/
theorem view_store_dat {rel : ℕ} (hrel : rel < fs.firstRoot) (buf : Buf) :
    (view fs (update d (fs.lba rel) buf)).dat = (view fs d).dat := by
  have htot := hg.total
  have htop := hg.top
  have hdata := hg.data
  funext r i
  simp only [view]
  split
  · rename_i hin
    have hb := region_bounds hg hin.1 (sector_lt hin.2)
    rw [update_lba (by omega) (by omega) (by omega)]
  · rfl

theorem view_store_fat (hk : k < fs.fatsz) (buf : Buf) :
    view fs (update d (fs.lba (fs.firstFat + k)) buf) =
      { view fs d with fat := fun c =>
          if c ≤ fs.maxCluster ∧ c * 2 / 512 = k then rd16 buf (c * 2 % 512)
          else (view fs d).fat c } := by
  have hroot := hg.root
  have hone : fs.fatsz ≤ fs.numFats * fs.fatsz := Nat.le_mul_of_pos_left _ hg.fats
  have htab := hg.table
  have htot := hg.total
  have htop := hg.top
  have hdata := hg.data
  apply View.ext
  · funext c
    simp only [view]
    by_cases hc : c ≤ fs.maxCluster
    · simp only [hc, if_true, true_and]
      split
      · rename_i hck
        rw [hck, update_self]
      rename_i hck
      rw [update_lba (by omega) (by omega) (by omega)]
    · simp [hc]
  · exact view_store_dat hg d (by omega) buf

/-- A sector between the first table and the root changes nothing in view. -/
theorem view_store_copy {rel : ℕ} (hlo : fs.firstFat + fs.fatsz ≤ rel) (hhi : rel < fs.firstRoot)
    (buf : Buf) : view fs (update d (fs.lba rel) buf) = view fs d := by
  have htab := hg.table
  have htot := hg.total
  have htop := hg.top
  have hdata := hg.data
  apply View.ext
  · funext c
    simp only [view]
    split
    · rename_i hc
      rw [update_lba (by omega) (by omega) (by omega)]
    · rfl
  · exact view_store_dat hg d hhi buf

end

end Vnu.Fat16
