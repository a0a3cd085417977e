import Mathlib.Tactic.IntervalCases
import Vnu.Fat16.Format
import Vnu.Fat16.Table

/-!
The geometry of a new volume. The loops of `format` end with an entry for every cluster, and `mount`
reads the same geometry back.
-/
namespace Vnu.Fat16

open Lib Nat

theorem spcLoop_pow (partSectors : ℕ) {fuel k : ℕ} (hk : k ≤ 7) :
    ∃ j ≤ 7, spcLoop partSectors fuel (2 ^ k) = 2 ^ j := by
  induction fuel generalizing k with
  | zero => exact ⟨k, hk, rfl⟩
  | succ fuel ih =>
    simp only [spcLoop]
    split_ifs with h
    · have hlt : k < 7 := (Nat.pow_lt_pow_iff_right (by decide : 1 < 2)).mp h.2
      exact ih hlt
    · exact ⟨k, hk, rfl⟩

theorem spcFor_pow (partSectors : ℕ) : ∃ j ≤ 7, spcFor partSectors = 2 ^ j :=
  spcLoop_pow partSectors (k := 0) (by omega)

theorem spcLoop_done (partSectors : ℕ) {fuel k : ℕ} (hk : 7 ≤ k + fuel) :
    ¬ (60000 < partSectors / spcLoop partSectors fuel (2 ^ k) ∧
      spcLoop partSectors fuel (2 ^ k) < 128) := by
  induction fuel generalizing k with
  | zero =>
    have hle : 2 ^ 7 ≤ 2 ^ k := Nat.pow_le_pow_right (by omega) hk
    simp only [spcLoop]
    omega
  | succ fuel ih =>
    simp only [spcLoop]
    split_ifs with h
    · rw [← pow_succ]
      exact ih (by omega)
    · exact h

theorem clustersWith_anti (partSectors spc : ℕ) {a b : ℕ} (h : a ≤ b) :
    clustersWith partSectors spc b ≤ clustersWith partSectors spc a :=
  Nat.div_le_div_right (by omega)

theorem fatszLoop_isSome (partSectors spc fatsz : ℕ) :
    (fatszLoop partSectors spc 2 fatsz).isSome := by
  simp only [fatszLoop]
  split_ifs with h1 h2 h3 h4 h5 h6
  all_goals first | rfl | skip
  all_goals
    have := clustersWith_anti partSectors spc (le_of_lt (not_le.mp h2))
    omega

theorem fatszLoop_fits {partSectors spc fuel start fatsz : ℕ} (hstart : start ≤ 0xFFFF)
    (h : fatszLoop partSectors spc fuel start = some (some fatsz)) :
    start ≤ fatsz ∧ fatsz ≤ 0xFFFF ∧ 1 + 2 * fatsz + 32 < partSectors ∧
      (clustersWith partSectors spc fatsz + 2) * 2 ≤ fatsz * 512 := by
  induction fuel generalizing start with
  | zero => simp [fatszLoop] at h
  | succ fuel ih =>
    simp only [fatszLoop] at h
    split_ifs at h with h1 h2 h3
    · simp at h
    · simp only [Option.some.injEq] at h
      subst h
      omega
    · simp at h
    · obtain ⟨hle, hrest⟩ := ih (by omega) h
      exact ⟨by omega, hrest⟩

def freshFs (dev : Device) (partLba partSectors spc fatsz : ℕ) : Fs :=
  { dev := dev, partLba := partLba, totalSectors := partSectors, spc := spc, fatsz := fatsz
    numFats := 2, rootEntries := 512, rootDirSectors := 32, firstFat := 1
    firstRoot := 1 + 2 * fatsz, firstData := 1 + 2 * fatsz + 32
    maxCluster := clustersWith partSectors spc fatsz + 1, mounted := true }

structure FreshFs (dev : Device) (partLba partSectors : ℕ) (fs : Fs) : Prop where
  eq : fs = freshFs dev partLba partSectors fs.spc fs.fatsz
  spc : ∃ j ≤ 7, fs.spc = 2 ^ j
  fatsz_pos : 1 ≤ fs.fatsz
  fatsz_le : fs.fatsz ≤ 0xFFFF
  data : 1 + 2 * fs.fatsz + 32 < partSectors
  table : (clustersWith partSectors fs.spc fs.fatsz + 2) * 2 ≤ fs.fatsz * 512
  enough : 4085 ≤ clustersWith partSectors fs.spc fs.fatsz
  few : clustersWith partSectors fs.spc fs.fatsz + 2 ≤ 0xFFF4

theorem formatFs_fresh {dev : Device} {partLba partSectors : ℕ} {fs : Fs}
    (h : formatFs dev partLba partSectors = some fs) :
    FreshFs dev partLba partSectors fs := by
  simp only [formatFs] at h
  split at h
  · rename_i fatsz hloop
    split_ifs at h with hc
    simp only [Option.some.injEq] at h
    subst h
    obtain ⟨hpos, hle, hdata, htable⟩ := fatszLoop_fits (by omega) hloop
    rw [not_or, not_lt, not_lt] at hc
    exact ⟨rfl, spcFor_pow _, hpos, hle, hdata, htable, hc.1, hc.2⟩
  · simp at h

def Device.Reliable (dev : Device) : Prop := ∀ lba, dev.readOk lba = true ∧ dev.writeOk lba = true

def Device.perfect : Device := ⟨fun _ => true, fun _ => true⟩

theorem Device.perfect_reliable : Device.perfect.Reliable := fun _ => ⟨rfl, rfl⟩

section

variable {dev : Device} {partLba partSectors : ℕ} {fs : Fs}

theorem FreshFs.spc_bounds (h : FreshFs dev partLba partSectors fs) :
    1 ≤ fs.spc ∧ fs.spc ≤ 128 := by
  obtain ⟨j, hj, hspc⟩ := h.spc
  have hle : 2 ^ j ≤ 2 ^ 7 := Nat.pow_le_pow_right (by omega) hj
  have hpos := Nat.two_pow_pos j
  omega

theorem FreshFs.top (h : FreshFs dev partLba partSectors fs) :
    fs.firstData + (fs.maxCluster - 1) * fs.spc ≤ partSectors := by
  have hdata := h.data
  have hmul : clustersWith partSectors fs.spc fs.fatsz * fs.spc ≤
      partSectors - 1 - 2 * fs.fatsz - 32 := Nat.div_mul_le_self _ _
  rw [h.eq]
  simp only [freshFs, Nat.add_sub_cancel]
  omega

theorem FreshFs.geometry (h : FreshFs dev partLba partSectors fs) (hdev : dev.Reliable)
    (hsize : partSectors < 2 ^ 32) : Geometry fs := by
  have hspc := h.spc_bounds
  have htop := h.top
  have htable := h.table
  have henough := h.enough
  have hfew := h.few
  rw [h.eq] at hspc htop ⊢
  constructor <;> simp only [freshFs] at * <;> try omega
  · exact fun lba => (hdev lba).1
  · exact fun lba => (hdev lba).2

theorem FreshFs.onDevice (h : FreshFs dev partLba partSectors fs) (dev' : Device) :
    FreshFs dev' partLba partSectors { fs with dev := dev' } :=
  ⟨congrArg (fun f : Fs => { f with dev := dev' }) h.eq, h.spc, h.fatsz_pos, h.fatsz_le, h.data,
    h.table, h.enough, h.few⟩

theorem FreshFs.cluster_sectors (h : FreshFs dev partLba partSectors fs)
    (hsize : partSectors < 2 ^ 32) {c : ℕ} (hc : fs.InRange c) :
    fs.firstData ≤ clusterToSector fs c ∧ clusterToSector fs c + fs.spc ≤ partSectors := by
  have hg : Geometry { fs with dev := Device.perfect } :=
    (h.onDevice Device.perfect).geometry Device.perfect_reliable hsize
  have hstart : clusterToSector fs c = fs.firstData + (c - 2) * fs.spc :=
    (clusterToSector_eq hg hc :)
  have hend : fs.firstData + (c - 2) * fs.spc + fs.spc ≤ fs.totalSectors := hg.cluster_end hc
  have htotal : fs.totalSectors = partSectors := by rw [h.eq]; rfl
  omega

end

theorem rd16_of_bytes {b : Buf} {i n : ℕ} (hn : n < 65536) (h0 : b i = UInt8.ofNat n)
    (h1 : b (i + 1) = UInt8.ofNat (n / 256)) : rd16 b i = n := by
  simp only [rd16, h0, h1, UInt8.toNat_ofNat']
  omega

section

variable (fs : Fs) (oem label : List UInt8) (volumeId : ℕ)

theorem bootSector_fixed :
    bootSector fs oem label volumeId 13 = UInt8.ofNat fs.spc ∧
    rd16 (bootSector fs oem label volumeId) 11 = 512 ∧
    rd16 (bootSector fs oem label volumeId) 14 = 1 ∧ bootSector fs oem label volumeId 16 = 2 ∧
    rd16 (bootSector fs oem label volumeId) 17 = 512 ∧ bootSector fs oem label volumeId 510 = 0x55 ∧
    bootSector fs oem label volumeId 511 = 0xAA := by
  refine ⟨?_, rd16_of_bytes (by omega) ?_ ?_, rd16_of_bytes (by omega) ?_ ?_, ?_,
    rd16_of_bytes (by omega) ?_ ?_, ?_, ?_⟩
  all_goals by_cases hs : fs.totalSectors < 65536 <;> simp [bootSector, copyPadded, wr16, wr32, hs]

theorem bootSector_fatsz (h : fs.fatsz < 65536) :
    rd16 (bootSector fs oem label volumeId) 22 = fs.fatsz := by
  apply rd16_of_bytes h
  all_goals simp [bootSector, copyPadded, wr16, wr32]

theorem bootSector_total (h : fs.totalSectors < 2 ^ 32) :
    (if rd16 (bootSector fs oem label volumeId) 19 = 0
      then rd32 (bootSector fs oem label volumeId) 32
      else rd16 (bootSector fs oem label volumeId) 19) = fs.totalSectors := by
  by_cases hs : fs.totalSectors < 65536
  · have h19 : rd16 (bootSector fs oem label volumeId) 19 = fs.totalSectors := by
      apply rd16_of_bytes hs <;> simp [bootSector, copyPadded, wr16, wr32, hs]
    have h32 : rd32 (bootSector fs oem label volumeId) 32 = 0 := by
      simp [rd32, rd16, bootSector, copyPadded, wr16, wr32, hs]
    rw [h19, h32]
    split_ifs with h0
    · exact h0.symm
    · rfl
  · have h19 : rd16 (bootSector fs oem label volumeId) 19 = 0 := by
      simp [rd16, bootSector, copyPadded, wr16, wr32, hs]
    have hlo : rd16 (bootSector fs oem label volumeId) 32 = fs.totalSectors % 65536 := by
      simp [rd16, bootSector, copyPadded, wr16, wr32, hs]
      omega
    have hhi : rd16 (bootSector fs oem label volumeId) 34 = fs.totalSectors / 65536 := by
      apply rd16_of_bytes (by omega) <;> simp [bootSector, copyPadded, wr16, wr32, hs]
    rw [if_pos h19, rd32, hhi]
    omega

end

/-- Mounting computes the geometry again from the boot sector, and it is the same. -/
theorem bootFs_bootSector {dev : Device} {partLba partSectors : ℕ} {fs : Fs}
    (h : FreshFs dev partLba partSectors fs) (hsize : partSectors < 2 ^ 32)
    (oem label : List UInt8) (volumeId : ℕ) :
    bootFs dev partLba (bootSector fs oem label volumeId) = some fs := by
  obtain ⟨h13, h11, h14, h16, h17, h510, h511⟩ := bootSector_fixed fs oem label volumeId
  have htotal : fs.totalSectors = partSectors := by rw [h.eq]; rfl
  have htot := bootSector_total fs oem label volumeId (htotal ▸ hsize)
  have hfatsz := bootSector_fatsz fs oem label volumeId (by have := h.fatsz_le; omega)
  have hspc : (UInt8.ofNat fs.spc).toNat = fs.spc := by
    exact Nat.mod_eq_of_lt (by have := h.spc_bounds; omega)
  have hpow : ¬ (fs.spc = 0 ∨ fs.spc &&& (fs.spc - 1) ≠ 0) := by
    obtain ⟨j, hj, heq⟩ := h.spc
    rw [heq]
    interval_cases j <;> decide
  have hclusters : (fs.totalSectors - (1 + 2 * fs.fatsz + 32)) / fs.spc =
      clustersWith partSectors fs.spc fs.fatsz := by
    rw [clustersWith, htotal, Nat.sub_sub, Nat.sub_sub, add_assoc]
  have h2 : (2 : UInt8).toNat = 2 := rfl
  simp only [bootFs, h13, h11, h14, h16, h17, h510, h511, htot, hfatsz, hspc, h2, hclusters]
  rw [if_neg (by simp), if_neg (by simp), if_neg hpow, if_neg (by have := h.fatsz_pos; omega),
    if_neg (by have := h.data; omega), if_neg (by have := h.enough; have := h.few; omega)]
  rw [htotal]
  exact congrArg some h.eq.symm

end Vnu.Fat16
