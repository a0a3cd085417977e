import Vnu.Fat16.Volume

/-!
The allocation table in view: reading and setting an entry, zeroing a cluster, and the
search for a free one. All tables are written, the first one is read.
-/
namespace Vnu.Fat16

open Lib List Function Option Act Nat

variable {c x sec prev : ℕ}

theorem rd16_wr16 (b : Buf) (i v : ℕ) : rd16 (wr16 b i v) i = v % 65536 := by
  have hne : i ≠ i + 1 := by omega
  simp only [rd16, wr16, update_self, update_of_ne hne, UInt8.toNat_ofNat']
  omega

theorem rd16_wr16_of_ne {b : Buf} {i j : ℕ} {v : ℕ} (h : j ≠ i) (h1 : j + 1 ≠ i) (h2 : j ≠ i + 1) :
    rd16 (wr16 b i v) j = rd16 b j := by
  have h3 : j + 1 ≠ i + 1 := by omega
  simp only [rd16, wr16, update_of_ne h, update_of_ne h1, update_of_ne h2, update_of_ne h3]

def nextOf (v : ℕ) : ℕ := if v = 0 ∨ v = 0xFFF7 ∨ 0xFFF8 ≤ v then 0 else v

def View.link (v : View) (prev c : ℕ) : View := if prev = 0 then v else v.setFat prev c

def View.alloc (v : View) (fs : Fs) (prev c : ℕ) : View :=
  ((v.setFat c 0xFFFF).link prev c).patch c 0 fs.cb fun _ => 0

section

variable {fs : Fs} (hg : Geometry fs) (d : Disk)
include hg

theorem fatGet_eq (hc : c ≤ fs.maxCluster) : fatGet fs c d = some ((view fs d).fat c) := by
  have hmax := hg.max_le
  have hoff : c * 2 % 2 ^ 32 = c * 2 := Nat.mod_eq_of_lt (by omega)
  simp only [fatGet, hoff, devRead_eq hg, map_some, view, hc, if_true]

theorem fatNext_eq (hc : c ≤ fs.maxCluster) :
    fatNext fs c d = some (nextOf ((view fs d).fat c)) := by
  rw [fatNext, fatGet_eq hg d hc, map_some]
  rfl

theorem fatSetLoop_copies (hc : c ≤ fs.maxCluster) (n copy : ℕ) (hcopy : 1 ≤ copy)
    (hn : copy + n ≤ fs.numFats) :
    (fatSetLoop fs c x n copy).Ends d (fun _ d' => view fs d' = view fs d) fun _ => False := by
  induction n generalizing d copy with
  | zero => exact rfl
  | succ n ih =>
    have hmax := hg.max_le
    have htab := hg.table
    have hroot := hg.root
    have hoff : c * 2 % 2 ^ 32 = c * 2 := Nat.mod_eq_of_lt (by omega)
    have hlo : fs.fatsz ≤ copy * fs.fatsz := Nat.le_mul_of_pos_left _ hcopy
    have hhi := Blocks.block_le (show copy < fs.numFats by omega) fs.fatsz
    simp only [fatSetLoop, hoff, ends_bind, ends_query_some (devRead_eq hg d _)]
    apply devWrite_ends hg
    refine (ih _ (copy + 1) (by omega) (by omega)).mono ?_ fun _ h => h
    intro _ d' hd'
    rw [hd', view_store_copy hg d (by omega) (by omega)]

/-- Both copies of the table are written, and the view sees the first. -/
theorem fatSet_ends (hc : c ≤ fs.maxCluster) (hx : x < 65536) :
    (fatSet fs c x).Ends d (fun _ d' => view fs d' = (view fs d).setFat c x) fun _ => False := by
  obtain ⟨n, hn⟩ : ∃ n, fs.numFats = n + 1 := ⟨fs.numFats - 1, by have := hg.fats; omega⟩
  have hmax := hg.max_le
  have htab := hg.table
  have hoff : c * 2 % 2 ^ 32 = c * 2 := Nat.mod_eq_of_lt (by omega)
  have hsec : c * 2 / 512 < fs.fatsz := by omega
  rw [fatSet, hn, fatSetLoop]
  simp only [hoff, zero_mul, add_zero, ends_bind, ends_query_some (devRead_eq hg d _)]
  apply devWrite_ends hg
  refine (fatSetLoop_copies hg _ hc n 1 (by omega) (by omega)).mono ?_ fun _ h => h
  intro _ d' hd'
  rw [hd', view_store_fat hg d hsec]
  apply View.ext
  · funext c'
    simp only [setFat_fat]
    by_cases hcc : c' = c
    · subst hcc
      simp only [hc, and_self, if_true, rd16_wr16, update_self]
      exact Nat.mod_eq_of_lt hx
    rw [update_of_ne hcc]
    split
    · rename_i hin
      rw [rd16_wr16_of_ne (by omega) (by omega) (by omega)]
      simp only [view, hin.1, if_true, hin.2]
    · rfl
  · rfl

theorem zeroSectors_ends (hc : fs.InRange c) (count k : ℕ) (hk : k + count ≤ fs.spc) :
    (zeroSectors fs (clusterToSector fs c + k) count).Ends d
      (fun _ d' => view fs d' = (view fs d).patch c (k * 512) (count * 512) fun _ => 0)
      fun _ => False := by
  induction count generalizing d k with
  | zero =>
    refine Ends.of_eq_some rfl ?_
    apply View.ext
    · rfl
    · funext r i
      have hno : ¬ (r = c ∧ k * 512 ≤ i ∧ i < k * 512 + 0 * 512) := by omega
      simp only [View.patch, hno, if_false]
  | succ count ih =>
    have hsec : k < fs.regionSectors c := by
      simp only [Fs.regionSectors, hc.ne_zero, if_false]
      omega
    simp only [zeroSectors, ends_bind]
    apply devWrite_ends hg
    refine (ih _ (k + 1) (by omega)).mono ?_ fun _ h => h
    intro _ d' hd'
    rw [hd', ← regionStart_cluster hg hc, view_store_region hg d (region_of_inRange hc) hsec]
    apply View.ext
    · rfl
    funext r i
    simp only [View.patch]
    split
    · rename_i h
      rw [if_pos ⟨h.1, by omega, by omega⟩]
    rename_i h
    split
    · rename_i h'
      rw [if_pos ⟨h'.1, by omega, by omega⟩]
    rename_i h'
    rw [if_neg]
    rintro ⟨hrc, hlo, hhi⟩
    by_cases hmid : i < k * 512 + 512
    · exact h' ⟨hrc, hlo, hmid⟩
    · refine h ⟨hrc, ?_⟩
      clear h h'
      omega

theorem zeroCluster_ends (hc : fs.InRange c) :
    (zeroCluster fs c).Ends d (fun _ d' => view fs d' = (view fs d).patch c 0 fs.cb fun _ => 0)
      fun _ => False := by
  have h := zeroSectors_ends hg d hc fs.spc 0 (by omega)
  rw [zero_mul, add_zero] at h
  exact h

omit hg in
theorem rd16_eq_zero (b : Buf) (i : ℕ) : rd16 b i = 0 ↔ b i = 0 ∧ b (i + 1) = 0 := by
  simp only [rd16, ← UInt8.toNat_inj, UInt8.toNat_zero]
  omega

omit hg in
theorem view_fat_sector (hc : fs.InRange c) (hsec : c / 256 = sec) :
    (view fs d).fat c = rd16 (d (fs.lba (fs.firstFat + sec))) ((c - sec * 256) * 2) := by
  have h1 : c * 2 / 512 = sec := by omega
  have h2 : c * 2 % 512 = (c - sec * 256) * 2 := by omega
  simp only [view, hc.2, if_true, h1, h2]

omit hg in
theorem freeInSector_some (h : freeInSector fs sec (d (fs.lba (fs.firstFat + sec))) = some c) :
    fs.InRange c ∧ (view fs d).fat c = 0 := by
  obtain ⟨i, hfind, rfl⟩ := map_eq_some_iff.mp h
  have hi : i < 256 := mem_range.mp (mem_of_find?_eq_some hfind)
  have hp := find?_some hfind
  simp only [Bool.and_eq_true, decide_eq_true_eq, beq_iff_eq] at hp
  refine ⟨hp.1, ?_⟩
  rw [view_fat_sector d hp.1 (show _ = sec by omega)]
  have hsub : sec * 256 + i - sec * 256 = i := by omega
  rw [hsub, rd16_eq_zero]
  exact hp.2

omit hg in
theorem freeInSector_none (h : freeInSector fs sec (d (fs.lba (fs.firstFat + sec))) = none)
    (hc : fs.InRange c) (hsec : c / 256 = sec) : (view fs d).fat c ≠ 0 := by
  have hnone := find?_eq_none.mp (map_eq_none_iff.mp h)
  intro hzero
  rw [view_fat_sector d hc hsec, rd16_eq_zero] at hzero
  apply hnone (c - sec * 256) (mem_range.mpr (by omega))
  have hadd : sec * 256 + (c - sec * 256) = c := by omega
  simp [hadd, hc, hzero.1, hzero.2]

theorem findFree_spec (n sec : ℕ) (hn : sec + n = fs.fatsz) :
    (findFree fs n sec d = some 0 ∧ ∀ c, fs.InRange c → sec ≤ c / 256 → (view fs d).fat c ≠ 0) ∨
    ∃ c, findFree fs n sec d = some c ∧ fs.InRange c ∧ (view fs d).fat c = 0 := by
  induction n generalizing sec with
  | zero =>
    refine .inl ⟨rfl, ?_⟩
    intro c hc hsec
    have htab := hg.table
    have := hc.2
    omega
  | succ n ih =>
    simp only [findFree, devRead_eq hg]
    cases hfree : freeInSector fs sec (d (fs.lba (fs.firstFat + sec))) with
    | some c => exact .inr ⟨c, rfl, freeInSector_some d hfree⟩
    | none =>
      rcases ih (sec + 1) (by omega) with ⟨heq, hall⟩ | ⟨c, heq, hc⟩
      · refine .inl ⟨heq, ?_⟩
        intro c hc hsec
        by_cases hthis : c / 256 = sec
        · exact freeInSector_none d hfree hc hthis
        · exact hall c hc (by omega)
      · exact .inr ⟨c, heq, hc⟩

theorem linkAfter_ends (hprev : prev ≤ fs.maxCluster) (hc : c < 65536) :
    (linkAfter fs prev c).Ends d (fun _ d' => view fs d' = (view fs d).link prev c)
      fun _ => False := by
  unfold linkAfter View.link
  split
  · exact rfl
  · exact fatSet_ends hg d hprev hc

/-- Allocation takes a free cluster, and fails only when there is none. -/
theorem clusterAlloc_ends (hprev : prev ≤ fs.maxCluster) :
    (clusterAlloc fs prev).Ends d
      (fun c d' => fs.InRange c ∧ (view fs d).fat c = 0 ∧ view fs d' = (view fs d).alloc fs prev c)
      (fun d' => d' = d ∧ ∀ c, fs.InRange c → (view fs d).fat c ≠ 0) := by
  rcases findFree_spec hg d fs.fatsz 0 (by omega) with ⟨heq, hall⟩ | ⟨c, heq, hc, hzero⟩
  · simp only [clusterAlloc, ends_bind, ends_query_some heq, if_true, ends_fail]
    exact ⟨trivial, fun c hc => hall c hc (zero_le _)⟩
  have hmax := hg.max_le
  have hlt := hc.2
  simp only [clusterAlloc, ends_bind, ends_query_some heq, hc.ne_zero, if_false]
  refine (fatSet_ends hg d hc.2 (by omega)).imp ?_
  intro _ d₁ hd₁
  refine (linkAfter_ends hg d₁ hprev (by omega)).imp ?_
  intro _ d₂ hd₂
  refine (zeroCluster_ends hg d₂ hc).imp ?_
  intro _ d₃ hd₃
  refine ⟨hc, hzero, ?_⟩
  rw [hd₃, hd₂, hd₁]
  rfl

end

end Vnu.Fat16
