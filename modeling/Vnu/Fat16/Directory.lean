import Vnu.Fat16.Items
import Vnu.Fat16.Ranges

/-!
Directories on the disk, as lists of slots. The scans of the driver are scans of the list, and
changing a slot through its sector changes that element only.
-/
namespace Vnu.Fat16

open Lib Lib.Links Lib.Blocks List Option Nat

def Area (fs : Fs) (f : ℕ → ℕ) (dir : ℕ) (bl : List ℕ) : Prop :=
  (dir = 0 ∧ bl = [0]) ∨ (dir ≠ 0 ∧ Chain fs f dir bl)

def View.slots (v : View) (fs : Fs) (dir : ℕ) (bl : List ℕ) : List Slot :=
  (List.range (bl.length * fs.regionBytes dir / 32)).map fun k (j : Fin 32) =>
    flat v.dat (fs.regionBytes dir) bl (32 * k + j)

section

variable {fs : Fs} (hg : Geometry fs) {f : ℕ → ℕ} {dir : ℕ} {bl : List ℕ}

theorem Area.region (h : Area fs f dir bl) {r : ℕ} (hr : r ∈ bl) :
    fs.Region r ∧ fs.regionSectors r = fs.regionSectors dir := by
  rcases h with ⟨rfl, rfl⟩ | ⟨hdir, hc⟩
  · obtain rfl := mem_singleton.mp hr
    exact ⟨region_zero, rfl⟩
  · have hin := hc.range r hr
    exact ⟨region_of_inRange hin, by simp [Fs.regionSectors, hin.ne_zero, hdir]⟩

theorem Area.ne_nil (h : Area fs f dir bl) : bl ≠ [] := by
  rcases h with ⟨-, rfl⟩ | ⟨hdir, hc⟩
  · simp
  · exact hc.ne_nil hdir

theorem Area.nodup (hg : Geometry fs) (h : Area fs f dir bl) : bl.Nodup := by
  rcases h with ⟨-, rfl⟩ | ⟨-, hc⟩
  · exact nodup_singleton 0
  · exact hc.nodup hg

theorem Area.congr {f' : ℕ → ℕ} (h : Area fs f dir bl) (hf : ∀ x ∈ bl, f' x = f x) :
    Area fs f' dir bl := by
  rcases h with h | ⟨hdir, hc⟩
  · exact Or.inl h
  · exact Or.inr ⟨hdir, hc.congr hf⟩

theorem Area.used (h : Area fs f dir bl) {x : ℕ} (hx : x ∈ bl) (hr : fs.InRange x) : f x ≠ 0 := by
  obtain ⟨-, rfl⟩ | ⟨-, hc⟩ := h
  · rw [mem_singleton] at hx
    subst hx
    exact absurd hr.1 (by decide)
  · exact hc.used hx

theorem regionSectors_pos (hg : Geometry fs) (r : ℕ) : 0 < fs.regionSectors r := by
  have h1 := hg.rootSectors
  have h2 := hg.spc_pos
  unfold Fs.regionSectors
  split <;> omega

theorem area_bytes (n : ℕ) : n * fs.regionBytes dir = n * fs.regionSectors dir * 512 := by
  rw [Fs.regionBytes, mul_assoc]

theorem slots_length (v : View) (fs : Fs) (dir : ℕ) (bl : List ℕ) :
    (v.slots fs dir bl).length = bl.length * fs.regionSectors dir * 16 := by
  rw [View.slots, length_map, length_range, area_bytes]
  omega

theorem slots_getElem (v : View) {k : ℕ} (hk : k < (v.slots fs dir bl).length) (j : Fin 32) :
    (v.slots fs dir bl)[k] j = flat v.dat (fs.regionBytes dir) bl (32 * k + j) := by
  have hslot : (v.slots fs dir bl)[k] =
      fun j : Fin 32 => flat v.dat (fs.regionBytes dir) bl (32 * k + j) := by
    simp [View.slots]
  rw [hslot]

theorem slots_congr {v v' : View} (h : ∀ r ∈ bl, v'.dat r = v.dat r) :
    v'.slots fs dir bl = v.slots fs dir bl := by
  apply ext_getElem
  · rw [slots_length, slots_length]
  intro k h1 h2
  funext j
  rw [slots_getElem, slots_getElem]
  apply flat_congr h
  rw [slots_length] at h1
  rw [area_bytes]
  omega

end

section

variable {fs : Fs} (hg : Geometry fs) (d : Disk) {dir : ℕ} {bl : List ℕ}
  (h : Area fs (view fs d).fat dir bl)
include hg h

theorem dirTotalBytes_eq : dirTotalBytes fs dir d = bl.length * fs.regionBytes dir := by
  unfold dirTotalBytes
  rcases h with ⟨rfl, rfl⟩ | ⟨hdir, hc⟩
  · simp [Fs.regionBytes, Fs.regionSectors]
  · simp only [hdir, if_false, chainLen_eq hg d hc (hc.ne_nil hdir), Fs.regionBytes,
      Fs.regionSectors, mul_assoc]

theorem dirSector_eq {idx : ℕ} (hidx : idx / fs.regionSectors dir < bl.length) :
    dirSector fs dir idx d = some (fs.regionStart (bl.get ⟨idx / fs.regionSectors dir, hidx⟩) +
      idx % fs.regionSectors dir) := by
  unfold dirSector
  rcases h with ⟨rfl, rfl⟩ | ⟨hdir, hc⟩
  · have hsec : fs.regionSectors 0 = 32 := by simp [Fs.regionSectors, hg.rootSectors]
    have hlt : idx < 32 := by
      simp only [hsec, length_singleton] at hidx
      omega
    have hmod : idx % 32 = idx := Nat.mod_eq_of_lt hlt
    simp [Fs.regionStart, hsec, hmod]
  · have hsec : fs.regionSectors dir = fs.spc := by simp [Fs.regionSectors, hdir]
    have hin := hc.range _ (get_mem bl ⟨idx / fs.regionSectors dir, hidx⟩)
    simp only [hdir, if_false]
    rw [regionStart_cluster hg hin]
    simp only [hsec] at hidx ⊢
    rw [chainAt_eq hg d hc hidx]

/-- The place of slot `k`: a sector of one of the regions, and an offset in it. -/
theorem slot_place {k : ℕ} (hk : k < ((view fs d).slots fs dir bl).length) :
    ∃ (b : ℕ) (hb : b < bl.length) (s : ℕ), s < fs.regionSectors dir ∧
      dirSector fs dir (32 * k / 512) d = some (fs.regionStart (bl.get ⟨b, hb⟩) + s) ∧
      32 * k = b * fs.regionBytes dir + (s * 512 + 32 * k % 512) ∧ 32 * k % 512 + 32 ≤ 512 := by
  have hpos := regionSectors_pos hg dir
  rw [slots_length] at hk
  have hb : 32 * k / 512 / fs.regionSectors dir < bl.length := by
    apply Nat.div_lt_of_lt_mul
    have hcomm := mul_comm (fs.regionSectors dir) bl.length
    omega
  refine ⟨_, hb, _, Nat.mod_lt _ hpos, dirSector_eq hg d h hb, ?_, by omega⟩
  have hsplit := Nat.div_add_mod' (32 * k / 512) (fs.regionSectors dir)
  rw [Fs.regionBytes, ← mul_assoc]
  omega

theorem readSlot_eq {k : ℕ} (hk : k < ((view fs d).slots fs dir bl).length) :
    ∃ buf, dirReadSector fs dir (32 * k / 512) d = some buf ∧
      slotAt buf (32 * k % 512) = ((view fs d).slots fs dir bl)[k] := by
  obtain ⟨b, hb, s, hs, hsec, hplace, hoff⟩ := slot_place hg d h hk
  refine ⟨_, by rw [dirReadSector, hsec, bind_some, devRead_eq hg], ?_⟩
  obtain ⟨hreg, hsecs⟩ := h.region (get_mem bl ⟨b, hb⟩)
  funext j
  have hbytes : s * 512 + 512 ≤ fs.regionBytes dir := Blocks.block_le hs 512
  rw [slots_getElem, slotAt, sector_dat d hreg (by rw [hsecs]; exact hs) (by omega)]
  have hsum : 32 * k + j = b * fs.regionBytes dir + (s * 512 + (32 * k % 512 + j)) := by omega
  rw [hsum, flat_at hb (by omega)]

/-- An edit changes one slot of the directory and nothing else on the volume. -/
theorem editSlot_ends {k : ℕ} (hk : k < ((view fs d).slots fs dir bl).length) (g : Slot → Slot) :
    (editSlot fs dir (32 * k) g).Ends d
      (fun _ d' => Within (view fs d) (view fs d') bl ∧ (view fs d').slots fs dir bl =
        ((view fs d).slots fs dir bl).set k (g ((view fs d).slots fs dir bl)[k]))
      fun _ => False := by
  obtain ⟨b, hb, s, hs, hsec, hplace, hoff⟩ := slot_place hg d h hk
  obtain ⟨buf, hread, hslot⟩ := readSlot_eq hg d h hk
  obtain ⟨hreg, hsecs⟩ := h.region (get_mem bl ⟨b, hb⟩)
  have hbytes : s * 512 + 512 ≤ fs.regionBytes dir := Blocks.block_le hs 512
  have hbuf : buf = d (fs.lba (fs.regionStart (bl.get ⟨b, hb⟩) + s)) := by
    rw [dirReadSector, hsec, bind_some, devRead_eq hg] at hread
    exact (some.inj hread).symm
  simp only [editSlot, dirWriteSector, Act.ends_bind, Act.ends_query_some hread,
    Act.ends_query_some hsec]
  apply devWrite_ends hg
  -- The sector written back, as bytes of the new slot inside the old sector.
  obtain ⟨src, hsrc⟩ : ∃ src : Buf, src = fun i =>
      if hi : i < 32 then g (slotAt buf (32 * k % 512)) ⟨i, hi⟩ else 0 := ⟨_, rfl⟩
  have hput : ∀ j, j < 512 → putSlot buf (32 * k % 512) (g (slotAt buf (32 * k % 512))) j =
      if 32 * k % 512 ≤ j ∧ j < 32 * k % 512 + 32 then src (j - 32 * k % 512)
      else d (fs.lba (fs.regionStart (bl.get ⟨b, hb⟩) + s)) j := by
    intro j _
    unfold putSlot
    split
    · rename_i hj
      have hlt : j - 32 * k % 512 < 32 := by omega
      simp only [hsrc, hlt, dif_pos]
    · rw [hbuf]
  rw [view_edit_region hg d hreg (by rw [hsecs]; exact hs) hoff src hput]
  have hst := patch_stored (v := view fs d) (h.nodup hg) hb
    (show s * 512 + 32 * k % 512 + 32 ≤ fs.regionBytes dir by omega) src
  rw [← hplace] at hst
  refine ⟨hst.within, ?_⟩
  apply ext_getElem
  · rw [length_set, slots_length, slots_length]
  intro m h1 h2
  have hm : 32 * m + 32 ≤ bl.length * fs.regionBytes dir := by
    rw [slots_length] at h1
    rw [area_bytes]
    omega
  funext j
  have hj := j.isLt
  rw [slots_getElem, hst.byte _ (by omega), getElem_set]
  by_cases hmk : k = m
  · subst hmk
    rw [← hslot, hsrc]
    simp
  · have hout : ¬ (32 * k ≤ 32 * m + j ∧ 32 * m + j < 32 * k + 32) := by omega
    rw [if_neg hmk, if_neg hout, slots_getElem]

end

end Vnu.Fat16
