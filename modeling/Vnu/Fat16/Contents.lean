import Vnu.Fat16.Files

/-!
The contents of files. A size never exceeds the bytes of its chain, and in runs that do not overrun
32 bits the bytes behind the size are zero.
-/
namespace Vnu.Fat16

open Lib Lib.Overlay List Nat

variable {size : ℕ} {bs : List UInt8}

def Layout.Files (L : Layout) (Φ : ℕ → List UInt8 → Prop) : Prop :=
  ∀ q ∈ L.dirs, ∀ ev ∈ L.kids q, ev.isDir = false → Φ ev.size (L.data (.file q ev.pos))

def Sized (size : ℕ) (bs : List UInt8) : Prop := size ≤ bs.length

def Slack (size : ℕ) (bs : List UInt8) : Prop := ∀ b ∈ bs.drop size, b = 0

theorem Slack.append {size' : ℕ} (h : Slack size bs) (m : ℕ)
    (hle : size ≤ size') : Slack size' (bs ++ List.replicate m 0) := by
  intro b hb
  obtain ⟨k, rfl⟩ := Nat.exists_eq_add_of_le hle
  rw [← drop_drop, drop_append, ← drop_append] at hb
  have hmem := mem_of_mem_drop hb
  rw [drop_append, mem_append] at hmem
  rcases hmem with hmem | hmem
  · exact h b hmem
  · exact eq_of_mem_replicate (mem_of_mem_drop hmem)

theorem freshLayout_files (label : List UInt8) (Φ : ℕ → List UInt8 → Prop) :
    (freshLayout label).Files Φ := by
  intro q _ ev hev
  rw [freshLayout_kids] at hev
  cases hev

section

variable {fs : Fs} (hg : Geometry fs) {d : Disk} {L L' : Layout} {q : ℕ} {op : Op}
  (h : Holds fs (view fs d) L) (hq : q ∈ L.dirs)

include hg h

theorem Change.files {Φ : ℕ → List UInt8 → Prop} (hq : q ∈ L.dirs) (hfits : op.Fits)
    (hc : Change fs d L q op L') (hstep : ∀ size bs, FileStep fs d L q op size bs → Φ size bs) :
    L'.Files Φ := fun _ hq' _ hev hfile =>
  hstep _ _ (hc.file_cases hg h hq hfits hq' hev hfile)

theorem Holds.data_lt (hq : q ∈ L.dirs) {ev : Entry} (hev : ev ∈ L.kids q)
    (hfile : ev.isDir = false) : (L.data (.file q ev.pos)).length + fs.cb < 2 ^ 32 := by
  rw [h.data_length]
  exact ((h.dir q hq).file ev hev hfile).bytes_lt hg

include hq

theorem FileStep.sized (hL : L.Files Sized) (hgrow : ∀ name size, op = .truncate name size →
      ∀ ev, findEntry fs q name d = some ev → ev.size < size → size + fs.cb ≤ 2 ^ 32)
        (hs : FileStep fs d L q op size bs) : Sized size bs := by
  cases hs with
  | kept hq' hev hfile => exact hL _ hq' _ hev hfile
  | fresh => exact zero_le _
  | written hev hfile hroom =>
    have hsize : _ ≤ _ := hL q hq _ hev hfile
    rw [Sized, overlay_fill_length hroom]
    exact max_le (by rw [length_append]; omega) hroom
  | grown hfind hev hfile hlt hroom =>
    have hle := le_clustersFor hg (hgrow _ _ rfl _ hfind hlt)
    rw [Sized, length_append, length_replicate]
    omega
  | emptied hev hfile hlt hnone =>
    have hsize : _ ≤ _ := hL q hq _ hev hfile
    have hbound := h.data_lt hg hq hev hfile
    have hle := le_clustersFor hg (show size + fs.cb ≤ 2 ^ 32 by omega)
    rw [hnone, zero_mul] at hle
    exact hle
  | cut hev hfile hlt =>
    have hsize : _ ≤ _ := hL q hq _ hev hfile
    rw [Sized, length_append, length_take]
    omega
  | overrun hev hfile hend hlt hlen =>
    rw [Sized, hlen]
    exact hL q hq _ hev hfile
  | starved hev hfile =>
    have hsize : _ ≤ _ := hL q hq _ hev hfile
    rw [Sized, length_append]
    omega

omit hg h in
theorem FileStep.slack (hL : L.Files Sized) (hzero : L.Files Slack)
    (hover : ∀ name off buf, op = .write name off buf →
      ¬ (2 ^ 32 < off + buf.length + fs.cb ∧ off + buf.length < 2 ^ 32))
        (hs : FileStep fs d L q op size bs) : Slack size bs := by
  cases hs with
  | kept hq' hev hfile => exact hzero _ hq' _ hev hfile
  | fresh | emptied hev hfile hlt hnone =>
    intro b hb
    simp at hb
  | written hev hfile hroom =>
    rw [Slack, drop_overlay_fill hroom]
    exact (hzero q hq _ hev hfile).append _ (le_max_left _ _)
  | grown hfind hev hfile hlt hroom => exact (hzero q hq _ hev hfile).append _ (by omega)
  | cut hev hfile hlt =>
    have hsize : _ ≤ _ := hL q hq _ hev hfile
    intro b hb
    rw [drop_append_of_le_length (by rw [length_take]; omega), mem_append] at hb
    rcases hb with hb | hb
    · simp at hb
    · exact eq_of_mem_replicate hb
  | overrun hev hfile hend hlt hlen => exact absurd ⟨hend, hlt⟩ (hover _ _ _ rfl)
  | starved hev hfile => exact (hzero q hq _ hev hfile).append _ (le_refl _)

end

end Vnu.Fat16
