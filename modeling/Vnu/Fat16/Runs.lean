import Vnu.Fat16.Calls
import Vnu.Fat16.Mounting

/-!
Runs of a volume: it is formatted and mounted, and then calls are made on its live directories.
-/
namespace Vnu.Fat16

open Lib

/-- The root, and what a directory entry of a live directory points to. -/
inductive LiveDir (fs : Fs) (d : Disk) : ℕ → Prop
  | root : LiveDir fs d 0
  | entry {q : ℕ} {ev : Entry} (h : LiveDir fs d q) (hev : ev ∈ entries fs q d)
      (hvol : ev.isVolume = false) (hdir : ev.isDir = true) : LiveDir fs d ev.cluster

inductive Layout.Rooted (L : Layout) : ℕ → Prop
  | root : L.Rooted 0
  | sub {q : ℕ} {ev : Entry} (h : L.Rooted q) (hev : ev ∈ L.kids q) (hdir : ev.isDir = true) :
      L.Rooted ev.cluster

section

variable {fs : Fs} {v : View} {L : Layout} {q : ℕ}

theorem Holds.rooted_mem (h : Holds fs v L) (hq : L.Rooted q) : q ∈ L.dirs := by
  induction hq with
  | root => exact h.root
  | sub _ hev hdir ih => exact ((h.dir _ ih).sub _ hev hdir).1

theorem Holds.rooted_parent (h : Holds fs v L) (hq : L.Rooted q) (hne : q ≠ 0) :
    L.Rooted (L.parent q).1 := by
  cases hq with
  | root => exact absurd rfl hne
  | sub hq hev hdir =>
    rw [((h.dir _ (h.rooted_mem hq)).sub _ hev hdir).2.2.2]
    exact hq

theorem Holds.dir_inRange (h : Holds fs v L) (hq : q ∈ L.dirs) (hne : q ≠ 0) : fs.InRange q := by
  rcases (h.dir q hq).area with ⟨h0, -⟩ | ⟨-, hchain⟩
  · exact absurd h0 hne
  · exact hchain.range q (hchain.first_mem hne)

theorem Geometry.mod_dir (hg : Geometry fs) (h : Holds fs v L) (hq : q ∈ L.dirs) :
    q % 65536 = q := by
  by_cases hne : q = 0
  · rw [hne]
  · have hle := (h.dir_inRange hq hne).2
    have hmax := hg.max_le
    omega

end

section

variable {fs : Fs} (hg : Geometry fs) {d : Disk} {L : Layout} (h : Holds fs (view fs d) L) {q : ℕ}

include hg h

/-- The entry `..` of a live directory leads back to a live one. -/
theorem Holds.liveDir_rooted (hq : LiveDir fs d q) : L.Rooted q := by
  induction hq with
  | root => exact .root
  | entry _ hev hvol hdir ih =>
    have hmem := h.rooted_mem ih
    rw [h.entries_eq hg hmem] at hev
    rcases (h.dir _ hmem).entry_cases hev hvol with hkid | ⟨hne, rfl | rfl⟩
    · exact .sub ih hkid hdir
    · rw [dotGroup_entry]
      simp only [hg.mod_dir h hmem]
      exact ih
    · have hup := h.rooted_parent ih hne
      rw [dotdotGroup_entry]
      simp only [hg.mod_dir h (h.rooted_mem hup)]
      exact hup

theorem Holds.rooted_liveDir (hq : L.Rooted q) : LiveDir fs d q := by
  induction hq with
  | root => exact .root
  | sub hq hev hdir ih =>
    have hmem := (Layout.mem_kids.mp hev).1
    have hvol := (Layout.mem_kids.mp hev).2
    rw [← h.entries_eq hg (h.rooted_mem hq)] at hmem
    simp only [isKid, Bool.and_eq_true, Bool.not_eq_true'] at hvol
    exact .entry ih hmem hvol.1 hdir

theorem Holds.liveDir_mem (hq : LiveDir fs d q) : q ∈ L.dirs :=
  h.rooted_mem (h.liveDir_rooted hg hq)

end

/-- A condition on single calls. A `write` to a missing name is a `create` and then a `write`. -/
def Op.Meets (C : Fs → Disk → ℕ → Op → Prop) (fs : Fs) (d : Disk) (q : ℕ) : Op → Prop
  | .write name off buf =>
    if findEntry fs q name d = none then
      C fs d q (.create name) ∧ C fs (Fat16.create fs q name d).2 q (.write name off buf)
    else C fs d q (.write name off buf)
  | op => C fs d q op

/-- The states of a volume on a device that never fails, when every call meets `C`. -/
inductive Reachable (C : Fs → Disk → ℕ → Op → Prop) (fs : Fs) : Disk → Prop
  | start {dev : Device} {partLba partSectors volumeId : ℕ} {oem label : List UInt8} {d d' : Disk}
      (hdev : dev.Reliable) (hsize : partSectors < 2 ^ 32)
      (hformat : format dev partLba partSectors oem label volumeId d = (some (), d'))
      (hmount : mount dev partLba d' = some fs) : Reachable C fs d'
  | step {d : Disk} {q : ℕ} {op : Op} (h : Reachable C fs d) (hq : LiveDir fs d q)
      (hfits : op.Fits) (hmeets : op.Meets C fs d q) : Reachable C fs (op.run fs q d).2

structure Invariant (C : Fs → Disk → ℕ → Op → Prop) (fs : Fs) (Inv : Layout → Prop) : Prop where
  proper : ∀ {d q op}, C fs d q op → op.Proper q
  fresh : ∀ label, Inv (freshLayout label)
  change : ∀ {d L q op L'}, Holds fs (view fs d) L → q ∈ L.dirs → Inv L → op.Fits →
    C fs d q op → Change fs d L q op L' → Inv L'

section

variable {C : Fs → Disk → ℕ → Op → Prop} {fs : Fs} {Inv : Layout → Prop}

theorem Invariant.changed (hI : Invariant C fs Inv) {d d' : Disk} {L : Layout} {q : ℕ} {op : Op}
    (h : Holds fs (view fs d) L) (hq : q ∈ L.dirs) (hL : Inv L) (hfits : op.Fits)
    (hC : C fs d q op) (hd' : Changed fs d L q op d') :
    ∃ L', Holds fs (view fs d') L' ∧ Inv L' := by
  obtain ⟨L', hL', hc⟩ := hd'
  exact ⟨L', hL', hI.change h hq hL hfits hC hc⟩

theorem Invariant.ends (hI : Invariant C fs Inv) {α : Type} {x : Act Disk α} {d : Disk}
    {L : Layout} {q : ℕ} {op : Op} (h : Holds fs (view fs d) L) (hq : q ∈ L.dirs) (hL : Inv L)
    (hfits : op.Fits) (hC : C fs d q op)
    (hx : x.Ends d (fun _ d' => Changed fs d L q op d') (Changed fs d L q op)) :
    x.Ends d (fun _ d' => ∃ L', Holds fs (view fs d') L' ∧ Inv L')
      fun d' => ∃ L', Holds fs (view fs d') L' ∧ Inv L' :=
  hx.mono (fun _ _ => hI.changed h hq hL hfits hC) fun _ => hI.changed h hq hL hfits hC

theorem Op.run_write (fs : Fs) (q : ℕ) (name : List UInt8) (off : ℕ) (buf : List UInt8)
    (d : Disk) : (Op.run fs q (.write name off buf) d).2 = (Fat16.write fs q name off buf d).2 := by
  simp only [Op.run, bind, pure]
  split <;> simp_all

theorem dirs_of_create {d : Disk} {L L' : Layout} {q : ℕ} {name : List UInt8}
    (h : Change fs d L q (.create name) L') : L'.dirs = L.dirs := by
  cases h <;> rfl

/-- A `write` to a missing name is taken as the two calls that it is. -/
theorem Invariant.step (hI : Invariant C fs Inv) (hg : Geometry fs) {d : Disk} {L : Layout}
    {q : ℕ} {op : Op} (h : Holds fs (view fs d) L) (hq : q ∈ L.dirs) (hL : Inv L)
    (hfits : op.Fits) (hmeets : op.Meets C fs d q) :
    ∃ L', Holds fs (view fs (op.run fs q d).2) L' ∧ Inv L' := by
  cases op with
  | create name =>
    exact (hI.ends h hq hL hfits hmeets (create_changed hg h hq name)).final
  | write name off buf =>
    rw [Op.run_write]
    apply Act.Ends.final (P := fun d' => ∃ L', Holds fs (view fs d') L' ∧ Inv L')
    cases hfind : findEntry fs q name d with
    | none =>
      simp only [Op.Meets, hfind] at hmeets
      have hnew : (Op.create name).Fits := trivial
      apply write_missing_ends hfind
      refine ((create_changed hg h hq name).and Act.ends_self).mono ?_ ?_
      · rintro _ d₁ ⟨⟨L₁, hL₁, hc⟩, heq⟩
        have hI₁ : Inv L₁ := hI.change h hq hL hnew hmeets.1 hc
        have hq₁ : q ∈ L₁.dirs := (dirs_of_create hc).symm ▸ hq
        rw [heq] at hmeets
        refine ⟨fun _ => ⟨L₁, hL₁, hI₁⟩, fun ev hev => ?_⟩
        exact hI.ends hL₁ hq₁ hI₁ hfits hmeets.2 (write_changed hg hL₁ hq₁ hev hfits.2)
      · rintro d₁ ⟨hd₁, -⟩
        exact hI.changed h hq hL hnew hmeets.1 hd₁
    | some ev =>
      simp only [Op.Meets, hfind] at hmeets
      exact hI.ends h hq hL hfits hmeets (write_changed hg h hq hfind hfits.2)
  | truncate name size =>
    exact (hI.ends h hq hL hfits hmeets (truncate_changed hg h hq hfits)).final
  | unlink name =>
    exact (hI.ends h hq hL hfits hmeets (unlink_changed hg h hq name)).final
  | mkdir name =>
    exact (hI.ends h hq hL hfits hmeets (mkdir_changed hg h hq name)).final
  | rmdir name =>
    exact (hI.ends h hq hL hfits hmeets (rmdir_changed hg h hq (hI.proper hmeets))).final

theorem Reachable.geometry {d : Disk} (h : Reachable C fs d) : Geometry fs := by
  induction h with
  | start hdev hsize hformat hmount => exact (mounted_fresh hdev hsize hformat hmount).1
  | step _ _ _ _ ih => exact ih

theorem Reachable.holds (hI : Invariant C fs Inv) {d : Disk} (h : Reachable C fs d) :
    ∃ L, Holds fs (view fs d) L ∧ Inv L := by
  have hg := h.geometry
  induction h with
  | start hdev hsize hformat hmount =>
    exact ⟨_, (mounted_fresh hdev hsize hformat hmount).2, hI.fresh _⟩
  | step h hq hfits hmeets ih =>
    obtain ⟨L, hL, hInv⟩ := ih
    exact hI.step hg hL (hL.liveDir_mem hg hq) hInv hfits hmeets

end

theorem sample_reachable (C : Fs → Disk → ℕ → Op → Prop) : Reachable C sampleFs sampleDisk :=
  .start Device.perfect_reliable (by omega) sample_format sample_mount

theorem sample_holds :
    Geometry sampleFs ∧ Holds sampleFs (view sampleFs sampleDisk) (freshLayout []) :=
  mounted_fresh Device.perfect_reliable (by omega) sample_format sample_mount

end Vnu.Fat16
