import Vnu.Fat16.Sizing
import Vnu.Fat16.Subdirs

/-!
What `format` leaves on the device, and the empty volume it amounts to.
-/
namespace Vnu.Fat16

open Lib Lib.Ownership List Function Act Nat

def reservedHead (b : Buf) : Buf := wr16 (wr16 b 0 0xFFF8) 2 0xFFFF

structure Formatted (fs : Fs) (boot : Buf) (label : List UInt8) (d : Disk) : Prop where
  boot : d (fs.lba 0) = boot
  fat : ∀ k < fs.fatsz, d (fs.lba (fs.firstFat + k)) =
    if k = 0 then reservedHead fun _ => 0 else fun _ => 0
  root : ∀ k < 32, d (fs.lba (fs.firstRoot + k)) =
    if k = 0 then putSlot (fun _ => 0) 0 (labelSlot label) else fun _ => 0

section

variable {fs : Fs} (d : Disk)

theorem devWrite_sector {rel : ℕ} (hrel : rel < 2 ^ 32) (buf : Buf) :
    (devWrite fs rel buf).Ends d
      (fun _ d' => ∀ x < 2 ^ 32, d' (fs.lba x) = if x = rel then buf else d (fs.lba x))
      fun _ => ¬ fs.dev.Reliable := by
  by_cases hok : fs.dev.writeOk (fs.lba rel) = true
  · refine Ends.of_eq_some (by simp only [devWrite, hok]; rfl) ?_
    intro x hx
    by_cases heq : x = rel
    · rw [heq, if_pos rfl, update_self]
    · rw [if_neg heq, update_of_ne fun h => heq (lba_inj hx hrel h)]
  · simp only [Ends, devWrite, hok]
    exact fun hdev => hok (hdev _).2

theorem zeroSectors_sector (count rel : ℕ) (hrel : rel + count ≤ 2 ^ 32) :
    (zeroSectors fs rel count).Ends d
      (fun _ d' => ∀ x < 2 ^ 32, d' (fs.lba x) =
        if rel ≤ x ∧ x < rel + count then fun _ => 0 else d (fs.lba x))
      fun _ => ¬ fs.dev.Reliable := by
  induction count generalizing d rel with
  | zero =>
    intro x _
    rw [if_neg (by omega)]
  | succ count ih =>
    simp only [zeroSectors, ends_bind]
    refine (devWrite_sector d (by omega) _).mono ?_ fun _ h => h
    intro _ d₁ h₁
    refine (ih d₁ (rel + 1) (by omega)).mono ?_ fun _ h => h
    intro _ d₂ h₂ x hx
    rw [h₂ x hx, h₁ x hx]
    split_ifs <;> first | rfl | omega

theorem query_devRead_sector {α : Type} {rel : ℕ} {f : Buf → Act Disk α}
    {Q : α → Disk → Prop} (h : (f (d (fs.lba rel))).Ends d Q fun _ => ¬ fs.dev.Reliable) :
    (query (devRead fs rel) >>= f).Ends d Q fun _ => ¬ fs.dev.Reliable := by
  rw [ends_bind]
  by_cases hok : fs.dev.readOk (fs.lba rel) = true
  · have hread : devRead fs rel d = some (d (fs.lba rel)) := by simp only [devRead, hok, if_true]
    rw [ends_query_some hread]
    exact h
  · have hread : devRead fs rel d = none := by simp only [devRead, hok]; rfl
    rw [ends_query_none hread]
    exact fun hdev => hok (hdev _).1

theorem reserveLoop_sector (hpos : 1 ≤ fs.fatsz) (hlt : fs.firstFat + fs.fatsz < 2 ^ 32) :
    (reserveLoop fs 2 0).Ends d
      (fun _ d' => ∀ x < 2 ^ 32, d' (fs.lba x) =
        if x = fs.firstFat ∨ x = fs.firstFat + fs.fatsz then reservedHead (d (fs.lba x))
        else d (fs.lba x))
      fun _ => ¬ fs.dev.Reliable := by
  simp only [reserveLoop, zero_add, one_mul]
  apply query_devRead_sector
  rw [ends_bind]
  refine (devWrite_sector d (by omega) _).mono ?_ fun _ h => h
  intro _ d₁ h₁
  apply query_devRead_sector
  rw [ends_bind]
  refine (devWrite_sector d₁ hlt _).mono ?_ fun _ h => h
  intro _ d₂ h₂ x hx
  grind [reservedHead]

theorem writeLabel_sector (hlt : fs.firstRoot < 2 ^ 32) (e : Slot) :
    (writeEntryAt fs 0 0 e).Ends d
      (fun _ d' => ∀ x < 2 ^ 32, d' (fs.lba x) =
        if x = fs.firstRoot then putSlot (d (fs.lba x)) 0 e else d (fs.lba x))
      fun _ => ¬ fs.dev.Reliable := by
  have hread : dirReadSector fs 0 (0 / 512) = devRead fs fs.firstRoot := rfl
  rw [writeEntryAt, editSlot, hread]
  apply query_devRead_sector
  refine (devWrite_sector d hlt _).mono ?_ fun _ h => h
  intro _ d' h x hx
  rw [h x hx]
  split_ifs with heq
  · rw [heq]
  · rfl

end

/-- What `format` leaves on the device, sector by sector. -/
theorem format_ends {dev : Device} {partLba partSectors : ℕ} {fs : Fs}
    (h : formatFs dev partLba partSectors = some fs) (hsize : partSectors < 2 ^ 32)
    (oem label : List UInt8) (volumeId : ℕ) (d : Disk) :
    (format dev partLba partSectors oem label volumeId).Ends d
      (fun _ d' => Formatted fs (bootSector fs oem label volumeId) label d')
      fun _ => ¬ dev.Reliable := by
  have hfs := formatFs_fresh h
  have hdev : fs.dev = dev := by rw [hfs.eq]; rfl
  have hfat : fs.firstFat = 1 := by rw [hfs.eq]; rfl
  have hroot : fs.firstRoot = 1 + 2 * fs.fatsz := by rw [hfs.eq]; rfl
  have hsectors : fs.rootDirSectors = 32 := by rw [hfs.eq]; rfl
  have hpos := hfs.fatsz_pos
  have hdata := hfs.data
  subst hdev
  simp only [format, h, ends_bind]
  refine (devWrite_sector d (by omega) _).mono ?_ fun _ h => h
  intro _ d₁ h₁
  refine (zeroSectors_sector d₁ _ _ (by omega)).mono ?_ fun _ h => h
  intro _ d₂ h₂
  refine (zeroSectors_sector d₂ _ _ (by omega)).mono ?_ fun _ h => h
  intro _ d₃ h₃
  refine (reserveLoop_sector d₃ hpos (by omega)).mono ?_ fun _ h => h
  intro _ d₄ h₄
  refine (zeroSectors_sector d₄ _ _ (by omega)).mono ?_ fun _ h => h
  intro _ d₅ h₅
  refine (writeLabel_sector d₅ (by omega) _).mono ?_ fun _ h => h
  intro _ d₆ h₆
  refine ⟨?_, ?_, ?_⟩
  · grind
  · intro k hk
    have hx : fs.firstFat + k < 2 ^ 32 := by omega
    have e₆ := (h₆ _ hx).trans (if_neg (by omega))
    have e₅ := (h₅ _ hx).trans (if_neg (by omega))
    have e₃ := (h₃ _ hx).trans (if_neg (by omega))
    have e₂ := (h₂ _ hx).trans (if_pos (by omega))
    rw [e₆, e₅, h₄ _ hx, e₃, e₂]
    by_cases hk0 : k = 0
    · rw [if_pos hk0, if_pos (by omega)]
    · rw [if_neg hk0, if_neg (by omega)]
  · intro k hk
    have hx : fs.firstRoot + k < 2 ^ 32 := by omega
    have e₅ := (h₅ _ hx).trans (if_pos (by omega))
    rw [h₆ _ hx, e₅]
    by_cases hk0 : k = 0
    · rw [if_pos hk0, if_pos (by omega)]
    · rw [if_neg hk0, if_neg (by omega)]

def labelItems (label : List UInt8) : List Item :=
  if h0 : labelSlot label 0 = 0 then []
  else if h5 : labelSlot label 0 = 0xE5 then [.dead (labelSlot label) h5]
  else [.live (Group.bare (labelSlot label) ⟨h0, h5⟩
    (show attrVolume &&& 0x3F ≠ 0x0F by decide))]

def freshLayout (label : List UInt8) : Layout where
  dirs := {0}
  parent _ := (0, 0)
  items q := if q = 0 then labelItems label else []
  regions o := if o = .dir 0 then [0] else []
  data _ := []
  lost := ∅

theorem labelItems_volume {label : List UInt8} {ev : Entry}
    (h : ev ∈ entriesAt 0 (labelItems label)) : ev.isVolume = true := by
  simp only [labelItems] at h
  split_ifs at h
  · simp [entriesAt] at h
  · simp [entriesAt] at h
  · simp only [entriesAt, mem_singleton] at h
    rw [h]
    show (attrVolume &&& 0x3F) &&& attrVolume != 0
    decide

theorem freshLayout_kids (label : List UInt8) (q : ℕ) : (freshLayout label).kids q = [] := by
  apply filter_eq_nil_iff.mpr
  intro ev hev
  by_cases hq : q = 0
  · rw [Layout.entries, freshLayout] at hev
    have hvol := labelItems_volume (by simpa [hq] using hev)
    simp [isKid, hvol]
  · simp [Layout.entries, freshLayout, hq, entriesAt] at hev

section

variable {fs : Fs} {boot : Buf} {label : List UInt8} {d : Disk}

theorem Formatted.fat_eq (h : Formatted fs boot label d) (hg : Geometry fs) {c : ℕ}
    (hc : c ≤ fs.maxCluster) :
    (view fs d).fat c = if c = 0 then 0xFFF8 else if c = 1 then 0xFFFF else 0 := by
  have hk : c * 2 / 512 < fs.fatsz := by have := hg.table; omega
  simp only [view, hc, if_true, h.fat _ hk]
  have hzero : ∀ i, rd16 (fun _ => 0) i = 0 := fun _ => rfl
  by_cases h0 : c = 0
  · subst h0
    decide
  by_cases h1 : c = 1
  · subst h1
    decide
  split_ifs with hs
  · rw [reservedHead, rd16_wr16_of_ne (by omega) (by omega) (by omega),
      rd16_wr16_of_ne (by omega) (by omega) (by omega), hzero]
  · exact hzero _

theorem Formatted.slots_eq (h : Formatted fs boot label d) (hg : Geometry fs) :
    (view fs d).slots fs 0 [0] = labelSlot label :: replicate 511 fun _ => 0 := by
  have hb := regionBytes_zero hg
  have hlen : ((view fs d).slots fs 0 [0]).length = 512 := by
    rw [slots_length, Fs.regionSectors, if_pos rfl, hg.rootSectors, length_singleton]
  apply ext_getElem
  · rw [hlen, length_cons, length_replicate]
  intro k hk _
  funext j
  have hsec : (32 * k + j.val) / 512 < 32 := by omega
  have hdat : (view fs d).dat 0 (32 * k + j.val) =
      d (fs.lba (fs.firstRoot + (32 * k + j.val) / 512)) ((32 * k + j.val) % 512) :=
    if_pos ⟨region_zero, by omega⟩
  rw [slots_getElem, flat_singleton (by omega), hdat, h.root _ hsec]
  cases k with
  | zero =>
    rw [if_pos (by omega), putSlot, dif_pos (by omega)]
    congr 1
    ext
    simp only []
    omega
  | succ k =>
    rw [getElem_cons_succ, getElem_replicate]
    split_ifs
    · rw [putSlot, dif_neg (by omega)]
    · rfl

theorem Formatted.root_slots (h : Formatted fs boot label d) (hg : Geometry fs) :
    ∃ tail, (view fs d).slots fs 0 [0] = itemSlots (labelItems label) ++ tail ∧ Ended tail := by
  rw [h.slots_eq hg, labelItems]
  split_ifs with h0 h5
  · refine ⟨_, rfl, ?_⟩
    intro e he
    rw [← Option.some.inj he]
    exact h0
  all_goals exact ⟨replicate 511 fun _ => 0, rfl, ended_of_zero fun e => eq_of_mem_replicate⟩

/-- A volume that was just formatted has the layout with nothing but its label. -/
theorem Formatted.holds (h : Formatted fs boot label d) (hg : Geometry fs) :
    Holds fs (view fs d) (freshLayout label) := by
  have hkids := freshLayout_kids label
  have hregion : ∀ o x, x ∈ (freshLayout label).regions o → o = .dir 0 ∧ x = 0 := by
    intro o x hx
    simp only [freshLayout] at hx
    split_ifs at hx with ho
    · exact ⟨ho, mem_singleton.mp hx⟩
    · simp at hx
  refine ⟨?_, rfl, ?_, ?_, ?_, ?_, ?_, ?_⟩
  · rw [h.fat_eq hg (by omega), if_pos rfl]
  · rintro q rfl
    refine ⟨Or.inl ⟨rfl, rfl⟩, h.root_slots hg, fun hne => absurd rfl hne, ?_, ?_⟩
    · intro ev hev
      simp [hkids] at hev
    · intro ev hev
      simp [hkids] at hev
  · intro q pos
    simp [freshLayout, View.bytes]
  · intro o ho
    obtain ⟨x, hx⟩ := exists_mem_of_ne_nil _ ho
    rw [(hregion o x hx).1]
    exact rfl
  · intro a a' x hx hx'
    rw [(hregion a x hx).1, (hregion a' x hx').1]
  · intro x hx
    have hfree : (view fs d).fat x = 0 := by
      rw [h.fat_eq hg hx.2, if_neg (by have := hx.1; omega), if_neg (by have := hx.1; omega)]
    constructor
    · intro hne
      exact absurd hfree hne
    rintro (hlost | ⟨o, ho⟩)
    · exact hlost.elim
    · have := (hregion o x ho).2
      have := hx.1
      omega
  · intro x hx
    exact hx.elim

end

section

variable {dev : Device} {partLba partSectors volumeId : ℕ} {oem label : List UInt8} {d d' : Disk}

theorem formatFs_of_format
    (h : format dev partLba partSectors oem label volumeId d = (some (), d')) :
    ∃ fs, formatFs dev partLba partSectors = some fs := by
  cases hfs : formatFs dev partLba partSectors with
  | none => simp [format, hfs, fail] at h
  | some fs => exact ⟨fs, rfl⟩

theorem mount_formatted {fs : Fs} (hfs : formatFs dev partLba partSectors = some fs)
    (hsize : partSectors < 2 ^ 32) (hread : dev.readOk (partLba % 2 ^ 32) = true)
    (h : Formatted fs (bootSector fs oem label volumeId) label d') :
    mount dev partLba d' = some fs := by
  have hfresh := formatFs_fresh hfs
  have hlba : fs.lba 0 = partLba % 2 ^ 32 := by rw [hfresh.eq]; rfl
  have hboot := h.boot
  rw [hlba] at hboot
  have hsector : devRead (blankFs dev partLba) 0 d' = some (bootSector fs oem label volumeId) := by
    simp only [devRead, blankFs, Fs.lba, add_zero, hread, if_true, hboot]
  rw [mount, hsector]
  exact bootFs_bootSector hfresh hsize oem label volumeId

theorem mounted_fresh {fs : Fs} (hdev : dev.Reliable) (hsize : partSectors < 2 ^ 32)
    (hformat : format dev partLba partSectors oem label volumeId d = (some (), d'))
    (hmount : mount dev partLba d' = some fs) :
    Geometry fs ∧ Holds fs (view fs d') (freshLayout label) := by
  obtain ⟨fs', hfs⟩ := formatFs_of_format hformat
  have hd := (format_ends hfs hsize oem label volumeId d).of_some hformat
  rw [mount_formatted hfs hsize (hdev _).1 hd, Option.some.injEq] at hmount
  subst hmount
  have hg := (formatFs_fresh hfs).geometry hdev hsize
  exact ⟨hg, hd.holds hg⟩

/-- Both loops of `format` end. On success mounting yields the geometry it chose, every cluster has
a table entry, and the clusters lie between the root and the end of the partition. -/
theorem mount_format (hsize : partSectors < 2 ^ 32) (hread : dev.readOk (partLba % 2 ^ 32) = true) :
    ¬ (60000 < partSectors / spcFor partSectors ∧ spcFor partSectors < 128) ∧
    (fatszLoop partSectors (spcFor partSectors) 2 1).isSome ∧
    ∀ d', format dev partLba partSectors oem label volumeId d = (some (), d') →
      ∃ fs, formatFs dev partLba partSectors = some fs ∧ mount dev partLba d' = some fs ∧
        (∀ c ≤ fs.maxCluster, c * 2 + 2 ≤ fs.fatsz * 512) ∧
        0 < fs.firstFat ∧ fs.firstFat + fs.numFats * fs.fatsz ≤ fs.firstRoot ∧
        ∀ c, fs.InRange c → ∀ k < fs.spc,
          fs.firstRoot + fs.rootDirSectors ≤ clusterToSector fs c + k ∧
            clusterToSector fs c + k < partSectors := by
  refine ⟨spcLoop_done partSectors (k := 0) (by omega), fatszLoop_isSome _ _ _, ?_⟩
  intro d' h
  obtain ⟨fs, hfs⟩ := formatFs_of_format h
  have hfresh := formatFs_fresh hfs
  refine ⟨fs, hfs, mount_formatted hfs hsize hread
    ((format_ends hfs hsize oem label volumeId d).of_some h), ?_, ?_, ?_, ?_⟩
  · intro c hc
    have htable := hfresh.table
    have hmax : fs.maxCluster = clustersWith partSectors fs.spc fs.fatsz + 1 := by
      rw [hfresh.eq]; rfl
    omega
  · rw [hfresh.eq]
    exact Nat.one_pos
  · rw [hfresh.eq]
    exact le_refl _
  · intro c hc k hk
    have hend : fs.firstRoot + fs.rootDirSectors = fs.firstData := by rw [hfresh.eq]; rfl
    have hsectors := hfresh.cluster_sectors hsize hc
    omega

end

def sampleFs : Fs := freshFs Device.perfect 0 8192 1 32

@[irreducible] def sampleDisk : Disk := (format Device.perfect 0 8192 [] [] 0 fun _ _ => 0).2

theorem sample_formatFs : formatFs Device.perfect 0 8192 = some sampleFs := rfl

theorem sample_format :
    format Device.perfect 0 8192 [] [] 0 (fun _ _ => 0) = (some (), sampleDisk) := by
  have hends := format_ends sample_formatFs (by omega) [] [] 0 fun _ _ => 0
  obtain ⟨_, d', heq, -⟩ :=
    (hends.mono (fun _ _ h => h) fun _ h => h Device.perfect_reliable).returns
  rw [sampleDisk, heq]

theorem sample_mount : mount Device.perfect 0 sampleDisk = some sampleFs :=
  mount_formatted sample_formatFs (by omega) rfl
    ((format_ends sample_formatFs (by omega) [] [] 0 _).of_some sample_format)

theorem mount_format_sample : ∃ fs, formatFs Device.perfect 0 8192 = some fs ∧
    mount Device.perfect 0 sampleDisk = some fs := by
  obtain ⟨-, -, hmount⟩ := mount_format (show 8192 < 2 ^ 32 by omega)
    (show Device.perfect.readOk (0 % 2 ^ 32) = true from rfl)
  obtain ⟨fs, hfs, hm, -⟩ := hmount sampleDisk sample_format
  exact ⟨fs, hfs, hm⟩

end Vnu.Fat16
