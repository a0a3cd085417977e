import Vnu.Fat16.LongNames
import Vnu.Fat16.Replace

/-!
Looking names up and creating files on a volume that holds a layout: an entry that is found is one
of the layout, or one of the two at the head of a subdirectory.
-/
namespace Vnu.Fat16

open Lib Act Option List

section

variable {a b : List UInt8} {ev : Entry}

theorem dotEntry_entry (rest : List UInt8) (cluster pos : ℕ) :
    (dotEntry rest cluster).entry pos =
      { pos := pos, cluster := cluster % 65536, size := 0, attr := attrDir
        sfn := (shortSlot ((0x2E :: rest).rightpad 11 0x20) attrDir 0 0 0).bytes 0 11
        name := buildSfnName (shortSlot ((0x2E :: rest).rightpad 11 0x20) attrDir 0 0 0)
        lfnPos := [] } := by
  -- Neither the name nor the short name depends on the cluster.
  have hname : buildSfnName (shortSlot ((0x2E :: rest).rightpad 11 0x20) attrDir 0 cluster 0) =
      buildSfnName (shortSlot ((0x2E :: rest).rightpad 11 0x20) attrDir 0 0 0) := rfl
  have hsfn : (shortSlot ((0x2E :: rest).rightpad 11 0x20) attrDir 0 cluster 0).bytes 0 11 =
      (shortSlot ((0x2E :: rest).rightpad 11 0x20) attrDir 0 0 0).bytes 0 11 := rfl
  have hattr : shortSlot ((0x2E :: rest).rightpad 11 0x20) attrDir 0 cluster 0 11 &&& 0x3F =
      attrDir := show attrDir &&& 0x3F = attrDir by decide
  simp only [dotEntry, Group.entry, Group.bare, shortEntry, shortSlot_cluster, shortSlot_size,
    hname, hsfn, hattr]
  simp [places]

theorem dotGroup_entry (cluster pos : ℕ) : (dotGroup cluster).entry pos =
    { pos := pos, cluster := cluster % 65536, size := 0, attr := attrDir
      sfn := [0x2E].rightpad 11 0x20, name := [0x2E], lfnPos := [] } := by
  have hname : buildSfnName (shortSlot ([0x2E].rightpad 11 0x20) attrDir 0 0 0) = [0x2E] := by
    decide
  have hsfn : (shortSlot ([0x2E].rightpad 11 0x20) attrDir 0 0 0).bytes 0 11 =
      [0x2E].rightpad 11 0x20 := by decide
  rw [dotGroup, dotEntry_entry, hname, hsfn]

theorem dotdotGroup_entry (cluster pos : ℕ) : (dotdotGroup cluster).entry pos =
    { pos := pos, cluster := cluster % 65536, size := 0, attr := attrDir
      sfn := [0x2E, 0x2E].rightpad 11 0x20, name := [0x2E, 0x2E], lfnPos := [] } := by
  have hname : buildSfnName (shortSlot ([0x2E, 0x2E].rightpad 11 0x20) attrDir 0 0 0) =
      [0x2E, 0x2E] := by decide
  have hsfn : (shortSlot ([0x2E, 0x2E].rightpad 11 0x20) attrDir 0 0 0).bytes 0 11 =
      [0x2E, 0x2E].rightpad 11 0x20 := by decide
  rw [dotdotGroup, dotEntry_entry, hname, hsfn]

theorem ciEqual_iff : ciEqual a b = true ↔ a.map upper = b.map upper := by
  induction a generalizing b with
  | nil => cases b <;> simp [ciEqual]
  | cons x a ih => cases b <;> simp [ciEqual, ih]

theorem eq_of_ciEqual_dots (ha : ∀ c ∈ a, c = 0x2E) (h : ciEqual a b = true) : b = a := by
  induction a generalizing b with
  | nil => cases b with
    | nil => rfl
    | cons y b => simp [ciEqual] at h
  | cons x a ih => cases b with
    | nil => simp [ciEqual] at h
    | cons y b =>
      rw [ciEqual, Bool.and_eq_true] at h
      have hx := ha x mem_cons_self
      have hy : y = x := by grind [upper, isLower]
      rw [hy, ih (fun c hc => ha c (mem_cons_of_mem _ hc)) h.2]

theorem isDots_of_ciEqual (ha : isDots a = true) (h : ciEqual a b = true) : isDots b = true := by
  have hdots : ∀ c ∈ a, c = 0x2E := by
    simp only [isDots, Bool.or_eq_true, beq_iff_eq] at ha
    obtain rfl | rfl := ha <;> simp
  rwa [eq_of_ciEqual_dots hdots h]

theorem DirOk.entry_cases {fs : Fs} {v : View} {L : Layout} {q : ℕ} (h : DirOk fs v L q)
    (hev : ev ∈ L.entries q) (hvol : ev.isVolume = false) :
    ev ∈ L.kids q ∨ (q ≠ 0 ∧ (ev = (dotGroup q).entry 0 ∨
      ev = (dotdotGroup (L.parent q).1).entry 32)) := by
  by_cases hq : q = 0
  · refine Or.inl (Layout.mem_kids.mpr ⟨hev, ?_⟩)
    simp [isKid, hvol, hq]
  obtain ⟨rest, hrest⟩ := h.dots hq
  have hev' := hev
  simp only [Layout.entries, hrest, entriesAt, mem_cons] at hev'
  obtain hdot | hdot | hrest := hev'
  · exact Or.inr ⟨hq, Or.inl hdot⟩
  · exact Or.inr ⟨hq, Or.inr hdot⟩
  · refine Or.inl (Layout.mem_kids.mpr ⟨hev, ?_⟩)
    have hpos : 64 ≤ ev.pos := entriesAt_pos_ge hrest
    simp [isKid, hvol, hpos]

section

variable {fs : Fs} (hg : Geometry fs) {d : Disk} {L : Layout} (h : Holds fs (view fs d) L) {q : ℕ}
  (hq : q ∈ L.dirs)
include hg h hq

theorem Holds.entries_eq : Fat16.entries fs q d = L.entries q := by
  obtain ⟨tail, hslots, htail⟩ := (h.dir q hq).slots
  rw [Fat16.entries_eq hg d (h.dir q hq).area, hslots, scanAll_items htail]
  rfl

theorem Holds.findEntry_eq (name : List UInt8) : findEntry fs q name d =
    (L.entries q).find? fun ev => !ev.isVolume && ciEqual ev.name name := by
  rw [Fat16.findEntry_eq, h.entries_eq hg hq]

theorem Holds.find_cases {name : List UInt8} (hfind : findEntry fs q name d = some ev) :
    ev ∈ L.kids q ∨ (q ≠ 0 ∧ ev.isDir = true ∧ isDots name = true ∧
      (ev = (dotGroup q).entry 0 ∨ ev = (dotdotGroup (L.parent q).1).entry 32)) := by
  rw [h.findEntry_eq hg hq] at hfind
  have hp := find?_some hfind
  simp only [Bool.and_eq_true, Bool.not_eq_true'] at hp
  obtain hkid | ⟨h0, hdots⟩ := (h.dir q hq).entry_cases (mem_of_find?_eq_some hfind) hp.1
  · exact Or.inl hkid
  refine Or.inr ⟨h0, ?_, ?_, hdots⟩
  · obtain rfl | rfl := hdots
    · rw [dotGroup_entry]
      exact show (attrDir &&& attrDir != 0) = true by decide
    · rw [dotdotGroup_entry]
      exact show (attrDir &&& attrDir != 0) = true by decide
  · refine isDots_of_ciEqual ?_ hp.2
    obtain rfl | rfl := hdots
    · rw [dotGroup_entry]
      rfl
    · rw [dotdotGroup_entry]
      rfl

end

end

theorem Layout.append_nil (L : Layout) (q : ℕ) : L.append q [] [] = L := by
  simp [Layout.append]

section

variable {fs : Fs} (hg : Geometry fs) {d : Disk} {L : Layout} (h : Holds fs (view fs d) L) {q : ℕ}
  (hq : q ∈ L.dirs)
include hg h hq

/-- Where an append fails the items are as they were, though there may be more regions. -/
theorem Holds.dirAppend_ends (es : List Slot) :
    (dirAppend fs q es).Ends d
      (fun _ d' => ∃ ext rest, Extended fs (view fs d) (view fs d') q (L.regions (.dir q)) ext ∧
        (view fs d').slots fs q (L.regions (.dir q) ++ ext) = itemSlots (L.items q) ++ es ++ rest ∧
        Ended rest)
      (fun d' => (∃ ext, Extended fs (view fs d) (view fs d') q (L.regions (.dir q)) ext ∧
        Holds fs (view fs d') (L.append q [] ext)) ∧
        (q = 0 → 512 < (itemSlots (L.items 0)).length + es.length) ∧
        (q = 0 ∨ (view fs d').Full fs)) := by
  have hdir := h.dir q hq
  obtain ⟨tail, hslots, htail⟩ := hdir.slots
  refine (Fat16.dirAppend_ends hg d hdir.area hslots (itemSlots_first _) htail).mono
    (fun _ _ hpost => hpost) ?_
  rintro d' ⟨ext, rest, hext, hs, hrest, hshort, hwhy⟩
  refine ⟨⟨ext, hext, ?_⟩, ?_, hwhy⟩
  · refine h.append hq hext (by rwa [append_nil]) hrest ?_ ?_
    · intro ev hev
      cases hev
    · intro ev hev
      cases hev
  · rintro rfl
    have hlen := congrArg length hslots
    rw [slots_length, h.root_region, length_append] at hlen
    simp only [length_singleton, Fs.regionSectors, if_true, hg.rootSectors] at hlen
    omega

/-- A `create` that fails has changed no entry. -/
theorem create_ends (name : List UInt8) :
    (create fs q name).Ends d
      (fun _ d' => findEntry fs q name d = none ∧ ∃ g ext,
        buildEntries fs q name attrArch 0 0 d = some g.slots ∧
        (∀ pos, g.entry pos = newEntry fs q name 0 0 d attrArch g.slots.length pos) ∧
        Holds fs (view fs d') (L.append q [.live g] ext))
      (fun d' => (∃ ext, Holds fs (view fs d') (L.append q [] ext)) ∧
        (findEntry fs q name d = none → ∀ es, buildEntries fs q name attrArch 0 0 d = some es →
          q = 0 → 512 < (itemSlots (L.items 0)).length + es.length)) := by
  simp only [create, ends_bind, ends_query_total]
  cases hfind : findEntry fs q name d with
  | some ev =>
    refine ⟨⟨[], ?_⟩, fun hnone => by cases hnone⟩
    rwa [L.append_nil]
  | none =>
    cases hes : buildEntries fs q name attrArch 0 0 d with
    | none =>
      simp only [isSome_none, Bool.false_eq_true, if_false, ends_bind, ends_query_none hes]
      refine ⟨⟨[], ?_⟩, fun _ es hsome => by cases hsome⟩
      rwa [L.append_nil]
    | some es =>
      obtain ⟨g, rfl, hentry⟩ := buildEntries_spec fs q name (Or.inl rfl) 0 0 d hes
      simp only [isSome_none, Bool.false_eq_true, if_false, ends_bind, ends_query_some hes]
      refine (h.dirAppend_ends hg hq g.slots).mono ?_ ?_
      · rintro _ d' ⟨ext, rest, hext, hs, hrest⟩
        refine ⟨trivial, g, ext, rfl, hentry, ?_⟩
        have hev : ∀ ev ∈ entriesAt (endOf (L.items q)) [.live g],
            ev.cluster = 0 ∧ ev.isDir = false := by
          intro ev hev
          simp only [entriesAt, mem_singleton, hentry] at hev
          rw [hev]
          exact ⟨rfl, show (attrArch &&& attrDir != 0) = false by decide⟩
        refine h.append hq hext ?_ hrest (fun ev he _ => (hev ev he).1) ?_
        · rw [hs]
          simp [Item.slots]
        · intro ev he hdir
          rw [(hev ev he).2] at hdir
          cases hdir
      · rintro d' ⟨⟨ext, -, hholds⟩, hroot, -⟩
        refine ⟨⟨ext, hholds⟩, fun _ es hsome h0 => ?_⟩
        rw [← some.inj hsome]
        exact hroot h0

end

end Vnu.Fat16
