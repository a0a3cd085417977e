import Vnu.Fat16.Append

/-!
Changing entries in place: `update_entry` replaces a group of items, and a deleted entry becomes
dead slots.
-/
namespace Vnu.Fat16

open Lib List

variable {front back : List Item} {g : Group} {tail : List Slot}

theorem places_succ (pos n : ℕ) : places pos (n + 1) = pos :: places (pos + 32) n := by
  simp only [places, range_succ_eq_map, map_cons, map_map]
  congr 1
  apply map_congr_left
  intro i _
  simp only [Function.comp_apply]
  omega

theorem places_append (pos n m : ℕ) :
    places pos (n + m) = places pos n ++ places (pos + 32 * n) m := by
  induction n generalizing pos with
  | zero => simp [places]
  | succ n ih =>
    have hpos : pos + 32 + 32 * n = pos + 32 * (n + 1) := by omega
    rw [Nat.add_right_comm, places_succ, places_succ, ih, cons_append, hpos]

namespace Group

def located (g : Group) (cluster size : ℕ) : Group where
  lfn := g.lfn
  short := g.short.located cluster size
  st := g.st
  first := g.first
  kind := g.kind
  folds := g.folds
  chk := g.chk

theorem located_entry (g : Group) (cluster size pos : ℕ) :
    (g.located cluster size).entry pos =
      { g.entry pos with cluster := cluster % 65536, size := size % 2 ^ 32 } := by
  have hcluster : (g.short.located cluster size).cluster = cluster % 65536 := by
    simp only [Slot.cluster, Slot.located]
    simp
    omega
  have hsize : (g.short.located cluster size).size = size % 2 ^ 32 := by
    simp only [Slot.size, Slot.located]
    simp
    omega
  have hbytes : (g.short.located cluster size).bytes 0 11 = g.short.bytes 0 11 := rfl
  have hname : buildSfnName (g.short.located cluster size) = buildSfnName g.short := rfl
  have hattr : (g.short.located cluster size) 11 = g.short 11 := rfl
  simp only [entry, located, shortEntry, hcluster, hsize, hbytes, hname, hattr]

def erased (g : Group) : List Item := g.slots.map fun e => Item.dead e.deleted rfl

theorem itemSlots_erased (g : Group) : itemSlots g.erased = g.slots.map Slot.deleted := by
  simp only [itemSlots, erased, flatMap_map]
  exact map_eq_flatMap.symm

theorem entriesAt_dead (es : List Slot) (pos : ℕ) (rest : List Item) :
    entriesAt pos ((es.map fun e => Item.dead e.deleted rfl) ++ rest) =
      entriesAt (pos + 32 * es.length) rest := by
  induction es generalizing pos with
  | nil => rfl
  | cons e es ih =>
    have hpos : pos + 32 + 32 * es.length = pos + 32 * (e :: es).length := by
      rw [length_cons]
      omega
    simp only [map_cons, cons_append, entriesAt, ih, hpos]

theorem erased_slots (g : Group) : (itemSlots g.erased).length = g.slots.length := by
  rw [g.itemSlots_erased, length_map]

theorem entriesAt_erased (g : Group) (pos : ℕ) : entriesAt pos g.erased = [] := by
  have hdead := entriesAt_dead g.slots pos []
  rwa [List.append_nil] at hdead

theorem entry_places (g : Group) (pos : ℕ) :
    (g.entry pos).lfnPos ++ [(g.entry pos).pos] = places pos g.slots.length := by
  have hlfn : (g.entry pos).lfnPos = places pos g.lfn.length := by
    unfold entry shortEntry
    by_cases h : g.lfn = []
    · simp [h, places]
    · simp [g.chk h]
  rw [hlfn, g.slots_length, places_append]
  rfl

end Group

section

variable {fs : Fs} (hg : Geometry fs) (d : Disk) {dir : ℕ} {bl : List ℕ}
  (h : Area fs (view fs d).fat dir bl)
include hg h

theorem markAll_ends {front mid back : List Slot}
    (hslots : (view fs d).slots fs dir bl = front ++ mid ++ back) :
    (markAll fs dir (places (32 * front.length) mid.length)).Ends d
      (fun _ d' => Within (view fs d) (view fs d') bl ∧
        (view fs d').slots fs dir bl = front ++ mid.map Slot.deleted ++ back)
      fun _ => False := by
  induction mid generalizing d front with
  | nil => exact ⟨Within.refl _ _, by simpa using hslots⟩
  | cons e mid ih =>
    have hk : front.length < ((view fs d).slots fs dir bl).length := by
      rw [hslots]
      simp
    rw [length_cons, places_succ]
    simp only [markAll, Act.ends_bind]
    refine (editSlot_ends hg d h hk Slot.deleted).imp ?_
    rintro _ d₁ ⟨hw, hs⟩
    have h₁ : Area fs (view fs d₁).fat dir bl := h.congr fun x _ => by rw [hw.fat]
    have hs₁ : (view fs d₁).slots fs dir bl = (front ++ [e.deleted]) ++ mid ++ back := by
      simp only [hs, hslots]
      simp
    have hpos : 32 * front.length + 32 = 32 * (front ++ [e.deleted]).length := by
      rw [length_append, length_singleton]
      omega
    rw [hpos]
    refine (ih d₁ h₁ hs₁).imp ?_
    rintro _ d₂ ⟨hw₂, hs₂⟩
    refine ⟨hw.trans hw₂, ?_⟩
    rw [hs₂]
    simp

theorem markAll_group
    (hslots : (view fs d).slots fs dir bl = itemSlots (front ++ .live g :: back) ++ tail) :
    (markAll fs dir ((g.entry (endOf front)).lfnPos ++ [(g.entry (endOf front)).pos])).Ends d
      (fun _ d' => Within (view fs d) (view fs d') bl ∧
        (view fs d').slots fs dir bl = itemSlots (front ++ (g.erased ++ back)) ++ tail)
      fun _ => False := by
  have hsplit : (view fs d).slots fs dir bl =
      itemSlots front ++ g.slots ++ (itemSlots back ++ tail) := by
    rw [hslots]
    simp [Item.slots]
  rw [g.entry_places]
  refine (markAll_ends hg d h hsplit).imp ?_
  rintro _ d' ⟨hw, hs⟩
  refine ⟨hw, ?_⟩
  rw [hs, itemSlots_append, itemSlots_append, g.itemSlots_erased]
  simp

theorem updateEntry_group
    (hslots : (view fs d).slots fs dir bl = itemSlots (front ++ .live g :: back) ++ tail)
    (cluster size : ℕ) :
    (updateEntry fs dir (g.entry (endOf front)).pos cluster size).Ends d
      (fun _ d' => Within (view fs d) (view fs d') bl ∧ (view fs d').slots fs dir bl =
        itemSlots (front ++ .live (g.located cluster size) :: back) ++ tail)
      fun _ => False := by
  have hsplit : (view fs d).slots fs dir bl =
      (itemSlots front ++ g.lfn) ++ g.short :: (itemSlots back ++ tail) := by
    rw [hslots, itemSlots_append, itemSlots_cons]
    simp only [Item.slots, Group.slots, append_assoc, cons_append, nil_append]
  have hk : (itemSlots front ++ g.lfn).length < ((view fs d).slots fs dir bl).length := by
    rw [hsplit]
    simp
  have hpos : (g.entry (endOf front)).pos = 32 * (itemSlots front ++ g.lfn).length := by
    rw [endOf, g.entry_pos, length_append]
    omega
  rw [hpos]
  apply Act.Ends.attempt
  refine (editSlot_ends hg d h hk _).imp ?_
  rintro _ d' ⟨hw, hs⟩
  refine ⟨hw, ?_⟩
  simp only [hs, hsplit, itemSlots_append, itemSlots_cons, Item.slots, Group.slots, Group.located]
  simp

end

end Vnu.Fat16
