import Vnu.Fat16.Operations

/-!
What a directory says: a list of deleted slots and of groups of long-name slots closed by their
short slot, with a slot behind them that was never used.
-/
namespace Vnu.Fat16

open List Nat

variable {st : Lfn} {pos : ℕ} {tail : List Slot} {ev : Entry}

def scanAll (st : Lfn) (pos : ℕ) : List Slot → List Entry
  | [] => []
  | e :: es =>
    match scanSlot st pos e with
    | .stop => []
    | .skip st => scanAll st (pos + 32) es
    | .found ev => ev :: scanAll Lfn.start (pos + 32) es

/-- A state without pending long-name slots is as good as a fresh one. -/
theorem scanAll_start (hst : st.pos = []) (pos : ℕ) (es : List Slot) :
    scanAll st pos es = scanAll Lfn.start pos es := by
  induction es generalizing st pos with
  | nil => rfl
  | cons e es ih =>
    have hdrop : ∀ st : Lfn, scanAll st.drop (pos + 32) es = scanAll Lfn.start (pos + 32) es :=
      fun st => ih rfl (pos + 32)
    unfold scanAll scanSlot
    split_ifs with h0 h1 h2
    · rfl
    · exact (hdrop st).trans (hdrop Lfn.start).symm
    · -- Both start a new run with the checksum of this slot.
      have hbegin : st.begin (e 13) = Lfn.start.begin (e 13) := by
        simp [Lfn.begin, hst, Lfn.start]
      simp only [Lfn.take, hbegin]
    · have hshort : shortEntry st pos e = shortEntry Lfn.start pos e := by
        simp [shortEntry, hst, Lfn.start]
      simp [hshort]

def places (pos n : ℕ) : List ℕ := (List.range n).map fun i => pos + 32 * i

def foldLfn (st : Lfn) (pos : ℕ) : List Slot → Option Lfn
  | [] => some st
  | e :: es =>
    if e 0 = 0x00 ∨ e 0 = 0xE5 ∨ e 11 &&& 0x3F ≠ 0x0F then none
    else foldLfn (st.take pos e) (pos + 32) es

structure Group where
  lfn : List Slot
  short : Slot
  st : Lfn
  first : short 0 ≠ 0x00 ∧ short 0 ≠ 0xE5
  kind : short 11 &&& 0x3F ≠ 0x0F
  folds : ∀ pos, foldLfn Lfn.start pos lfn = some { st with pos := places pos lfn.length }
  chk : lfn ≠ [] → st.chk = sfnChecksum (short.bytes 0 11)

namespace Group

def slots (g : Group) : List Slot := g.lfn ++ [g.short]

def entry (g : Group) (pos : ℕ) : Entry :=
  shortEntry { g.st with pos := places pos g.lfn.length } (pos + 32 * g.lfn.length) g.short

def bare (e : Slot) (first : e 0 ≠ 0x00 ∧ e 0 ≠ 0xE5) (kind : e 11 &&& 0x3F ≠ 0x0F) : Group where
  lfn := []
  short := e
  st := Lfn.start
  first := first
  kind := kind
  folds _ := rfl
  chk h := absurd rfl h

theorem slots_length (g : Group) : g.slots.length = g.lfn.length + 1 := by
  simp [slots]

end Group

theorem scanAll_fold {st' : Lfn} {lfn es : List Slot} (h : foldLfn st pos lfn = some st') :
    scanAll st pos (lfn ++ es) = scanAll st' (pos + 32 * lfn.length) es := by
  induction lfn generalizing st pos with
  | nil =>
    obtain rfl := Option.some.inj h
    simp
  | cons e lfn ih =>
    unfold foldLfn at h
    split at h
    · simp at h
    rename_i hkind
    simp only [not_or] at hkind
    obtain ⟨h0, h1, h2⟩ := hkind
    have hstep : scanSlot st pos e = .skip (st.take pos e) := by
      simp [scanSlot, h0, h1, h2]
    rw [cons_append, scanAll, hstep]
    simp only [ih h, length_cons]
    congr 1
    omega

theorem scanAll_group (g : Group) (pos : ℕ) (es : List Slot) :
    scanAll Lfn.start pos (g.slots ++ es) =
      g.entry pos :: scanAll Lfn.start (pos + 32 * g.slots.length) es := by
  have hfound : ∀ st here, scanSlot st here g.short = .found (shortEntry st here g.short) := by
    intro st here
    simp [scanSlot, g.first.1, g.first.2, g.kind]
  rw [Group.slots, append_assoc, scanAll_fold (g.folds pos), singleton_append, scanAll, hfound]
  simp only [length_append]
  congr 2

inductive Item where
  | dead (e : Slot) (h : e 0 = 0xE5)
  | live (g : Group)

variable {items : List Item}

def Item.slots : Item → List Slot
  | .dead e _ => [e]
  | .live g => g.slots

def itemSlots (items : List Item) : List Slot := items.flatMap Item.slots

def entriesAt (pos : ℕ) : List Item → List Entry
  | [] => []
  | .dead _ _ :: rest => entriesAt (pos + 32) rest
  | .live g :: rest => g.entry pos :: entriesAt (pos + 32 * g.slots.length) rest

@[simp] theorem itemSlots_nil : itemSlots [] = [] := rfl

@[simp] theorem itemSlots_cons (i : Item) (items : List Item) :
    itemSlots (i :: items) = i.slots ++ itemSlots items := rfl

@[simp] theorem itemSlots_append (a b : List Item) :
    itemSlots (a ++ b) = itemSlots a ++ itemSlots b := flatMap_append

def endOf (items : List Item) : ℕ := 32 * (itemSlots items).length

@[simp] theorem endOf_nil : endOf [] = 0 := rfl

@[simp] theorem endOf_cons (i : Item) (items : List Item) :
    endOf (i :: items) = 32 * i.slots.length + endOf items := by
  rw [endOf, endOf, itemSlots_cons, length_append, mul_add]

@[simp] theorem endOf_append (a b : List Item) : endOf (a ++ b) = endOf a + endOf b := by
  rw [endOf, endOf, endOf, itemSlots_append, length_append, mul_add]

def Ended (tail : List Slot) : Prop := ∀ e ∈ tail.head?, e 0 = 0

theorem scanAll_ended (h : Ended tail) (st : Lfn) (pos : ℕ) : scanAll st pos tail = [] := by
  cases tail with
  | nil => rfl
  | cons e tail =>
    have h0 : e 0 = 0 := h e rfl
    simp [scanAll, scanSlot, h0]

theorem scanAll_items (h : Ended tail) (items : List Item) (pos : ℕ) :
    scanAll Lfn.start pos (itemSlots items ++ tail) = entriesAt pos items := by
  induction items generalizing pos with
  | nil => exact scanAll_ended h _ _
  | cons i items ih =>
    cases i with
    | dead e he =>
      have hstep : scanSlot Lfn.start pos e = .skip Lfn.start.drop := by
        simp [scanSlot, he]
      rw [itemSlots_cons, append_assoc, Item.slots, singleton_append, scanAll, hstep]
      simp only [entriesAt]
      rw [@scanAll_start Lfn.start.drop rfl, ih]
    | live g =>
      rw [itemSlots_cons, append_assoc, Item.slots, scanAll_group, ih]
      rfl

theorem entriesAt_append (a b : List Item) (pos : ℕ) :
    entriesAt pos (a ++ b) = entriesAt pos a ++ entriesAt (pos + endOf a) b := by
  induction a generalizing pos with
  | nil => simp [entriesAt]
  | cons i a ih =>
    cases i with
    | dead e he | live g =>
      rw [cons_append, entriesAt, entriesAt, ih, endOf_cons, add_assoc]
      rfl

theorem mem_entriesAt (h : ev ∈ entriesAt pos items) :
    ∃ a g b, items = a ++ Item.live g :: b ∧ ev = g.entry (pos + endOf a) := by
  induction items generalizing pos with
  | nil => simp [entriesAt] at h
  | cons i items ih =>
    cases i with
    | dead e he =>
      obtain ⟨a, g, b, rfl, rfl⟩ := ih h
      exact ⟨Item.dead e he :: a, g, b, rfl, by rw [endOf_cons, add_assoc]; rfl⟩
    | live g =>
      rcases mem_cons.mp h with rfl | h
      · exact ⟨[], g, items, rfl, by simp⟩
      · obtain ⟨a, g', b, rfl, rfl⟩ := ih h
        exact ⟨Item.live g :: a, g', b, rfl, by rw [endOf_cons, add_assoc]; rfl⟩

theorem Group.entry_pos (g : Group) (pos : ℕ) : (g.entry pos).pos = pos + 32 * g.lfn.length := rfl

theorem entriesAt_pos_ge (h : ev ∈ entriesAt pos items) : pos ≤ ev.pos := by
  obtain ⟨a, g, b, -, rfl⟩ := mem_entriesAt h
  rw [Group.entry_pos]
  omega

theorem entriesAt_pos_lt (h : ev ∈ entriesAt pos items) : ev.pos + 32 ≤ pos + endOf items := by
  obtain ⟨a, g, b, rfl, rfl⟩ := mem_entriesAt h
  rw [Group.entry_pos, endOf_append, endOf_cons, Item.slots, Group.slots_length]
  omega

theorem entriesAt_pos_inj {ev' : Entry}
    (h : ev ∈ entriesAt pos items) (h' : ev' ∈ entriesAt pos items) (heq : ev.pos = ev'.pos) :
    ev = ev' := by
  obtain ⟨a, g, b, rfl, rfl⟩ := mem_entriesAt h
  rw [entriesAt_append] at h'
  rcases mem_append.mp h' with h' | h'
  · have := entriesAt_pos_lt h'
    rw [Group.entry_pos] at heq
    omega
  rcases mem_cons.mp h' with rfl | h'
  · rfl
  · have := entriesAt_pos_ge h'
    rw [Group.entry_pos] at heq
    rw [Group.slots_length] at this
    omega

end Vnu.Fat16
