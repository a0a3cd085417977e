import Vnu.Fat16.Removal

/-!
A file on its way to a new chain. Until `write` and `truncate` store first cluster and size into the
entry, it leads to a chain that is longer than before, or to nothing.
-/
namespace Vnu.Fat16

open Lib Lib.Ownership Lib.Blocks List Function

def Staged (fs : Fs) (v : View) (L : Layout) (q : ℕ) (ev : Entry) (l : List ℕ) : Prop :=
  (L.regions (.file q ev.pos) ≠ [] ∧
    Holds fs v (L.setFile q ev.pos l (v.bytes fs l (l.length * fs.cb)))) ∨
  (L.regions (.file q ev.pos) = [] ∧ (∀ x ∈ l, x ∉ L.lost) ∧
    Holds fs v { L with lost := L.lost ∪ {x | x ∈ l} })

section

variable {fs : Fs} {v v' : View} {L : Layout} {q : ℕ} {ev : Entry}

theorem Layout.setFile_setFile (L : Layout) (q pos : ℕ) (l l' : List ℕ) (bs bs' : List UInt8) :
    (L.setFile q pos l bs).setFile q pos l' bs' = L.setFile q pos l' bs' := by
  simp [Layout.setFile]

theorem Layout.setFile_replace (L : Layout) (q pos : ℕ) (items : List Item) {l : List ℕ}
    (bs bs' : List UInt8) (hl : ∀ x ∈ L.lost, x ∉ l) :
    (L.setFile q pos l bs).replace q items pos l bs' = L.edit q items pos l bs' := by
  have hlost : {x | (x ∈ L.lost ∨ x ∈ l) ∧ x ∉ l} = L.lost := by
    ext x
    exact ⟨fun hx => hx.1.resolve_right hx.2, fun hx => ⟨Or.inl hx, hl x hx⟩⟩
  simp only [Layout.replace, Layout.edit, Layout.setFile_setFile]
  simp only [Layout.setFile, update_self, hlost]

theorem Layout.lost_replace (L : Layout) (q : ℕ) {pos : ℕ} (items : List Item) {l : List ℕ}
    (bs : List UInt8) (hnil : L.regions (.file q pos) = []) (hnew : ∀ x ∈ l, x ∉ L.lost) :
    Layout.replace { L with lost := L.lost ∪ {x | x ∈ l} } q items pos l bs =
      L.edit q items pos l bs := by
  have hlost : {x | (x ∈ L.lost ∪ {x | x ∈ l} ∨ x ∈ ([] : List ℕ)) ∧ x ∉ l} = L.lost := by
    ext x
    constructor
    · rintro ⟨(hx | hx) | hx, hno⟩
      · exact hx
      · exact absurd hx hno
      · cases hx
    · exact fun hx => ⟨Or.inl (.inl hx), fun hxl => hnew x hxl hx⟩
  simp only [Layout.replace, Layout.edit, Layout.setFile, hnil, hlost]

theorem Staged.reserved {l : List ℕ} (h : Staged fs v L q ev l) : v.fat 0 = 0xFFF8 := by
  obtain ⟨-, h⟩ | ⟨-, -, h⟩ := h <;> exact h.reserved

theorem Staged.store {l : List ℕ} (hq : q ∈ L.dirs) (hev : ev ∈ L.kids q)
    (hfile : ev.isDir = false) (h : Staged fs v L q ev l) (hw : Within v v' l) :
    Staged fs v' L q ev l := by
  obtain ⟨hne, h⟩ | ⟨hnil, hnew, h⟩ := h
  · refine .inl ⟨hne, ?_⟩
    have hl : (L.setFile q ev.pos l (v.bytes fs l (l.length * fs.cb))).regions (.file q ev.pos) =
        l := update_self _ _ _
    have hchain := (h.dir q hq).file ev hev hfile
    rw [hl] at hchain
    have hchain' : Chain fs v'.fat ev.cluster l := hchain.congr fun x _ => by rw [hw.fat]
    have hstep := h.changeFile hq hev hfile hchain' ?_ ?_ ?_
    · rwa [Layout.setFile_setFile] at hstep
    · intro o ho x hx
      refine ⟨by rw [hw.fat], hw.dat x fun hxl => ?_⟩
      exact h.owns.notMem ho hx (by rwa [hl])
    · intro x hx
      rw [hl]
      exact .inl hx
    · intro x _ hxl
      rw [hl, hw.fat]
      exact ⟨fun hx => ⟨hx, hxl⟩, fun hx => hx.1⟩
  · exact .inr ⟨hnil, hnew, h.write_lost (fun x hx => .inr hx) hw⟩

/-- Between the growth of a chain and the update of its entry the new clusters count as lost. -/
theorem Holds.grown {new : List ℕ} (h : Holds fs v L) (hq : q ∈ L.dirs) (hev : ev ∈ L.kids q)
    (hfile : ev.isDir = false) (hgr : Grown fs v v' (L.regions (.file q ev.pos)) new) :
    Staged fs v' L q ev (L.regions (.file q ev.pos) ++ new) := by
  have hchain := (h.dir q hq).file ev hev hfile
  have hfree : ∀ x ∈ new, x ∉ L.lost ∧ ∀ o, x ∉ L.regions o := fun x hx =>
    h.owns.unused (hgr.fresh x hx).1 (not_not.mpr (hgr.fresh x hx).2)
  have hfat : ∀ x, x ∉ L.regions (.file q ev.pos) ++ new → v'.fat x = v.fat x := by
    intro x hx
    rw [mem_append, not_or] at hx
    exact hgr.fat x hx.2 fun hlast => hx.1 (List.mem_of_getLast? hlast)
  have hout : ∀ o, o ≠ .file q ev.pos → ∀ x ∈ L.regions o,
      x ∉ L.regions (.file q ev.pos) ++ new := by
    intro o ho x hx
    rw [mem_append, not_or]
    exact ⟨h.owns.notMem ho hx, fun hx' => (hfree x hx').2 o hx⟩
  have hdat : ∀ x, x ∉ L.regions (.file q ev.pos) ++ new → v'.dat x = v.dat x := by
    intro x hx
    rw [mem_append, not_or] at hx
    exact hgr.dat x hx.2
  by_cases hnil : L.regions (.file q ev.pos) = []
  · rw [hnil] at hfat hdat ⊢
    refine .inr ⟨hnil, fun x hx => (hfree x hx).1, ?_⟩
    refine h.frame ?_ ?_ ?_
    · intro o x hx
      have hx' : x ∉ new := fun hxn => (hfree x hxn).2 o hx
      exact ⟨hfat x hx', hdat x hx'⟩
    · rintro x (hx | hx)
      · exact h.owns.lost x hx
      · exact ⟨(hgr.fresh x hx).1, (hfree x hx).2⟩
    intro x hx hno
    by_cases hxn : x ∈ new
    · have hc := hgr.chain hchain.range
      exact ⟨fun _ => .inr hxn, fun _ => hc.used (mem_append_right _ hxn)⟩
    · rw [hfat x hxn, h.owns.used x hx]
      constructor
      · exact fun hor => .inl (hor.resolve_right fun ⟨o, ho⟩ => hno o ho)
      · exact fun hor => .inl (hor.resolve_right hxn)
  · refine .inl ⟨hnil, h.changeFile hq hev hfile ?_ ?_ ?_ ?_⟩
    · have hc := hgr.chain hchain.range
      have hhead : (L.regions (.file q ev.pos) ++ new).headD 0 = ev.cluster := by
        rw [hchain.head]
        cases hl : L.regions (.file q ev.pos) with
        | nil => exact absurd hl hnil
        | cons a l => rfl
      rwa [hhead] at hc
    · exact fun o ho x hx => ⟨hfat x (hout o ho x hx), hdat x (hout o ho x hx)⟩
    · intro x hx
      exact (mem_append.mp hx).imp_right fun hxn => (hgr.fresh x hxn).2
    · intro x _ hx
      rw [hfat x hx]
      exact ⟨fun hne => ⟨hne, fun hxl => hx (mem_append_left _ hxl)⟩, fun hne => hne.1⟩

end

section

variable {fs : Fs} (hg : Geometry fs) {d : Disk} {L : Layout} {q : ℕ} (hq : q ∈ L.dirs)
  {front back : List Item} {g : Group} (hitems : L.items q = front ++ .live g :: back)
  (hev : g.entry (endOf front) ∈ L.kids q)
  (hfile : (g.entry (endOf front)).isDir = false)
  {l : List ℕ} {nf size : ℕ} (hchain : Chain fs (view fs d).fat nf l)
include hg hq hitems hev hfile hchain

theorem Holds.updateEntry_ends (h : Holds fs (view fs d) L) (hl : ∀ x ∈ l, x ∈ L.lost ∨
      x ∈ L.regions (.file q (g.entry (endOf front)).pos)) :
    (updateEntry fs q (g.entry (endOf front)).pos nf size).Ends d
      (fun _ d' => Within (view fs d) (view fs d') (L.regions (.dir q)) ∧
        Holds fs (view fs d') (L.replace q (front ++ .live (g.located nf size) :: back)
          (g.entry (endOf front)).pos l
          ((view fs d).bytes fs l (l.length * fs.cb))))
      fun _ => False := by
  have hmax := hg.max_le
  obtain ⟨tail, hslots, htail⟩ := (h.dir q hq).slots
  rw [hitems] at hslots
  have hkid := (Layout.mem_kids.mp hev).2
  have hnf : nf % 65536 = nf := by
    apply Nat.mod_eq_of_lt
    by_cases h0 : nf = 0
    · omega
    · have := (hchain.range nf (hchain.first_mem h0)).2
      omega
  refine (updateEntry_group hg d (h.dir q hq).area hslots nf size).imp ?_
  rintro _ d' ⟨hw, hs⟩
  refine ⟨hw, ?_⟩
  have hnew : ∀ ev ∈ entriesAt (endOf front) [.live (g.located nf size)],
      ev.pos = (g.entry (endOf front)).pos ∧ ev.isDir = false ∧
        Chain fs (view fs d).fat ev.cluster l := by
    intro ev he
    simp only [entriesAt, mem_singleton, g.located_entry] at he
    subst he
    refine ⟨rfl, hfile, ?_⟩
    rwa [hnf]
  refine h.replace hq hitems hkid ?_ hw hs htail hl hnew ?_
  · simp [Item.slots, Group.slots, Group.located]
  · intro _
    refine ⟨(g.located nf size).entry (endOf front), by simp [entriesAt], ?_⟩
    exact hkid

theorem Staged.updateEntry_ends (h : Staged fs (view fs d) L q (g.entry (endOf front)) l) :
    (updateEntry fs q (g.entry (endOf front)).pos nf size).Ends d
      (fun _ d' => Holds fs (view fs d')
        (L.edit q (front ++ .live (g.located nf size) :: back)
          (g.entry (endOf front)).pos l
          ((view fs d).bytes fs l (l.length * fs.cb))))
      fun _ => False := by
  obtain ⟨-, h⟩ | ⟨hnil, hnew, h⟩ := h
  · have hown : ∀ x ∈ l, x ∈ (L.setFile q (g.entry (endOf front)).pos l
        ((view fs d).bytes fs l (l.length * fs.cb))).regions
          (.file q (g.entry (endOf front)).pos) := by
      intro x hx
      simpa [Layout.setFile] using hx
    refine (h.updateEntry_ends (L := L.setFile q _ l _) hg hq hitems hev hfile hchain
      fun x hx => .inr (hown x hx)).imp ?_
    rintro _ d' ⟨-, hd⟩
    rwa [Layout.setFile_replace] at hd
    exact fun x hx hxl => (h.owns.lost x hx).2 _ (hown x hxl)
  · refine (h.updateEntry_ends (L := { L with lost := L.lost ∪ {x | x ∈ l} }) hg hq hitems hev
      hfile hchain fun x hx => .inl (.inr hx)).imp ?_
    rintro _ d' ⟨-, hd⟩
    rwa [Layout.lost_replace L q _ _ hnil hnew] at hd

end

end Vnu.Fat16
