import Vnu.Fat16.Contents

/-!
What `read` returns in terms of the layout, and which lookups and reads survive a change
of one entry.
-/
namespace Vnu.Fat16

open Lib List Function Option

def contents (fs : Fs) (q : ℕ) (name : List UInt8) (d : Disk) : List UInt8 :=
  (read fs q name 0 0xFFFFFFFF d).getD []

def fileSize (fs : Fs) (q : ℕ) (name : List UInt8) (d : Disk) : ℕ :=
  ((findEntry fs q name d).map Entry.size).getD 0

section

variable {fs : Fs} (hg : Geometry fs) {d : Disk} {L : Layout} (h : Holds fs (view fs d) L) {q : ℕ}
  (hq : q ∈ L.dirs) {name : List UInt8} {ev : Entry} (hfind : findEntry fs q name d = some ev)

include hg h hq hfind in
theorem Holds.find_mem : ev ∈ L.entries q := by
  rw [h.findEntry_eq hg hq] at hfind
  exact mem_of_find?_eq_some hfind

theorem bytes_prefix (v : View) (l : List ℕ) {k n : ℕ} (hk : k ≤ n) :
    v.bytes fs l k = (v.bytes fs l n).take k := by
  simp only [View.bytes, ← map_take, take_range, Nat.min_eq_left hk]

include hfind in
theorem read_dir (hdir : ev.isDir = true) (o k : ℕ) : read fs q name o k d = none := by
  simp only [read, hfind, hdir, if_true]

include hg h hq hfind

theorem Holds.read_file (hL : L.Files Sized) (hfile : ev.isDir = false) (o k : ℕ) :
    read fs q name o k d = some ((((L.data (.file q ev.pos)).take ev.size).drop o).take k) := by
  have hev := h.find_file hg hq hfind hfile
  have hsize : ev.size ≤ (L.data (.file q ev.pos)).length := hL q hq ev hev hfile
  rw [h.data_length] at hsize
  rw [read_eq hg d hfind hfile ((h.dir q hq).file ev hev hfile) hsize o k,
    bytes_prefix _ _ hsize, h.data]

theorem Holds.contents_file (hL : L.Files Sized) (hfile : ev.isDir = false) :
    contents fs q name d = (L.data (.file q ev.pos)).take ev.size := by
  have hlt : ev.size < 2 ^ 32 := by
    have hev := h.find_file hg hq hfind hfile
    have hsize : ev.size ≤ (L.data (.file q ev.pos)).length := hL q hq ev hev hfile
    have hbound := h.data_lt hg hq hev hfile
    omega
  rw [contents, h.read_file hg hq hfind hL hfile, getD_some, drop_zero, take_of_length_le]
  rw [length_take]
  omega

end

def Entry.relocated (pos nf size : ℕ) (ev : Entry) : Entry :=
  if ev.pos = pos then { ev with cluster := nf % 65536, size := size % 2 ^ 32 } else ev

theorem relocated_of_pos_ne {pos nf size : ℕ} {evs : List Entry} (h : ∀ ev ∈ evs, ev.pos ≠ pos) :
    evs.map (Entry.relocated pos nf size) = evs := by
  conv_rhs => rw [← map_id evs]
  apply map_congr_left
  intro ev hev
  rw [Entry.relocated, if_neg (h ev hev), id]

section

variable {fs : Fs} {L : Layout} {q : ℕ} {front back : List Item} {g : Group}
  (hitems : L.items q = front ++ .live g :: back)

include hitems

theorem Layout.entries_located (nf size pos : ℕ) (l : List ℕ) (bs : List UInt8) :
    (L.edit q (front ++ .live (g.located nf size) :: back) pos l bs).entries q = (L.entries q).map
        (Entry.relocated (g.entry (endOf front)).pos nf size) := by
  have hitems' : (L.edit q (front ++ .live (g.located nf size) :: back) pos l bs).items q =
      front ++ .live (g.located nf size) :: back := update_self _ _ _
  have hslots : (g.located nf size).slots.length = g.slots.length := by
    simp only [Group.slots_length, Group.located]
  have hfront : (entriesAt 0 front).map (Entry.relocated
      (g.entry (endOf front)).pos nf size) = entriesAt 0 front := by
    apply relocated_of_pos_ne
    intro ev hev
    have hlt := entriesAt_pos_lt hev
    rw [Group.entry_pos]
    omega
  have hback : (entriesAt (endOf front + 32 * g.slots.length) back).map
      (Entry.relocated (g.entry (endOf front)).pos nf size) =
        entriesAt (endOf front + 32 * g.slots.length) back := by
    apply relocated_of_pos_ne
    intro ev hev
    have hge := entriesAt_pos_ge hev
    rw [Group.slots_length] at hge
    rw [Group.entry_pos]
    omega
  rw [Holds.entries_split hitems, Holds.entries_split hitems', map_append, map_cons,
    hfront, hback, hslots, Group.located_entry, Entry.relocated, if_pos rfl]

end

section

variable {fs : Fs} (hg : Geometry fs) {d d' : Disk} {L L' : Layout}
  (h : Holds fs (view fs d) L) (h' : Holds fs (view fs d') L') {q : ℕ}

include hg h h'

theorem Holds.findEntry_congr (hq : q ∈ L.dirs) (hq' : q ∈ L'.dirs)
    (hentries : L'.entries q = L.entries q) (name : List UInt8) :
    findEntry fs q name d' = findEntry fs q name d := by
  rw [h.findEntry_eq hg hq, h'.findEntry_eq hg hq', hentries]

theorem Holds.read_congr (hL : L.Files Sized) (hL' : L'.Files Sized) (hq : q ∈ L.dirs)
    (hq' : q ∈ L'.dirs) {name : List UInt8} {ev : Entry} (hfind : findEntry fs q name d = some ev)
    (hfind' : findEntry fs q name d' = some ev)
    (hdata : L'.data (.file q ev.pos) = L.data (.file q ev.pos)) (o k : ℕ) :
    read fs q name o k d' = read fs q name o k d := by
  cases hdir : ev.isDir with
  | true => rw [read_dir hfind hdir, read_dir hfind' hdir]
  | false =>
    rw [h.read_file hg hq hfind hL hdir, h'.read_file hg hq' hfind' hL' hdir, hdata]

end

section

variable {fs : Fs} (hg : Geometry fs) {d d' : Disk} {L : Layout} {q : ℕ} {l : List ℕ}
  {bs : List UInt8} {front back : List Item} {g : Group} {nf size pos : ℕ}
  (h : Holds fs (view fs d) L) (hitems : L.items q = front ++ .live g :: back)
  (h' : Holds fs (view fs d') (L.edit q (front ++ .live (g.located nf size) :: back) pos l bs))

include hg h hitems h'

theorem Holds.findEntry_located (hq : q ∈ L.dirs) (name : List UInt8) :
    findEntry fs q name d' = (findEntry fs q name d).map
      (Entry.relocated (g.entry (endOf front)).pos nf size) := by
  have hq' : q ∈ (L.edit q (front ++ .live (g.located nf size) :: back) pos l bs).dirs := hq
  rw [h.findEntry_eq hg hq, h'.findEntry_eq hg hq', Layout.entries_located hitems, find?_map]
  congr 2
  funext ev
  simp only [Function.comp, Entry.relocated]
  split <;> rfl

theorem Holds.read_located {q' : ℕ} (hq' : q' ∈ L.dirs) (hL : L.Files Sized)
    (hL' : (L.edit q (front ++ .live (g.located nf size) :: back) pos l bs).Files Sized)
    (hpos : pos = (g.entry (endOf front)).pos) {name : List UInt8} {ev : Entry}
    (hfind : findEntry fs q' name d = some ev) (hne : ¬ (q' = q ∧ ev.pos = pos)) (o k : ℕ) :
    read fs q' name o k d' = read fs q' name o k d := by
  refine h.read_congr hg h' hL hL' hq' hq' hfind ?_ (Layout.edit_data hne) o k
  by_cases hqq : q' = q
  · subst hqq
    have hp : ev.pos ≠ (g.entry (endOf front)).pos := fun heq =>
      hne ⟨rfl, heq.trans hpos.symm⟩
    rw [h.findEntry_located hg hitems h' hq', hfind, map_some, Entry.relocated, if_neg hp]
  · have hentries : (L.edit q (front ++ .live (g.located nf size) :: back) pos l bs).entries q' =
        L.entries q' := congrArg (entriesAt 0) (update_of_ne hqq _ _)
    rw [h.findEntry_congr hg h' hq' hq' hentries, hfind]

end

section

variable {fs : Fs} (hg : Geometry fs) {d d' : Disk} {L : Layout} {q : ℕ} {more : List Item}
  {ext : List ℕ} (h : Holds fs (view fs d) L) (h' : Holds fs (view fs d') (L.append q more ext))

include hg h h'

theorem Holds.findEntry_append {q' : ℕ} (hq' : q' ∈ L.dirs) {name : List UInt8} {ev : Entry}
    (hfind : findEntry fs q' name d = some ev) : findEntry fs q' name d' = some ev := by
  by_cases hqq : q' = q
  · subst hqq
    have hmem : q' ∈ (L.append q' more ext).dirs := hq'
    rw [h.findEntry_eq hg hq'] at hfind
    rw [h'.findEntry_eq hg hmem, Layout.entries_append, find?_append, hfind, some_or]
  · have hentries : (L.append q more ext).entries q' = L.entries q' :=
      congrArg (entriesAt 0) (update_of_ne hqq _ _)
    rw [h.findEntry_congr hg h' hq' hq' hentries, hfind]

theorem Holds.findEntry_appended (hq : q ∈ L.dirs) {name : List UInt8} {ev : Entry}
    (hnone : findEntry fs q name d = none) (hfind : findEntry fs q name d' = some ev) :
    ev ∈ entriesAt (endOf (L.items q)) more := by
  have hmem : q ∈ (L.append q more ext).dirs := hq
  rw [h.findEntry_eq hg hq] at hnone
  rw [h'.findEntry_eq hg hmem, Layout.entries_append, find?_append, hnone] at hfind
  exact mem_of_find?_eq_some hfind

end

end Vnu.Fat16
