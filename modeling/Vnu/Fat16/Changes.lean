import Vnu.Fat16.Layout

/-!
The ways a call changes what a volume holds: a file gets other clusters or bytes, entries are added,
replaced or deleted, a directory comes or goes. What a change does not name stays, since regions are
disjoint.
-/
namespace Vnu.Fat16

open Lib Lib.Ownership List Function

variable {l ext : List ℕ} {tail : List Slot} {c : ℕ}

namespace Layout

def setFile (L : Layout) (q pos : ℕ) (l : List ℕ) (bs : List UInt8) : Layout :=
  { L with
    regions := update L.regions (.file q pos) l
    data := update L.data (.file q pos) bs }

def append (L : Layout) (q : ℕ) (more : List Item) (ext : List ℕ) : Layout :=
  { L with
    items := update L.items q (L.items q ++ more)
    regions := update L.regions (.dir q) (L.regions (.dir q) ++ ext) }

def addDir (L : Layout) (c q pos : ℕ) : Layout :=
  { L with
    dirs := insert c L.dirs
    parent := update L.parent c (q, pos)
    items := update L.items c [.live (dotGroup c), .live (dotdotGroup q)]
    regions := update L.regions (.dir c) [c]
    lost := L.lost \ {c} }

def removeDir (L : Layout) (c : ℕ) : Layout :=
  { L with
    dirs := L.dirs \ {c}
    regions := fun o => if o.home = c then [] else L.regions o
    data := fun o => if o.home = c then [] else L.data o
    lost := L.lost ∪ {x | ∃ o ∈ {o : Obj | o.home = c}, x ∈ L.regions o} }

def edit (L : Layout) (q : ℕ) (items : List Item) (pos : ℕ) (l : List ℕ) (bs : List UInt8) :
    Layout :=
  { L.setFile q pos l bs with items := update L.items q items }

def replace (L : Layout) (q : ℕ) (items : List Item) (pos : ℕ) (l : List ℕ) (bs : List UInt8) :
    Layout :=
  { L.edit q items pos l bs with
    lost := {x | (x ∈ L.lost ∨ x ∈ L.regions (.file q pos)) ∧ x ∉ l} }

end Layout

section

variable {fs : Fs} {v v' : View} {L : Layout} {q : ℕ}

namespace Holds

/-- A file may take free clusters; every other object keeps its regions. -/
theorem changeFile (h : Holds fs v L) {ev : Entry} (hq : q ∈ L.dirs) (hev : ev ∈ L.kids q)
    (hfile : ev.isDir = false) (hchain : Chain fs v'.fat ev.cluster l)
    (hkeep : ∀ o, o ≠ .file q ev.pos → Keeps v v' (L.regions o))
    (hfresh : ∀ x ∈ l, x ∈ L.regions (.file q ev.pos) ∨ v.fat x = 0)
    (hused : ∀ x, fs.InRange x → x ∉ l →
      (v'.fat x ≠ 0 ↔ v.fat x ≠ 0 ∧ x ∉ L.regions (.file q ev.pos))) :
    Holds fs v' (L.setFile q ev.pos l (v'.bytes fs l (l.length * fs.cb))) := by
  have hother : ∀ x ∈ l, ∀ o, o ≠ .file q ev.pos → x ∉ L.regions o := by
    intro x hx o ho hxo
    obtain hold | hfree := hfresh x hx
    · exact ho (h.owns.disjoint _ _ x hxo hold)
    · exact h.taken hxo hfree
  refine ⟨h.reserved_of_keep (hkeep _ (by simp)), h.root, ?_, ?_, ?_, ?_⟩
  · intro q' hq'
    have hne : Obj.dir q' ≠ .file q ev.pos := by simp
    refine (h.dir q' hq').frame rfl (update_of_ne hne l _) rfl (hkeep _ hne)
      (fun e he hdir => ⟨((h.dir q' hq').sub e he hdir).1, rfl⟩) ?_
    intro e he hf
    dsimp only [Layout.setFile]
    by_cases heq : Obj.file q' e.pos = .file q ev.pos
    · obtain ⟨rfl, hpos⟩ := Obj.file.inj heq
      obtain rfl := Layout.kids_pos_inj he hev hpos
      rw [update_self]
      exact hchain
    · rw [update_of_ne heq]
      exact ((h.dir q' hq').file e he hf).congr fun x hx => (hkeep _ heq x hx).1
  · intro q' pos
    dsimp only [Layout.setFile]
    by_cases heq : Obj.file q' pos = .file q ev.pos
    · rw [heq, update_self, update_self]
    · rw [update_of_ne heq, update_of_ne heq, ← h.data q' pos]
      exact view_bytes_congr (fun x hx => (hkeep _ heq x hx).2) le_rfl
  · intro o ho
    dsimp only [Layout.setFile] at ho
    by_cases heq : o = .file q ev.pos
    · subst heq
      exact ⟨hq, ev, hev, hfile, rfl⟩
    · rw [update_of_ne heq] at ho
      have hhas := h.live o ho
      cases o <;> exact hhas
  · refine h.owns.update hother ?_ ?_ ?_
    · intro x hx
      refine ⟨(h.owns.lost x hx).1, ?_, fun o _ => (h.owns.lost x hx).2 o⟩
      intro hxl
      obtain hold | hfree := hfresh x hxl
      · exact (h.owns.lost x hx).2 _ hold
      · exact h.owns.lost_taken hx hfree
    · intro x hx hno
      by_cases hxl : x ∈ l
      · exact ⟨fun _ => Or.inr hxl, fun _ => hchain.used hxl⟩
      rw [hused x hx hxl, h.owns.used x hx]
      constructor
      · rintro ⟨hlost | ⟨o, ho⟩, hxo⟩
        · exact Or.inl hlost
        · exact absurd ho (hno o fun heq => hxo (heq ▸ ho))
      · intro hor
        have hlost := hor.resolve_right hxl
        exact ⟨Or.inl hlost, (h.owns.lost x hlost).2 _⟩
    · intro o ho x hx _
      rw [(hkeep o ho x hx).1]
      exact h.taken hx

theorem keeps_others (h : Holds fs v L)
    (hext : Extended fs v v' q (L.regions (.dir q)) ext) {o : Obj} (ho : o ≠ .dir q) :
    Keeps v v' (L.regions o) := by
  intro x hx
  have hout : x ∉ L.regions (.dir q) ++ ext := by
    rw [mem_append, not_or]
    exact ⟨h.owns.notMem ho hx, fun hx' => h.taken hx (hext.fresh x hx').2⟩
  exact ⟨hext.fat x hout, hext.dat x hout⟩

theorem owns_extended (h : Holds fs v L) (hext : Extended fs v v' q (L.regions (.dir q)) ext) :
    Owns fs.InRange (fun x => v'.fat x ≠ 0)
      (update L.regions (.dir q) (L.regions (.dir q) ++ ext)) L.lost := by
  have hfree : ∀ x ∈ ext, x ∉ L.lost ∧ ∀ o, x ∉ L.regions o := fun x hx =>
    h.owns.unused (hext.fresh x hx).1 (not_not.mpr (hext.fresh x hx).2)
  refine h.owns.update ?_ ?_ ?_ ?_
  · intro x hx o ho
    obtain hx | hx := mem_append.mp hx
    · exact h.owns.notMem ho.symm hx
    · exact (hfree x hx).2 o
  · intro x hx
    refine ⟨(h.owns.lost x hx).1, ?_, fun o _ => (h.owns.lost x hx).2 o⟩
    rw [mem_append, not_or]
    exact ⟨(h.owns.lost x hx).2 _, fun hx' => (hfree x hx').1 hx⟩
  · intro x hx hno
    by_cases hxl : x ∈ L.regions (.dir q) ++ ext
    · exact ⟨fun _ => Or.inr hxl, fun _ => hext.area.used hxl hx⟩
    rw [hext.fat x hxl, h.owns.used x hx]
    constructor
    · rintro (hlost | ⟨o, ho⟩)
      · exact Or.inl hlost
      · exact absurd ho (hno o fun heq => hxl (mem_append_left _ (heq ▸ ho)))
    · exact fun hor => Or.inl (hor.resolve_right hxl)
  · intro o ho x hx _
    rw [(h.keeps_others hext ho x hx).1]
    exact h.taken hx

/-- New items stand behind the old ones, and no region changes hands. -/
theorem append (h : Holds fs v L) (hq : q ∈ L.dirs)
    (hext : Extended fs v v' q (L.regions (.dir q)) ext) {more : List Item}
    (hslots : v'.slots fs q (L.regions (.dir q) ++ ext) = itemSlots (L.items q ++ more) ++ tail)
    (htail : Ended tail) (hfile : ∀ ev ∈ entriesAt (endOf (L.items q)) more, ev.isDir = false →
      ev.cluster = 0) (hsub : ∀ ev ∈ entriesAt (endOf (L.items q)) more, ev.isDir = true →
      ev.cluster ∈ L.dirs ∧ ev.cluster ≠ 0 ∧ ev.cluster ≠ q ∧ L.parent ev.cluster = (q, ev.pos)) :
    Holds fs v' (L.append q more ext) := by
  have hentries : (L.append q more ext).entries q =
      L.entries q ++ entriesAt (endOf (L.items q)) more := by
    simp only [Layout.entries, Layout.append, update_self, entriesAt_append, Nat.zero_add]
  have hsplit : ∀ ev ∈ (L.append q more ext).kids q, ev ∈ L.kids q ∨
      ev ∈ entriesAt (endOf (L.items q)) more := by
    intro ev hev
    rw [Layout.mem_kids, hentries, mem_append] at hev
    exact hev.1.imp_left fun hold => Layout.mem_kids.mpr ⟨hold, hev.2⟩
  have hregions : ∀ o, o ≠ .dir q → (L.append q more ext).regions o = L.regions o :=
    fun o ho => update_of_ne ho _ _
  have hitems : ∀ q', q' ≠ q → (L.append q more ext).items q' = L.items q' :=
    fun q' hne => update_of_ne hne _ _
  refine ⟨hext.zero.trans h.reserved, h.root, ?_, ?_, ?_, h.owns_extended hext⟩
  · intro q' hq'
    by_cases hne : q' = q
    · subst hne
      have hold := h.dir q' hq
      refine ⟨?_, ⟨tail, ?_, htail⟩, ?_, ?_, ?_⟩
      · simpa [Layout.append] using hext.area
      · simpa [Layout.append] using hslots
      · intro h0
        obtain ⟨rest, hrest⟩ := hold.dots h0
        refine ⟨rest ++ more, ?_⟩
        simp only [Layout.append, update_self, hrest, cons_append]
      · intro ev hev hdir
        obtain hev | hev := hsplit ev hev
        · exact hold.sub ev hev hdir
        · exact hsub ev hev hdir
      intro ev hev hf
      rw [hregions _ (by simp)]
      obtain hev | hev := hsplit ev hev
      · exact (hold.file ev hev hf).congr fun x hx =>
          (h.keeps_others hext (by simp) x hx).1
      -- No old entry stands where a new one does, so the new file has no regions.
      have hnil : L.regions (.file q' ev.pos) = [] := by
        by_contra hne
        obtain ⟨-, ev', hev', -, hpos⟩ := h.live _ hne
        have hlt := entriesAt_pos_lt (Layout.mem_kids.mp hev').1
        have hge := entriesAt_pos_ge hev
        omega
      rw [hfile ev hev hf, hnil]
      exact ⟨rfl, trivial, by simp⟩
    · refine (h.dir q' hq').frame (hitems q' hne) (hregions _ (by simpa using hne)) rfl
        (h.keeps_others hext (by simpa using hne))
        (fun ev hev hdir => ⟨((h.dir q' hq').sub ev hev hdir).1, rfl⟩) ?_
      intro ev hev hf
      exact ((h.dir q' hq').file ev hev hf).congr fun x hx =>
        (h.keeps_others hext (by simp) x hx).1
  · intro q' pos
    rw [hregions _ (by simp), view_bytes_congr
      (fun x hx => (h.keeps_others hext (by simp) x hx).2) le_rfl]
    exact h.data q' pos
  · intro o ho
    by_cases heq : o = .dir q
    · subst heq
      exact hq
    rw [hregions o heq] at ho
    refine (h.live o ho).mono (fun _ hq' => hq') ?_
    intro q' _ ev hev
    by_cases hne : q' = q
    · subst hne
      rw [Layout.mem_kids, hentries, mem_append]
      exact ⟨Or.inl (Layout.mem_kids.mp hev).1, (Layout.mem_kids.mp hev).2⟩
    · rwa [Layout.kids_congr (hitems q' hne)]

/-- A cluster that belongs to nobody becomes a directory with its two dot entries. -/
theorem addDir (h : Holds fs v L) {pos : ℕ} (hc : c ∈ L.lost) (heoc : v.fat c = 0xFFFF)
    (hslots : v.slots fs c [c] =
      itemSlots [.live (dotGroup c), .live (dotdotGroup q)] ++ tail) (htail : Ended tail) :
    Holds fs v (L.addDir c q pos) := by
  obtain ⟨hrange, hfree⟩ := h.owns.lost c hc
  have h0 := hrange.ne_zero
  have hnew : c ∉ L.dirs := by
    intro hmem
    obtain ⟨h0', -⟩ | ⟨-, hchain⟩ := (h.dir c hmem).area
    · exact h0 h0'
    · exact hfree (.dir c) (hchain.first_mem h0)
  have hold : ∀ q' ∈ L.dirs, q' ≠ c := fun q' hq' heq => hnew (heq ▸ hq')
  have hregions : ∀ o, o ≠ .dir c → (L.addDir c q pos).regions o = L.regions o :=
    fun o ho => update_of_ne ho _ _
  have hitems : ∀ q' ∈ L.dirs, (L.addDir c q pos).items q' = L.items q' :=
    fun q' hq' => update_of_ne (hold q' hq') _ _
  have hparent : ∀ q' ∈ L.dirs, (L.addDir c q pos).parent q' = L.parent q' :=
    fun q' hq' => update_of_ne (hold q' hq') _ _
  refine ⟨h.reserved, Set.mem_insert_of_mem _ h.root, ?_, ?_, ?_, ?_⟩
  · intro q' hq'
    obtain rfl | hq' := hq'
    · have hkids : (L.addDir q' q pos).kids q' = [] := by
        apply filter_eq_nil_iff.mpr
        simp only [Layout.entries, Layout.addDir, update_self]
        intro ev hev
        have hpos := entriesAt_pos_lt hev
        have hlen : endOf [.live (dotGroup q'), .live (dotdotGroup q)] = 64 := rfl
        simp [isKid]
        omega
      refine ⟨Or.inr ⟨h0, ?_⟩, ⟨tail, ?_, htail⟩, ?_, ?_, ?_⟩
      · simp only [Layout.addDir, update_self]
        exact ⟨rfl, ⟨heoc, trivial⟩, by simpa using hrange⟩
      · simpa [Layout.addDir] using hslots
      · intro _
        refine ⟨[], ?_⟩
        simp [Layout.addDir]
      · rw [hkids]
        simp
      · rw [hkids]
        simp
    · have hd := h.dir q' hq'
      refine hd.frame (hitems q' hq') (hregions _ (by simpa using hold q' hq')) (hparent q' hq')
        (fun _ _ => ⟨rfl, rfl⟩) ?_ ?_
      · intro ev hev hdir
        have hmem := (hd.sub ev hev hdir).1
        exact ⟨Set.mem_insert_of_mem _ hmem, hparent _ hmem⟩
      · intro ev hev hf
        exact hd.file ev hev hf
  · intro q' pos'
    exact h.data q' pos'
  · intro o ho
    by_cases heq : o = .dir c
    · subst heq
      exact Set.mem_insert _ _
    · rw [hregions o heq] at ho
      refine (h.live o ho).mono (fun _ hq' => Set.mem_insert_of_mem _ hq') ?_
      intro q' hq' ev hev
      rwa [Layout.kids_congr (hitems q' hq')]
  · refine h.owns.update ?_ ?_ ?_ ?_
    · intro x hx o _
      rw [mem_singleton] at hx
      exact hx ▸ hfree o
    · rintro x ⟨hx, hne⟩
      refine ⟨(h.owns.lost x hx).1, by simpa using hne, fun o _ => (h.owns.lost x hx).2 o⟩
    · intro x hx hno
      rw [h.owns.used x hx, mem_singleton]
      constructor
      · rintro (hlost | ⟨o, ho⟩)
        · by_cases hxc : x = c
          · exact Or.inr hxc
          · exact Or.inl ⟨hlost, hxc⟩
        · by_cases hoc : o = .dir c
          · subst hoc
            exact absurd (h.live _ (ne_nil_of_mem ho)) hnew
          · exact absurd ho (hno o hoc)
      · rintro (⟨hlost, -⟩ | rfl)
        · exact Or.inl hlost
        · exact Or.inl hc
    · intro o _ x hx _
      exact h.taken hx

end Holds

end

theorem Holds.reclaim {fs : Fs} {v : View} {L : Layout} (h : Holds fs v L)
    (hl : ∀ x ∈ l, x ∈ L.lost) : Holds fs (v.free l)
    { L with lost := {x | x ∈ L.lost ∧ x ∉ l} } := by
  have hout : ∀ o, ∀ x ∈ L.regions o, x ∉ l := fun o x hx hxl => (h.owns.lost x (hl x hxl)).2 o hx
  refine h.frame ?_ ?_ ?_
  · intro o x hx
    exact ⟨if_neg (hout o x hx), rfl⟩
  · rintro x ⟨hx, -⟩
    exact h.owns.lost x hx
  intro x hx hno
  by_cases hxl : x ∈ l
  · simp [View.free, hxl]
  · have hused := h.owns.used x hx
    simp only [View.free, hxl, if_false, hused, not_false_eq_true, and_true, Set.mem_ofPred_eq]
    exact ⟨fun hor => hor.resolve_right (not_exists.mpr hno), Or.inl⟩

section

variable {fs : Fs} {L : Layout}

theorem Holds.alloc {v : View} (h : Holds fs v L) (hc : fs.InRange c) (hfree : v.fat c = 0) :
    Holds fs (v.alloc fs 0 c) { L with lost := insert c L.lost } := by
  obtain ⟨-, hown⟩ := h.owns.unused hc (not_not.mpr hfree)
  have hne : ∀ o, ∀ x ∈ L.regions o, x ≠ c := fun o x hx hxc => hown o (hxc ▸ hx)
  refine h.frame ?_ ?_ ?_
  · intro o x hx
    refine ⟨?_, alloc_dat_other (hne o x hx)⟩
    rw [alloc_fat]
    simp [hne o x hx]
  · rintro x (rfl | hx)
    · exact ⟨hc, hown⟩
    · exact h.owns.lost x hx
  intro x hx hno
  rw [alloc_fat, Set.mem_insert_iff]
  by_cases hxc : x = c
  · simp [hxc]
  · have hused := h.owns.used x hx
    simp only [hxc, ne_eq, not_true_eq_false, and_false, if_false, false_or] at hused ⊢
    rw [hused]
    exact ⟨fun hor => hor.resolve_right (not_exists.mpr hno), Or.inl⟩

theorem Holds.write_lost {v v' : View} (h : Holds fs v L) (hl : ∀ x ∈ l, x ∈ L.lost)
    (hw : Within v v' l) : Holds fs v' L := by
  refine h.frame ?_ h.owns.lost ?_
  · intro o x hx
    exact ⟨by rw [hw.fat], hw.dat x fun hxl => (h.owns.lost x (hl x hxl)).2 o hx⟩
  · intro x hx hno
    rw [hw.fat, h.owns.used x hx]
    exact ⟨fun hor => hor.resolve_right (not_exists.mpr hno), Or.inl⟩

end

end Vnu.Fat16
