import Vnu.Fat16.Subdirs

/-!
`unlink` and `rmdir` on a volume that holds a layout. The chain is freed before the slots of the
entry are marked; a call that fails changes nothing.
-/
namespace Vnu.Fat16

open Lib Lib.Ownership List Function Act

variable {ev : Entry} {l : List ℕ} {v' : View} {front back : List Item} {g : Group}

theorem Layout.kid_group {L : Layout} {q : ℕ} (h : ev ∈ L.kids q) :
    ∃ front g back, L.items q = front ++ .live g :: back ∧
      ev = g.entry (endOf front) ∧ isKid q ev = true := by
  obtain ⟨hev, hkid⟩ := Layout.mem_kids.mp h
  obtain ⟨front, g, back, hitems, rfl⟩ := mem_entriesAt hev
  exact ⟨front, g, back, hitems, by rw [Nat.zero_add], hkid⟩

/-- The entry of directory `c` is deleted from `q`; files that were still in `c` lose their
clusters. -/
def Layout.unlinkDir (L : Layout) (q : ℕ) (items : List Item) (pos c : ℕ) : Layout :=
  { (L.edit q items pos [] []).removeDir c with
    lost := L.lost ∪ {x | ∃ pos', x ∈ L.regions (.file c pos')} }

/-- An edit made after clusters were freed, seen as made before. -/
theorem Within.unfree {v v₁ v₂ : View} {bl : List ℕ} (hview : v₁ = v.free l)
    (hw : Within v₁ v₂ bl) : ∃ v', v₂ = View.free v' l ∧ Within v v' bl ∧ v'.dat = v₂.dat := by
  refine ⟨⟨v.fat, v₂.dat⟩, ?_, ⟨rfl, ?_⟩, rfl⟩
  · apply View.ext
    · rw [hw.fat, hview]
      rfl
    · rfl
  · intro r hr
    rw [hw.dat r hr, hview]
    rfl

section

variable {fs : Fs} (hg : Geometry fs) {d : Disk} {L : Layout} (h : Holds fs (view fs d) L) {q : ℕ}
  (hq : q ∈ L.dirs)
include h

theorem Holds.reclaim_file {items : List Item} {pos : ℕ}
    (hgone : Holds fs v' (L.replace q items pos [] [])) :
    Holds fs (v'.free (L.regions (.file q pos))) (L.edit q items pos [] []) := by
  have hfree := hgone.reclaim (l := L.regions (.file q pos)) (by
    intro x hx
    exact ⟨Or.inr hx, by simp⟩)
  have hlost : {x | x ∈ (L.replace q items pos [] []).lost ∧ x ∉ L.regions (.file q pos)} =
      L.lost := by
    ext x
    simp only [Layout.replace, not_mem_nil, not_false_eq_true, and_true]
    constructor
    · rintro ⟨hx | hx, hno⟩
      · exact hx
      · exact absurd hx hno
    · exact fun hx => ⟨Or.inl hx, (h.owns.lost x hx).2 _⟩
  rw [hlost] at hfree
  exact hfree

include hq

theorem Holds.replace_nil {mid : List Item} {tail : List Slot}
    (hitems : L.items q = front ++ .live g :: back) (hkid : isKid q (g.entry (endOf front)) = true)
    (hlen : (itemSlots mid).length = g.slots.length)
    (hw : Within (view fs d) v' (L.regions (.dir q)))
    (hslots : v'.slots fs q (L.regions (.dir q)) = itemSlots (front ++ (mid ++ back)) ++ tail)
    (htail : Ended tail)
    (hmid : ∀ ev ∈ entriesAt (endOf front) mid, ev.pos = (g.entry (endOf front)).pos ∧
      ev.isDir = false ∧ Chain fs (view fs d).fat ev.cluster []) :
    Holds fs v' (L.replace q (front ++ (mid ++ back)) (g.entry (endOf front)).pos [] []) := by
  have hgone := h.replace hq hitems hkid hlen hw hslots htail (by simp) hmid
    fun hne => absurd rfl hne
  rwa [show (view fs d).bytes fs [] (([] : List ℕ).length * fs.cb) = [] by simp [View.bytes]]
    at hgone

/-- Freeing clusters of others leaves a directory as it is. -/
theorem Holds.freed_dir {d₁ : Disk} (hl : ∀ x ∈ L.regions (.dir q), x ∉ l)
    (hview : view fs d₁ = (view fs d).free l) :
    Area fs (view fs d₁).fat q (L.regions (.dir q)) ∧
      ∃ tail, (view fs d₁).slots fs q (L.regions (.dir q)) = itemSlots (L.items q) ++ tail ∧
        Ended tail := by
  obtain ⟨tail, hslots, htail⟩ := (h.dir q hq).slots
  rw [hview]
  exact ⟨(h.dir q hq).area.congr fun x hx => if_neg (hl x hx), tail, hslots, htail⟩

theorem Holds.erase (hitems : L.items q = front ++ .live g :: back)
    (hkid : isKid q (g.entry (endOf front)) = true)
    (hw : Within (view fs d) v' (L.regions (.dir q))) {tail : List Slot}
    (hslots : v'.slots fs q (L.regions (.dir q)) =
      itemSlots (front ++ (g.erased ++ back)) ++ tail) (htail : Ended tail) :
    Holds fs v' (L.replace q (front ++ (g.erased ++ back))
      (g.entry (endOf front)).pos [] []) := by
  refine h.replace_nil hq hitems hkid g.erased_slots hw hslots htail fun ev hev => ?_
  rw [g.entriesAt_erased] at hev
  cases hev

include hg

theorem Holds.markAll_ends {d₁ : Disk} (hitems : L.items q = front ++ .live g :: back)
    (hkid : isKid q (g.entry (endOf front)) = true)
    (hl : ∀ x ∈ L.regions (.dir q), x ∉ l) (hview : view fs d₁ = (view fs d).free l) :
    (markAll fs q ((g.entry (endOf front)).lfnPos ++ [(g.entry (endOf front)).pos])).Ends d₁
      (fun _ d' => ∃ v', view fs d' = View.free v' l ∧
        Holds fs v' (L.replace q (front ++ (g.erased ++ back))
          (g.entry (endOf front)).pos [] []))
      fun _ => False := by
  obtain ⟨harea, tail, hslots, htail⟩ := h.freed_dir hq hl hview
  rw [hitems] at hslots
  refine (markAll_group hg d₁ harea hslots).imp ?_
  rintro _ d' ⟨hw, hs⟩
  obtain ⟨v', hfree, hw', hdat⟩ := Within.unfree hview hw
  refine ⟨v', hfree, h.erase hq hitems hkid hw' ?_ htail⟩
  rw [← hs]
  exact slots_congr fun r _ => by rw [hdat]

theorem unlink_ends (name : List UInt8) :
    (unlink fs q name).Ends d
      (fun _ d' => ∃ ev front g back, findEntry fs q name d = some ev ∧ ev ∈ L.kids q ∧
        ev.isDir = false ∧ L.items q = front ++ .live g :: back ∧ ev = g.entry (endOf front) ∧
        Holds fs (view fs d') (L.edit q (front ++ (g.erased ++ back)) ev.pos [] []))
      (fun d' => d' = d ∧ ∀ ev, findEntry fs q name d = some ev → ev.isDir = true) := by
  simp only [unlink, ends_bind]
  cases hfind : findEntry fs q name d with
  | none =>
    rw [ends_query_none hfind]
    exact ⟨rfl, fun ev hev => by cases hev⟩
  | some ev =>
    rw [ends_query_some hfind]
    split_ifs with hdir
    · refine ⟨rfl, fun ev' hev' => ?_⟩
      rw [← Option.some.inj hev']
      exact hdir
    rw [ends_bind]
    have hev : ev ∈ L.kids q :=
      (h.find_cases hg hq hfind).resolve_right fun hdots => hdir hdots.2.1
    have hfile : ev.isDir = false := by simpa using hdir
    obtain ⟨front, g, back, hitems, rfl, hkid⟩ := Layout.kid_group hev
    refine (dropChain_ends hg d ((h.dir q hq).file _ hev hfile)).imp ?_
    intro _ d₁ hview
    refine (h.markAll_ends hg hq hitems hkid
      (fun x hx => h.owns.notMem (by simp) hx) hview).imp ?_
    rintro _ d' ⟨v', hview', hgone⟩
    refine ⟨_, front, g, back, rfl, hev, hfile, hitems, rfl, ?_⟩
    rw [hview']
    exact h.reclaim_file hgone

omit hg hq in
theorem Holds.no_file (hev : ev ∈ L.kids q) (hdir : ev.isDir = true) :
    L.regions (.file q ev.pos) = [] := by
  by_contra hne
  obtain ⟨-, e, he, hf, hpos⟩ := h.live _ hne
  rw [Layout.kids_pos_inj he hev hpos, hdir] at hf
  cases hf

omit hg in
/-- What was still in a directory that goes is lost with it. -/
theorem Holds.unlinkDir (hitems : L.items q = front ++ .live g :: back)
    (hev : g.entry (endOf front) ∈ L.kids q) (hdir : (g.entry (endOf front)).isDir = true)
    (hgone : Holds fs v' (L.replace q (front ++ (g.erased ++ back))
      (g.entry (endOf front)).pos [] [])) :
    Holds fs (v'.free (L.regions (.dir (g.entry (endOf front)).cluster)))
      (L.unlinkDir q (front ++ (g.erased ++ back)) (g.entry (endOf front)).pos
        (g.entry (endOf front)).cluster) := by
  have hnone := h.no_file hev hdir
  obtain ⟨hmem, h0, hne, hpar⟩ := (h.dir q hq).sub _ hev hdir
  have hlen := g.erased_slots
  have hdead := g.entriesAt_erased (endOf front)
  generalize hE : g.entry (endOf front) = ev at *
  generalize hI : front ++ (g.erased ++ back) = items at *
  -- No other entry leads to the directory, since it has one parent.
  have hno : ∀ q' ∈ (L.replace q items ev.pos [] []).dirs, q' ≠ ev.cluster →
      ∀ e ∈ (L.replace q items ev.pos [] []).kids q', e.isDir = true → e.cluster ≠ ev.cluster := by
    intro q' hq' _ e he hd heq
    have hkid : e ∈ L.kids q' ∧ (q' = q → e.pos ≠ ev.pos) := by
      by_cases hqq : q' = q
      · subst hqq
        have hhere : (L.replace q' items ev.pos [] []).items q' = front ++ (g.erased ++ back) := by
          rw [hI]
          exact update_self _ _ _
        obtain ⟨hk, hp⟩ | hk := Holds.kid_cases hitems hlen hhere he
        · exact ⟨hk, fun _ => by rwa [hE] at hp⟩
        · rw [hdead] at hk
          cases hk
      · have hsame : (L.replace q items ev.pos [] []).items q' = L.items q' :=
          update_of_ne hqq _ _
        rw [Layout.kids_congr hsame] at he
        exact ⟨he, fun hcon => absurd hcon hqq⟩
    have hpar' := ((h.dir q' hq').sub e hkid.1 hd).2.2.2
    rw [heq, hpar, Prod.mk.injEq] at hpar'
    exact hkid.2 hpar'.1.symm hpar'.2.symm
  have hremoved := hgone.removeDir h0 hno
  have hregions : ∀ o, o.home = ev.cluster →
      (L.replace q items ev.pos [] []).regions o = L.regions o := by
    intro o ho
    refine update_of_ne ?_ _ _
    rintro rfl
    exact hne ho.symm
  have hfree := hremoved.reclaim (l := L.regions (.dir ev.cluster)) (by
    intro x hx
    refine Or.inr ⟨.dir ev.cluster, rfl, ?_⟩
    rwa [hregions _ rfl])
  have hlost : {x | x ∈ ((L.replace q items ev.pos [] []).removeDir ev.cluster).lost ∧
      x ∉ L.regions (.dir ev.cluster)} = L.lost ∪
        {x | ∃ pos, x ∈ L.regions (.file ev.cluster pos)} := by
    ext x
    constructor
    · rintro ⟨⟨hx | hx, -⟩ | ⟨o, ho, hx⟩, hout⟩
      · exact Or.inl hx
      · rw [hnone] at hx
        cases hx
      · rw [hregions o ho] at hx
        cases o with
        | dir q' => exact absurd (ho ▸ hx) hout
        | file q' pos => exact Or.inr ⟨pos, ho ▸ hx⟩
    · rintro (hx | ⟨pos, hx⟩)
      · exact ⟨Or.inl ⟨Or.inl hx, by simp⟩, (h.owns.lost x hx).2 _⟩
      · refine ⟨Or.inr ⟨.file ev.cluster pos, rfl, ?_⟩, h.owns.notMem (by simp) hx⟩
        rwa [hregions _ rfl]
  rw [hlost] at hfree
  exact hfree

/-- An entry whose name only looks like a dot name does not keep a directory from going. -/
theorem rmdir_ends {name : List UInt8} (hname : q = 0 ∨ isDots name = false) :
    (rmdir fs q name).Ends d
      (fun _ d' => ∃ ev front g back, findEntry fs q name d = some ev ∧ ev ∈ L.kids q ∧
        ev.isDir = true ∧ L.items q = front ++ .live g :: back ∧ ev = g.entry (endOf front) ∧
        (∀ e ∈ L.entries ev.cluster, isDots e.name = true) ∧
        Holds fs (view fs d') (L.unlinkDir q (front ++ (g.erased ++ back)) ev.pos ev.cluster))
      (fun d' => d' = d) := by
  simp only [rmdir, ends_bind]
  cases hfind : findEntry fs q name d with
  | none => rw [ends_query_none hfind]
  | some ev =>
    rw [ends_query_some hfind]
    split_ifs with hdir
    · rw [ends_bind, ends_query_total]
      have hev : ev ∈ L.kids q := by
        refine (h.find_cases hg hq hfind).resolve_right ?_
        rintro ⟨h0, -, hdots, -⟩
        obtain hzero | hno := hname
        · exact h0 hzero
        · rw [hdots] at hno
          cases hno
      obtain ⟨hmem, h0, hne, -⟩ := (h.dir q hq).sub ev hev hdir
      split_ifs with hocc
      · rfl
      rw [ends_bind]
      have hempty : ∀ e ∈ L.entries ev.cluster, isDots e.name = true := by
        rw [dirOccupied_eq, h.entries_eq hg hmem, any_eq_true] at hocc
        intro e he
        by_contra hno
        exact hocc ⟨e, he, by simpa using hno⟩
      obtain ⟨h0', -⟩ | ⟨-, hchain⟩ := (h.dir _ hmem).area
      · exact absurd h0' h0
      refine (freeChain_ends hg d hchain).imp ?_
      intro _ d₁ hview
      obtain ⟨front, g, back, hitems, rfl, hkid⟩ := Layout.kid_group hev
      refine (h.markAll_ends hg hq hitems hkid
        (fun x hx => h.owns.notMem (by simpa using hne.symm) hx) hview).imp ?_
      rintro _ d' ⟨v', hview', hgone⟩
      refine ⟨_, front, g, back, rfl, hev, hdir, hitems, rfl, hempty, ?_⟩
      rw [hview']
      exact h.unlinkDir hq hitems hev hdir hgone
    · rfl

end

end Vnu.Fat16
