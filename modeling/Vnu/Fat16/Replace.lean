import Vnu.Fat16.Changes

/-!
An entry of a directory that is replaced or deleted, and a directory that goes. What stands before
and behind it keeps its place, since the new items take as many slots.
-/
namespace Vnu.Fat16

open Lib Lib.Ownership List Function Nat

section

variable {fs : Fs} {v v' : View} {L : Layout} {q : ℕ}

/-- The two entries at the head of a subdirectory stand before every kid. -/
theorem DirOk.dots_front (h : DirOk fs v L q) {front back mid : List Item} {g : Group}
    (hitems : L.items q = front ++ .live g :: back)
    (hkid : isKid q (g.entry (endOf front)) = true) (hq : q ≠ 0) :
    ∃ rest, front ++ (mid ++ back) =
      .live (dotGroup q) :: .live (dotdotGroup (L.parent q).1) :: rest := by
  obtain ⟨rest, hrest⟩ := h.dots hq
  rw [hitems] at hrest
  have hpos : 64 ≤ (g.entry (endOf front)).pos := by
    simpa [hq] using (Bool.and_eq_true_iff.mp hkid).2
  rcases front with _ | ⟨a, _ | ⟨b, front⟩⟩
  · simp only [nil_append, cons.injEq, Item.live.injEq] at hrest
    rw [hrest.1] at hpos
    change 64 ≤ 0 at hpos
    omega
  · simp only [cons_append, nil_append, cons.injEq, Item.live.injEq] at hrest
    rw [hrest.1, hrest.2.1] at hpos
    change 64 ≤ 32 at hpos
    omega
  · simp only [cons_append, cons.injEq] at hrest
    refine ⟨front ++ (mid ++ back), ?_⟩
    rw [hrest.1, hrest.2.1]
    rfl

namespace Holds

variable {front back mid : List Item} {g : Group}

theorem entries_split (hitems : L.items q = front ++ .live g :: back) :
    L.entries q = entriesAt 0 front ++ g.entry (endOf front) ::
      entriesAt (endOf front + 32 * g.slots.length) back := by
  simp only [Layout.entries, hitems, entriesAt_append, zero_add, entriesAt]

theorem entries_replaced (hlen : (itemSlots mid).length = g.slots.length) :
    entriesAt 0 (front ++ (mid ++ back)) = entriesAt 0 front ++ (entriesAt (endOf front) mid ++
        entriesAt (endOf front + 32 * g.slots.length) back) := by
  simp only [entriesAt_append, endOf, zero_add, hlen]

theorem kid_stays (hitems : L.items q = front ++ .live g :: back)
    (hlen : (itemSlots mid).length = g.slots.length) {ev : Entry} (hev : ev ∈ L.kids q)
    (hne : ev.pos ≠ (g.entry (endOf front)).pos) {L' : Layout}
    (hitems' : L'.items q = front ++ (mid ++ back)) : ev ∈ L'.kids q := by
  rw [Layout.mem_kids, entries_split hitems, mem_append, mem_cons] at hev
  rw [Layout.mem_kids, Layout.entries, hitems', entries_replaced hlen]
  simp only [mem_append]
  obtain ⟨hfront | rfl | hback, hkid⟩ := hev
  · exact ⟨Or.inl hfront, hkid⟩
  · exact absurd rfl hne
  · exact ⟨Or.inr (Or.inr hback), hkid⟩

theorem kid_cases (hitems : L.items q = front ++ .live g :: back)
    (hlen : (itemSlots mid).length = g.slots.length) {ev : Entry} {L' : Layout}
    (hitems' : L'.items q = front ++ (mid ++ back)) (hev : ev ∈ L'.kids q) :
    (ev ∈ L.kids q ∧ ev.pos ≠ (g.entry (endOf front)).pos) ∨ ev ∈ entriesAt (endOf front) mid := by
  rw [Layout.mem_kids, Layout.entries, hitems', entries_replaced hlen] at hev
  simp only [mem_append] at hev
  have hpos := g.entry_pos (endOf front)
  rw [Layout.mem_kids, entries_split hitems, mem_append, mem_cons]
  obtain ⟨hfront | hmid | hback, hkid⟩ := hev
  · refine Or.inl ⟨⟨Or.inl hfront, hkid⟩, ?_⟩
    have := entriesAt_pos_lt hfront
    omega
  · exact Or.inr hmid
  · refine Or.inl ⟨⟨Or.inr (Or.inr hback), hkid⟩, ?_⟩
    have := entriesAt_pos_ge hback
    rw [g.slots_length] at this
    omega

/-- An entry is replaced by one for a file, or by none. The new chain is made of old and of lost
clusters. -/
theorem replace (h : Holds fs v L) (hq : q ∈ L.dirs) (hitems : L.items q = front ++ .live g :: back)
    (hkid : isKid q (g.entry (endOf front)) = true)
    (hlen : (itemSlots mid).length = g.slots.length) (hw : Within v v' (L.regions (.dir q)))
    {tail : List Slot} (hslots : v'.slots fs q (L.regions (.dir q)) =
      itemSlots (front ++ (mid ++ back)) ++ tail) (htail : Ended tail) {l : List ℕ}
    (hl : ∀ x ∈ l, x ∈ L.lost ∨ x ∈ L.regions (.file q (g.entry (endOf front)).pos))
    (hmid : ∀ ev ∈ entriesAt (endOf front) mid,
      ev.pos = (g.entry (endOf front)).pos ∧ ev.isDir = false ∧ Chain fs v.fat ev.cluster l)
    (hlive : l ≠ [] → ∃ ev ∈ entriesAt (endOf front) mid, isKid q ev = true) :
    Holds fs v' (L.replace q (front ++ (mid ++ back))
      (g.entry (endOf front)).pos l (v.bytes fs l (l.length * fs.cb))) := by
  generalize hpos : (g.entry (endOf front)).pos = pos at hl hmid ⊢
  generalize hbs : v.bytes fs l (l.length * fs.cb) = bs
  have hold := h.dir q hq
  have hext : Extended fs v v' q (L.regions (.dir q)) [] :=
    (Extended.refl hold.area).edit (by rwa [append_nil])
  have hkeep : ∀ o, o ≠ .dir q → Keeps v v' (L.regions o) := fun o ho => h.keeps_others hext ho
  have hother : ∀ x ∈ l, ∀ o, o ≠ .file q pos → x ∉ L.regions o := by
    intro x hx o ho
    obtain hlost | hfile := hl x hx
    · exact (h.owns.lost x hlost).2 o
    · exact h.owns.notMem ho.symm hfile
  have hsame : ∀ q', q' ≠ q → (L.replace q (front ++ (mid ++ back)) pos l bs).items q' =
      L.items q' := fun q' hne => update_of_ne hne _ _
  have hhere : (L.replace q (front ++ (mid ++ back)) pos l bs).items q =
      front ++ (mid ++ back) := update_self _ _ _
  have hregions : ∀ o, o ≠ .file q pos →
      (L.replace q (front ++ (mid ++ back)) pos l bs).regions o = L.regions o :=
    fun o ho => update_of_ne ho _ _
  have hnew : (L.replace q (front ++ (mid ++ back)) pos l bs).regions (.file q pos) = l :=
    update_self _ _ _
  refine ⟨by rw [hw.fat, h.reserved], h.root, ?_, ?_, ?_, ?_⟩
  · intro q' hq'
    by_cases hne : q' = q
    · subst hne
      refine ⟨?_, ⟨tail, ?_, htail⟩, ?_, ?_, ?_⟩
      · rw [hw.fat]
        exact hold.area
      · rw [hhere]
        exact hslots
      · intro h0
        rw [hhere]
        exact hold.dots_front hitems hkid h0
      · intro ev hev hdir
        obtain ⟨hev, -⟩ | hev := kid_cases hitems hlen hhere hev
        · exact hold.sub ev hev hdir
        · rw [(hmid ev hev).2.1] at hdir
          cases hdir
      intro ev hev hf
      rw [hw.fat]
      obtain ⟨hev, hne⟩ | hev := kid_cases hitems hlen hhere hev
      · rw [hregions]
        · exact hold.file ev hev hf
        · intro heq
          exact hne ((Obj.file.inj heq).2.trans hpos.symm)
      · obtain ⟨hp, -, hc⟩ := hmid ev hev
        rw [hp, hnew]
        exact hc
    · have hd := h.dir q' hq'
      refine hd.frame (hsame q' hne) (hregions _ (by simp)) rfl (hkeep _ (by simpa using hne))
        (fun ev hev hdir => ⟨(hd.sub ev hev hdir).1, rfl⟩) ?_
      intro ev hev hf
      rw [hregions _ (by simp [hne]), hw.fat]
      exact hd.file ev hev hf
  · intro q' pos'
    by_cases heq : Obj.file q' pos' = .file q pos
    · have hdata : (L.replace q (front ++ (mid ++ back)) pos l bs).data (.file q pos) = bs :=
        update_self _ _ _
      rw [heq, hnew, hdata, ← hbs]
      refine view_bytes_congr ?_ le_rfl
      intro x hx
      exact hw.dat x (hother x hx _ (by simp))
    · have hdata : (L.replace q (front ++ (mid ++ back)) pos l bs).data (.file q' pos') =
          L.data (.file q' pos') := update_of_ne heq _ _
      rw [hregions _ heq, hdata, ← h.data q' pos']
      exact view_bytes_congr (fun x hx => (hkeep _ (by simp) x hx).2) le_rfl
  · intro o ho
    by_cases heq : o = .file q pos
    · subst heq
      rw [hnew] at ho
      obtain ⟨ev, hev, hk⟩ := hlive ho
      refine ⟨hq, ev, ?_, (hmid ev hev).2.1, (hmid ev hev).1⟩
      rw [Layout.mem_kids, Layout.entries, hhere, entries_replaced hlen]
      exact ⟨mem_append_right _ (mem_append_left _ hev), hk⟩
    rw [hregions o heq] at ho
    have hhas := h.live o ho
    cases o with
    | dir q' => exact hhas
    | file q' pos' =>
      obtain ⟨hq', ev, hev, hf, rfl⟩ := hhas
      refine ⟨hq', ev, ?_, hf, rfl⟩
      by_cases hne : q' = q
      · subst hne
        refine kid_stays hitems hlen hev ?_ hhere
        rw [hpos]
        intro hp
        exact heq (by rw [hp])
      · rwa [Layout.kids_congr (hsame q' hne)]
  · refine h.owns.update hother ?_ ?_ ?_
    · rintro x ⟨hlost | hfile, hxl⟩
      · exact ⟨(h.owns.lost x hlost).1, hxl, fun o _ => (h.owns.lost x hlost).2 o⟩
      · refine ⟨?_, hxl, fun o ho => h.owns.notMem ho.symm hfile⟩
        exact (h.region hfile).resolve_left fun h0 => by cases h0.1
    · intro x hx hno
      rw [hw.fat, h.owns.used x hx]
      by_cases hxl : x ∈ l
      · refine ⟨fun _ => Or.inr hxl, fun _ => ?_⟩
        exact (hl x hxl).imp_right fun hfile => ⟨_, hfile⟩
      constructor
      · rintro (hlost | ⟨o, ho⟩)
        · exact Or.inl ⟨Or.inl hlost, hxl⟩
        · by_cases heq : o = .file q pos
          · exact Or.inl ⟨Or.inr (heq ▸ ho), hxl⟩
          · exact absurd ho (hno o heq)
      · rintro (⟨hlost | hfile, -⟩ | hxl')
        · exact Or.inl hlost
        · exact Or.inr ⟨_, hfile⟩
        · exact absurd hxl' hxl
    · intro o _ x hx _
      rw [hw.fat]
      exact h.taken hx

theorem removeDir (h : Holds fs v L) {c : ℕ} (hc : c ≠ 0)
    (hno : ∀ q ∈ L.dirs, q ≠ c → ∀ ev ∈ L.kids q, ev.isDir = true → ev.cluster ≠ c) :
    Holds fs v (L.removeDir c) := by
  have hregions : ∀ o : Obj, o.home ≠ c → (L.removeDir c).regions o = L.regions o :=
    fun o ho => if_neg ho
  have hnil : ∀ o : Obj, o.home = c → (L.removeDir c).regions o = [] := fun o ho => if_pos ho
  refine ⟨h.reserved, ⟨h.root, hc.symm⟩, ?_, ?_, ?_, ?_⟩
  · rintro q ⟨hq, hne⟩
    have hd := h.dir q hq
    refine hd.frame rfl (hregions _ hne) rfl (fun _ _ => ⟨rfl, rfl⟩) ?_ ?_
    · intro ev hev hdir
      exact ⟨⟨(hd.sub ev hev hdir).1, hno q hq hne ev hev hdir⟩, rfl⟩
    · intro ev hev hf
      rw [hregions (.file q ev.pos) hne]
      exact hd.file ev hev hf
  · intro q pos
    by_cases hq : q = c
    · have hdata : (L.removeDir c).data (.file q pos) = [] := if_pos hq
      rw [hnil (.file q pos) hq, hdata, length_nil, zero_mul]
      rfl
    · have hdata : (L.removeDir c).data (.file q pos) = L.data (.file q pos) := if_neg hq
      rw [hregions (.file q pos) hq, hdata, h.data q pos]
  · intro o ho
    by_cases heq : o.home = c
    · exact absurd (hnil o heq) ho
    rw [hregions o heq] at ho
    have hhas := h.live o ho
    cases o with
    | dir q => exact ⟨hhas, heq⟩
    | file q pos => exact ⟨⟨hhas.1, heq⟩, hhas.2⟩
  · refine h.owns.forget hregions hnil ?_
    intro o ho x hx
    refine (h.region hx).resolve_left ?_
    rintro ⟨rfl, -⟩
    exact hc ho.symm

end Holds

end

end Vnu.Fat16
