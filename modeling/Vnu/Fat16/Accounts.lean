import Vnu.Fat16.Reading

/-!
In a run of careful calls every cluster in use belongs to a file or directory of the layout, and
every directory hangs below the root.
-/
namespace Vnu.Fat16

open Lib Lib.Ownership List Function Nat

variable {q' pos : ℕ} {more front back mid : List Item} {ext l : List ℕ} {ev : Entry} {g : Group}
  {bs : List UInt8}

def freeClusters (fs : Fs) (d : Disk) : ℕ :=
  (range' 2 (fs.maxCluster - 1)).countP fun c => fatGet fs c d == some 0

/-- The call does not start a chain it cannot finish, nor remove a directory with entries that only
look like `.` and `..`. -/
def Careful (fs : Fs) (d : Disk) (q : ℕ) (op : Op) : Prop :=
  op.Proper q ∧ (∀ ev, findEntry fs q op.name d = some ev → ev.cluster = 0 →
      ¬ (0 < freeClusters fs d ∧ freeClusters fs d < op.need fs)) ∧
    ∀ ev, op = .rmdir op.name → findEntry fs q op.name d = some ev → ev.isDir = true →
      dirOccupied fs ev.cluster d = false → (entries fs ev.cluster d).length ≤ 2

def Layout.Tidy (L : Layout) : Prop := L.lost = ∅ ∧ ∀ q ∈ L.dirs, L.Rooted q

section

variable {L L' : Layout}

theorem Layout.Rooted.mono
    (h : ∀ q ev, L.Rooted q → ev ∈ L.kids q → ev.isDir = true → ev ∈ L'.kids q) {q : ℕ}
    (hq : L.Rooted q) : L'.Rooted q := by
  induction hq with
  | root => exact .root
  | sub hq hev hdir ih => exact .sub ih (h _ _ hq hev hdir) hdir

theorem Layout.Rooted.congr (h : L'.items = L.items) {q : ℕ} (hq : L.Rooted q) : L'.Rooted q :=
  hq.mono fun q ev _ hev _ => by rwa [Layout.kids_congr (congrFun h q)]

theorem Layout.kid_append_old {q : ℕ}
    (hev : ev ∈ L.kids q') : ev ∈ (L.append q more ext).kids q' := by
  by_cases hne : q' = q
  · subst hne
    rw [Layout.mem_kids] at hev ⊢
    rw [Layout.entries_append]
    exact ⟨mem_append_left _ hev.1, hev.2⟩
  · rwa [Layout.kids_congr (L := L) (update_of_ne hne _ _)]

theorem Layout.kid_edit_old {q : ℕ} (hitems : L.items q = front ++ .live g :: back)
    (hlen : (itemSlots mid).length = g.slots.length) (hev : ev ∈ L.kids q')
    (hne : ¬ (q' = q ∧ ev.pos = (g.entry (endOf front)).pos)) :
    ev ∈ (L.edit q (front ++ (mid ++ back)) pos l bs).kids q' := by
  by_cases hq : q' = q
  · subst hq
    exact Holds.kid_stays hitems hlen hev (fun heq => hne ⟨rfl, heq⟩) (update_self _ _ _)
  · rwa [Layout.kids_congr (L := L) (update_of_ne hq _ _)]

end

section

variable {fs : Fs} (hg : Geometry fs) {d : Disk}

include hg

theorem freeClusters_eq : freeClusters fs d =
    ((range' 2 (fs.maxCluster - 1)).filter fun c => (view fs d).fat c == 0).length := by
  rw [freeClusters, countP_eq_length_filter]
  congr 1
  apply filter_congr
  intro c hc
  rw [mem_range'_1] at hc
  rw [fatGet_eq hg d (by omega)]
  rfl

theorem Grown.length_eq {v' : View} (h : Grown fs (view fs d) v' [] l)
    (hfull : v'.Full fs) : l.length = freeClusters fs d := by
  rw [freeClusters_eq hg]
  apply Perm.length_eq
  rw [perm_ext_iff_of_nodup h.nodup ((nodup_range').filter _)]
  intro c
  rw [mem_filter, mem_range'_1, beq_iff_eq]
  constructor
  · intro hc
    obtain ⟨⟨hlo, hhi⟩, hfree⟩ := h.fresh c hc
    exact ⟨⟨hlo, by omega⟩, hfree⟩
  · rintro ⟨⟨hlo, hhi⟩, hfree⟩
    by_contra hno
    have hr : fs.InRange c := ⟨hlo, by omega⟩
    exact hfull c hr ((h.fat c hno (by simp)).trans hfree)

end

section

variable {fs : Fs} (hg : Geometry fs) {d : Disk} {L : Layout} (h : Holds fs (view fs d) L) {q : ℕ}
  (hq : q ∈ L.dirs)

theorem Layout.new_kid
    (hdots : q ≠ 0 → ∃ p rest, L.items q = .live (dotGroup q) :: .live (dotdotGroup p) :: rest)
    (hev : ev ∈ entriesAt (endOf (L.items q)) more)
    (hvol : ev.isVolume = false) : ev ∈ (L.append q more ext).kids q := by
  have hge := entriesAt_pos_ge hev
  rw [Layout.mem_kids, Layout.entries_append]
  refine ⟨mem_append_right _ hev, ?_⟩
  rw [isKid, hvol]
  by_cases hne : q = 0
  · simp [hne]
  obtain ⟨p, rest, hitems⟩ := hdots hne
  have hpos : 64 ≤ ev.pos := by
    rw [hitems, endOf_cons, endOf_cons, ← add_assoc] at hge
    exact Nat.le_of_add_right_le hge
  simp [hpos]

include hg h hq in
theorem Holds.kids_nil (hne : q ≠ 0) (hlen : (entries fs q d).length ≤ 2) : L.kids q = [] := by
  obtain ⟨rest, hitems⟩ := (h.dir q hq).dots hne
  rw [h.entries_eq hg hq, Layout.entries, hitems] at hlen
  have hrest : entriesAt (32 * (dotGroup q).slots.length +
      32 * (dotdotGroup (L.parent q).1).slots.length) rest = [] := by
    simp only [entriesAt, length_cons, zero_add] at hlen
    exact length_eq_zero_iff.mp (by omega)
  rw [Layout.kids, Layout.entries, hitems]
  simp only [entriesAt, zero_add, hrest, dotGroup_entry, dotdotGroup_entry]
  simp [isKid, hne, dotGroup, dotEntry, Group.bare, Group.slots]

theorem Layout.Rooted.edited (hitems : L.items q = front ++ .live g :: back)
    (hlen : (itemSlots mid).length = g.slots.length) (hev : g.entry (endOf front) ∈ L.kids q)
    (hfile : (g.entry (endOf front)).isDir = false)
    (hq' : L.Rooted q') : (L.edit q (front ++ (mid ++ back)) pos l bs).Rooted q' := by
  refine hq'.mono fun p ev _ hmem hdir => Layout.kid_edit_old hitems hlen hmem ?_
  rintro ⟨rfl, hpos⟩
  rw [Layout.kids_pos_inj hmem hev hpos, hfile] at hdir
  cases hdir

theorem Layout.Rooted.pruned (pos : ℕ) {c : ℕ}
    (l : List ℕ) (bs : List UInt8) (hitems : L.items q = front ++ .live g :: back)
    (hlen : (itemSlots mid).length = g.slots.length) (hev : g.entry (endOf front) ∈ L.kids q)
    (hc : (g.entry (endOf front)).cluster = c) (hkids : L.kids c = [])
    (hq' : L.Rooted q') (hne : q' ≠ c) :
    (L.edit q (front ++ (mid ++ back)) pos l bs).Rooted q' := by
  induction hq' with
  | root => exact .root
  | @sub p ev hp hmem hdir ih =>
    have hpc : p ≠ c := by
      rintro rfl
      rw [hkids] at hmem
      cases hmem
    refine .sub (ih hpc) (Layout.kid_edit_old hitems hlen hmem ?_) hdir
    rintro ⟨rfl, hpos⟩
    rw [Layout.kids_pos_inj hmem hev hpos] at hne
    exact hne hc

end

theorem newEntry_dir (fs : Fs) (q : ℕ) (name : List UInt8) (c : ℕ) (d : Disk) (slots pos : ℕ) :
    (newEntry fs q name c 0 d attrDir slots pos).isVolume = false ∧
      (newEntry fs q name c 0 d attrDir slots pos).isDir = true :=
  ⟨show (attrDir &&& attrVolume != 0) = false by decide,
    show (attrDir &&& attrDir != 0) = true by decide⟩

theorem located_slots (g : Group) (nf size : ℕ) :
    (itemSlots [Item.live (g.located nf size)]).length = g.slots.length := by
  simp [Item.slots, Group.slots, Group.located]

theorem careful_tidy {fs : Fs} (hg : Geometry fs) : Invariant Careful fs Layout.Tidy where
  proper h := h.1
  fresh label := by
    refine ⟨rfl, ?_⟩
    rintro q rfl
    exact .root
  change := by
    intro d L q op L' h hq hL hfits hC hc
    obtain ⟨hlost, hroot⟩ := hL
    cases hc with
    | extend op ext | create ext hfind hslots hentry =>
      exact ⟨hlost, fun q' hq' => (hroot q' hq').mono fun _ _ _ hev _ => Layout.kid_append_old hev⟩
    | @mkdir name c g ext hfind hr hfree hslots hentry =>
      have hc : q ≠ c := h.ne_free hq hfree
      refine ⟨?_, ?_⟩
      · show L.lost \ {c} = ∅
        rw [hlost, Set.empty_sdiff]
      have hold : ∀ q' ∈ L.dirs, ((L.addDir c q (g.entry (endOf (L.items q))).pos
          ).append q [.live g] ext).Rooted q' := by
        intro q' hq'
        refine (hroot q' hq').mono fun p ev hp hmem _ => Layout.kid_append_old ?_
        rwa [addDir_kids (h.ne_free (h.rooted_mem hp) hfree)]
      rintro q' (rfl | hq')
      · have hcluster : ∀ pos, (g.entry pos).cluster = q' := by
          intro pos
          rw [hentry]
          exact Nat.mod_eq_of_lt (by have := hr.2; have := hg.max_le; omega)
        have hitems : ∀ pos, (L.addDir q' q pos).items q = L.items q := fun pos =>
          update_of_ne hc _ _
        have hnew := Layout.Rooted.sub (hold q hq) (Layout.new_kid (by
          intro hne
          rw [hitems]
          exact ⟨_, (h.dir q hq).dots hne⟩) (mem_singleton.mpr rfl)
          (by rw [hentry]; exact (newEntry_dir fs q name q' d _ _).1))
          (by rw [hentry]; exact (newEntry_dir fs q name q' d _ _).2)
        rwa [hcluster] at hnew
      · exact hold q' hq'
    | unlink hfind hev hfile hitems hentry =>
      subst hentry
      exact ⟨hlost, fun q' hq' => (hroot q' hq').edited hitems (Group.erased_slots _) hev hfile⟩
    | @rmdir name ev front back g hfind hev hdir hitems hentry hempty =>
      have hsub := (h.dir q hq).sub ev hev hdir
      have hkids : L.kids ev.cluster = [] := by
        refine h.kids_nil hg hsub.1 hsub.2.1 (hC.2.2 ev rfl hfind hdir ?_)
        rw [dirOccupied_eq, h.entries_eq hg hsub.1, any_eq_false]
        intro e he
        simp [hempty e he]
      subst hentry
      refine ⟨?_, fun q' hq' => ?_⟩
      · show L.lost ∪ _ = ∅
        rw [hlost, Set.empty_union, Set.eq_empty_iff_forall_notMem]
        rintro x ⟨pos', hx⟩
        obtain ⟨-, e, he, -⟩ := h.live _ (ne_nil_of_mem hx)
        rw [hkids] at he
        cases he
      · exact Layout.Rooted.congr (by rfl)
          ((hroot q' hq'.1).pruned 0 [] [] hitems (Group.erased_slots _) hev rfl hkids hq'.2)
    | write hfind hev hfile hbuf hend hw =>
      obtain ⟨front, g, back, new, nf, hitems, rfl, -, rfl⟩ := hw
      exact ⟨hlost, fun q' hq' =>
        (hroot q' hq').edited hitems (located_slots g nf _) hev hfile⟩
    | truncate hfind hev hfile ht =>
      obtain ⟨front, g, back, nf, l, bs, hitems, rfl, rfl, -⟩ := ht
      exact ⟨hlost, fun q' hq' =>
        (hroot q' hq').edited hitems (located_slots g nf _) hev hfile⟩
    | overrun hev hfile hend hlt hlen | starve hev hfile hold => exact ⟨hlost, fun q' hq' =>
      Layout.Rooted.congr (by rfl) (hroot q' hq')⟩
    | @leak op ev l v' hfind hev hfile hnil hgrown hshort hfull =>
      have hchain := (h.dir q hq).file ev hev hfile
      rw [hnil] at hchain
      have hfree := hgrown.length_eq hg hfull
      have hnone : l = [] := by
        have hno := hC.2.1 ev hfind hchain.head
        exact length_eq_zero_iff.mp (by omega)
      refine ⟨?_, fun q' hq' => Layout.Rooted.congr (by rfl) (hroot q' hq')⟩
      rw [hlost, hnone]
      simp

end Vnu.Fat16
