import Vnu.Fat16.Naming

/-!
Short names within a directory stay distinct as long as every new entry gets one that is not there
yet. A name that is its own short name is not compared with the mangled ones.
-/
namespace Vnu.Fat16

open Lib List Function

variable {fs : Fs} {d : Disk} {front back : List Item} {g : Group} {pos : ℕ} {l ext : List ℕ}
  {bs : List UInt8}

def sfns (evs : List Entry) : List (List UInt8) :=
  (evs.filter fun ev => !ev.isVolume).map Entry.sfn

/-- The 8.3 form of a native name is free, or one of the numbered forms of another. -/
def FreshShort (fs : Fs) (d : Disk) (q : ℕ) (name : List UInt8) : Prop :=
  if isNative name then
    dirHasSfn fs q ((buildShort name).base ++ (buildShort name).ext) d = false
  else ∃ n, 1 ≤ n ∧ n ≤ 999999 ∧ dirHasSfn fs q (candidate (buildShort name) n) d = false

def FreshNames (fs : Fs) (d : Disk) (q : ℕ) (op : Op) : Prop :=
  op.Proper q ∧ (op = .create op.name ∨ op = .mkdir op.name →
    findEntry fs q op.name d = none → FreshShort fs d q op.name)

theorem uniqueLoop_fresh {q : ℕ} {s : Short} {fuel n m : ℕ} (hn : n ≤ m)
    (hm : m < n + fuel) (hfree : dirHasSfn fs q (candidate s m) d = false) :
    dirHasSfn fs q (uniqueLoop fs q s d fuel n) d = false := by
  induction fuel generalizing n with
  | zero => omega
  | succ fuel ih =>
    rw [uniqueLoop]
    split
    · rename_i htaken
      have hne : n ≠ m := by
        rintro rfl
        rw [hfree] at htaken
        cases htaken
      exact ih (by omega) (by omega)
    · rename_i hno
      simpa using hno

theorem FreshShort.newSfn {q : ℕ} {name : List UInt8}
    (h : FreshShort fs d q name) : dirHasSfn fs q (newSfn fs q name d) d = false := by
  rw [FreshShort] at h
  rw [Fat16.newSfn]
  split at h
  · rename_i hnative
    simpa [hnative] using h
  · rename_i hnative
    obtain ⟨n, hlo, hhi, hfree⟩ := h
    simp only [hnative]
    exact uniqueLoop_fresh hlo (by omega) hfree

theorem notMem_sfns {q : ℕ} {sfn : List UInt8}
    (h : dirHasSfn fs q sfn d = false) : sfn ∉ sfns (entries fs q d) := by
  rw [dirHasSfn_eq, any_eq_false] at h
  intro hmem
  obtain ⟨ev, hev, rfl⟩ := mem_map.mp hmem
  rw [mem_filter] at hev
  exact h ev hev.1 (by simp [hev.2, sfnEqual])

theorem sfns_append (a b : List Entry) : sfns (a ++ b) = sfns a ++ sfns b := by
  simp [sfns]

theorem sfns_relocated (evs : List Entry) (pos nf size : ℕ) :
    sfns (evs.map (Entry.relocated pos nf size)) = sfns evs := by
  have hsfn : Entry.sfn ∘ Entry.relocated pos nf size = Entry.sfn := by
    funext ev
    simp only [comp, Entry.relocated]
    split <;> rfl
  have hvol : (fun ev : Entry => !ev.isVolume) ∘ Entry.relocated pos nf size =
      fun ev => !ev.isVolume := by
    funext ev
    simp only [comp, Entry.relocated]
    split <;> rfl
  rw [sfns, filter_map, map_map, hsfn, hvol, sfns]

theorem sfns_sublist {a b : List Entry} (h : a.Sublist b) : (sfns a).Sublist (sfns b) :=
  (h.filter _).map _

def Layout.Distinct (L : Layout) : Prop := ∀ q ∈ L.dirs, (sfns (L.entries q)).Nodup

section

variable {L : Layout} {q q' : ℕ}

theorem Layout.entries_erased
    (hitems : L.items q = front ++ .live g :: back) (pos : ℕ) (l : List ℕ) (bs : List UInt8) :
    ((L.edit q (front ++ (g.erased ++ back)) pos l bs).entries q).Sublist (L.entries q) := by
  have hitems' : (L.edit q (front ++ (g.erased ++ back)) pos l bs).items q =
      front ++ (g.erased ++ back) := update_self _ _ _
  rw [Layout.entries, hitems', Holds.entries_replaced g.erased_slots, Holds.entries_split hitems,
    g.entriesAt_erased]
  exact (sublist_cons_self _ _).append_left _

theorem Layout.edit_other {items : List Item}
    (hne : q' ≠ q) : (L.edit q items pos l bs).entries q' = L.entries q' :=
  congrArg (entriesAt 0) (update_of_ne hne _ _)

theorem Layout.append_other {more : List Item} (hne : q' ≠ q) :
    (L.append q more ext).entries q' = L.entries q' :=
  congrArg (entriesAt 0) (update_of_ne hne _ _)

theorem Layout.Distinct.erased (hL : L.Distinct) (hitems : L.items q = front ++ .live g :: back) :
    (L.edit q (front ++ (g.erased ++ back)) pos l bs).Distinct := by
  intro q' hq'
  by_cases hne : q' = q
  · subst hne
    exact (hL q' hq').sublist (sfns_sublist (Layout.entries_erased hitems pos l bs))
  · rw [Layout.edit_other hne]
    exact hL q' hq'

theorem Layout.Distinct.located (hL : L.Distinct)
    (hitems : L.items q = front ++ .live g :: back) {nf size : ℕ} :
    (L.edit q (front ++ .live (g.located nf size) :: back) pos l bs).Distinct := by
  intro q' hq'
  by_cases hne : q' = q
  · subst hne
    rw [Layout.entries_located hitems, sfns_relocated]
    exact hL q' hq'
  · rw [Layout.edit_other hne]
    exact hL q' hq'

theorem Layout.Distinct.append (hL : L.Distinct)
    (hnew : (g.entry (endOf (L.items q))).sfn ∉ sfns (L.entries q)) :
    (L.append q [.live g] ext).Distinct := by
  intro q' hq'
  by_cases hne : q' = q
  · subst hne
    rw [Layout.entries_append, sfns_append, nodup_append']
    refine ⟨hL q' hq', ?_, ?_⟩
    · simp only [entriesAt]
      exact (nodup_singleton _).sublist ((filter_sublist).map _)
    intro sfn hold hmem
    obtain ⟨ev, hev, rfl⟩ := mem_map.mp hmem
    have hev := (mem_filter.mp hev).1
    simp only [entriesAt, mem_singleton] at hev
    exact hnew (hev ▸ hold)
  · rw [Layout.append_other hne]
    exact hL q' hq'

end

theorem Layout.Distinct.addDir {L : Layout} {q c : ℕ} (hL : L.Distinct) :
    (L.addDir c q pos).Distinct := by
  intro q' hq'
  by_cases hne : q' = c
  · subst hne
    have hitems : (L.addDir q' q pos).items q' =
        [.live (dotGroup q'), .live (dotdotGroup q)] := update_self _ _ _
    have hdir : (attrDir &&& attrVolume != 0) = false := by decide
    simp only [Layout.entries, hitems, entriesAt, dotGroup_entry, dotdotGroup_entry]
    simp [sfns, Entry.isVolume, hdir]
  · have hentries : (L.addDir c q pos).entries q' = L.entries q' :=
      congrArg (entriesAt 0) (update_of_ne hne _ _)
    rw [hentries]
    exact hL q' (hq'.resolve_left hne)

theorem freshLayout_distinct (label : List UInt8) : (freshLayout label).Distinct := by
  rintro q rfl
  have hnil : (((freshLayout label).entries 0).filter fun ev => !ev.isVolume) = [] := by
    rw [filter_eq_nil_iff]
    intro ev hev
    have hvol := labelItems_volume (show ev ∈ entriesAt 0 (labelItems label) from hev)
    simp [hvol]
  rw [sfns, hnil]
  exact nodup_nil

theorem freshNames_distinct (hg : Geometry fs) :
    Invariant FreshNames fs Layout.Distinct where
  proper h := h.1
  fresh := freshLayout_distinct
  change := by
    intro d L q op L' h hq hL hfits hC hc
    cases hc with
    | extend op ext =>
      intro q' hq'
      by_cases hne : q' = q
      · subst hne
        rw [Layout.entries_append, entriesAt, append_nil]
        exact hL q' hq'
      · rw [Layout.append_other hne]
        exact hL q' hq'
    | create ext hfind hslots hentry =>
      apply hL.append
      rw [hentry, ← h.entries_eq hg hq]
      exact notMem_sfns (hC.2 (Or.inl rfl) hfind).newSfn
    | @mkdir name c g ext hfind hr hfree hslots hentry =>
      apply hL.addDir.append
      have hentries : ∀ pos, (L.addDir c q pos).entries q = L.entries q := fun pos =>
        congrArg (entriesAt 0) (update_of_ne (h.ne_free hq hfree) _ _)
      simp only [hentry, hentries, ← h.entries_eq hg hq]
      exact notMem_sfns (hC.2 (Or.inr rfl) hfind).newSfn
    | unlink hfind hev hfile hitems hentry => exact hL.erased hitems
    | rmdir hfind hev hdir hitems hentry hempty =>
      intro q' hq'
      exact hL.erased hitems q' hq'.1
    | write hfind hev hfile hbuf hend hw =>
      obtain ⟨front, g, back, new, nf, hitems, -, -, rfl⟩ := hw
      exact hL.located hitems
    | truncate hfind hev hfile ht =>
      obtain ⟨front, g, back, nf, l, bs, hitems, -, rfl, -⟩ := ht
      exact hL.located hitems
    | overrun hev hfile hend hlt hlen | starve hev hfile hold
    | leak hfind hev hfile hnil hgrown hshort hfull =>
      exact hL

/-- Short names are distinct in a run in which new entries find a free one. -/
theorem reachable_sfns_nodup {fs : Fs} {d : Disk} {q : ℕ} (hr : Reachable FreshNames fs d)
    (hq : LiveDir fs d q) : (sfns (entries fs q d)).Nodup := by
  have hg := hr.geometry
  obtain ⟨L, h, hL⟩ := hr.holds (freshNames_distinct hg)
  have hmem := h.liveDir_mem hg hq
  rw [h.entries_eq hg hmem]
  exact hL q hmem

def longName : List UInt8 :=
  [0x6C, 0x6F, 0x6E, 0x67, 0x66, 0x69, 0x6C, 0x65, 0x6E, 0x61, 0x6D, 0x65, 0x2E, 0x74, 0x78, 0x74]

def tildeName : List UInt8 :=
  [0x6C, 0x6F, 0x6E, 0x67, 0x66, 0x69, 0x7E, 0x31, 0x2E, 0x74, 0x78, 0x74]

/-- `longfilename.txt` and then `longfi~1.txt` have the short name `LONGFI~1.TXT`. -/
theorem sfns_clash : ∃ d, Reachable ProperCall sampleFs d ∧
    ¬ (sfns (entries sampleFs 0 d)).Nodup := by
  have hr₁ : Reachable ProperCall sampleFs (Op.run sampleFs 0 (.create longName) sampleDisk).2 :=
    .step (sample_reachable _) .root trivial trivial
  have hr₂ : Reachable ProperCall sampleFs (Op.run sampleFs 0 (.create tildeName)
      (Op.run sampleFs 0 (.create longName) sampleDisk).2).2 := .step hr₁ .root trivial trivial
  exact ⟨_, hr₂, by decide +kernel⟩

theorem sfns_nodup_sample : ∃ d, create sampleFs 0 [0x41] sampleDisk = (some (), d) ∧
    (sfns (entries sampleFs 0 d)).Nodup := by
  have hfresh : FreshNames sampleFs sampleDisk 0 (.create [0x41]) := by
    refine ⟨trivial, fun _ _ => show dirHasSfn sampleFs 0 _ sampleDisk = false from ?_⟩
    rw [dirHasSfn_eq, any_eq_false]
    intro ev hev
    simp [sample_volume ev hev]
  have hr : Reachable FreshNames sampleFs (Op.run sampleFs 0 (.create [0x41]) sampleDisk).2 :=
    .step (sample_reachable _) .root trivial hfresh
  exact ⟨_, Act.run_eq_of_fst (sample_runs.1.1 _ (by simp)), reachable_sfns_nodup hr .root⟩

end Vnu.Fat16
