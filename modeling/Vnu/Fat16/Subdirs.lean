import Vnu.Fat16.Lookup

/-!
`mkdir` on a volume that holds a layout: it takes a free cluster for the new directory, and frees it
again when its entry cannot be appended.
-/
namespace Vnu.Fat16

open Lib Lib.Blocks List Function Act Nat

theorem flat_singleton {α : Type*} {mem : ℕ → ℕ → α} {n c i : ℕ} (hi : i < n) :
    flat mem n [c] i = mem c i := by
  simp [flat, Nat.div_eq_of_lt hi, Nat.mod_eq_of_lt hi]

section

variable {fs : Fs} (hg : Geometry fs)
include hg

/-- Only the new cluster is written, and its first two slots are the dot entries. -/
theorem initSubdir_ends (d : Disk) {c parent : ℕ} (hc : fs.InRange c) :
    (initSubdir fs c parent).Ends d
      (fun _ d' => Within (view fs d) (view fs d') [c] ∧ (view fs d').slots fs c [c] =
        itemSlots [.live (dotGroup c), .live (dotdotGroup parent)] ++
          ((view fs d).slots fs c [c]).drop 2)
      fun _ => False := by
  have hspc := hg.spc_pos
  have hsecs : fs.regionSectors c = fs.spc := by
    have := hc.1
    simp [Fs.regionSectors]
    omega
  have hread := devRead_eq hg d (clusterToSector fs c)
  simp only [initSubdir, ends_bind, ends_query_some hread]
  apply devWrite_ends hg
  have hstart : clusterToSector fs c = fs.regionStart c + 0 := (regionStart_cluster hg hc).symm
  rw [hstart]
  obtain ⟨src, hsrc⟩ : ∃ src : Buf, src = fun i =>
      if hi : i < 32 then (dotGroup c).short ⟨i, hi⟩
      else if hi : i - 32 < 32 then (dotdotGroup parent).short ⟨i - 32, hi⟩ else 0 := ⟨_, rfl⟩
  have hbuf : ∀ j, j < 512 → putSlot (putSlot (d (fs.lba (fs.regionStart c + 0))) 0
      (dotGroup c).short) 32 (dotdotGroup parent).short j =
      if 0 ≤ j ∧ j < 0 + 64 then src (j - 0) else d (fs.lba (fs.regionStart c + 0)) j := by
    intro j _
    simp only [putSlot]
    grind
  have hview := view_edit_region hg d (region_of_inRange hc) (by omega)
    (show 0 + 64 ≤ 512 by decide) src hbuf
  change Within _ (view fs (update d _ (putSlot (putSlot _ 0 (dotGroup c).short) 32
    (dotdotGroup parent).short))) [c] ∧ (view fs (update d _ (putSlot (putSlot _ 0
    (dotGroup c).short) 32 (dotdotGroup parent).short))).slots fs c [c] = _
  rw [hview]
  refine ⟨⟨rfl, ?_⟩, ?_⟩
  · intro r hr
    exact patch_dat_other _ _ _ _ (by simpa using hr)
  have hlen : 2 ≤ ((view fs d).slots fs c [c]).length := by
    rw [slots_length, length_singleton]
    omega
  apply ext_getElem
  · rw [length_append, length_drop, slots_length]
    rw [slots_length] at hlen ⊢
    change _ = 2 + _
    omega
  intro k h1 h2
  funext j
  have hj := j.isLt
  have hk : 32 * k + j < fs.regionBytes c := by
    rw [slots_length, length_singleton] at h1
    rw [Fs.regionBytes]
    omega
  rw [slots_getElem, flat_singleton hk]
  rcases k with _ | _ | k
  · rw [patch_dat_in (by omega) (by omega), hsrc]
    simp only [mul_zero, zero_add]
    exact dif_pos hj
  · have hsub : 32 + j.val - 32 < 32 := by omega
    rw [patch_dat_in (by omega) (by omega), hsrc]
    simp only [zero_mul, add_zero, Nat.sub_zero]
    rw [dif_neg (by omega), dif_pos hsub]
    exact congrArg (dotdotGroup parent).short (Fin.ext (Nat.add_sub_cancel_left 32 j))
  have hlt : k + 2 < ((view fs d).slots fs c [c]).length := by
    rw [slots_length] at h1 ⊢
    exact h1
  have hslot : (itemSlots [.live (dotGroup c), .live (dotdotGroup parent)] ++
      ((view fs d).slots fs c [c]).drop 2)[k + 2] = ((view fs d).slots fs c [c])[k + 2] := by
    rw [getElem_append_right (le_add_left 2 k), getElem_drop]
    congr 1
    change 2 + (k + 2 - 2) = k + 2
    omega
  rw [patch_dat_out (by omega), hslot, slots_getElem, flat_singleton hk]

end

theorem newSfn_congr {fs : Fs} {q : ℕ} {d d' : Disk}
    (h : Fat16.entries fs q d' = Fat16.entries fs q d) (name : List UInt8) :
    newSfn fs q name d' = newSfn fs q name d := by
  have hloop : ∀ s fuel n, uniqueLoop fs q s d' fuel n = uniqueLoop fs q s d fuel n := by
    intro s fuel
    induction fuel with
    | zero => exact fun _ => rfl
    | succ fuel ih =>
      intro n
      simp only [uniqueLoop, dirHasSfn_eq, h, ih]
  simp only [newSfn, makeUniqueSfn, hloop]

theorem buildEntries_congr {fs : Fs} {q : ℕ} {d d' : Disk}
    (h : Fat16.entries fs q d' = Fat16.entries fs q d) (name : List UInt8) (attr : UInt8)
    (cluster size : ℕ) :
    buildEntries fs q name attr cluster size d' = buildEntries fs q name attr cluster size d := by
  simp only [buildEntries, newSfn_congr h]

theorem slots_zero {fs : Fs} {v : View} {c : ℕ} (h : v.dat c = fun _ => 0) :
    ∀ e ∈ v.slots fs c [c], e = fun _ => 0 := by
  intro e he
  simp only [View.slots, mem_map, mem_range] at he
  obtain ⟨k, hk, rfl⟩ := he
  funext j
  rw [flat_singleton, h]
  rw [length_singleton] at hk
  omega

theorem ended_of_zero {es : List Slot} (h : ∀ e ∈ es, e = fun _ => 0) : Ended es := by
  intro e he
  rw [h e (List.mem_of_mem_head? he)]

section

variable {fs : Fs} (hg : Geometry fs) {d : Disk} {L : Layout} (h : Holds fs (view fs d) L) {q : ℕ}
  (hq : q ∈ L.dirs)

include h in
theorem Holds.newDir {d₁ d₂ : Disk} {c : ℕ} (hc : fs.InRange c) (hfree : (view fs d).fat c = 0)
    (hview : view fs d₁ = (view fs d).alloc fs 0 c) (hw : Within (view fs d₁) (view fs d₂) [c])
    (hslots : (view fs d₂).slots fs c [c] = itemSlots [.live (dotGroup c), .live (dotdotGroup q)] ++
        ((view fs d₁).slots fs c [c]).drop 2) :
    Holds fs (view fs d₂) { L with lost := insert c L.lost } ∧ (view fs d₂).fat c = 0xFFFF ∧
      ∀ pos, Holds fs (view fs d₂) (L.addDir c q pos) := by
  have hlost : c ∉ L.lost := (h.owns.unused hc (not_not.mpr hfree)).1
  have halloc := h.alloc hc hfree
  rw [← hview] at halloc
  have hmark : (view fs d₂).fat c = 0xFFFF := by
    rw [hw.fat, hview, alloc_fat]
    simp
  have hzero : (view fs d₁).dat c = fun _ => 0 := by
    rw [hview]
    exact alloc_dat_new d 0 hc
  have hinit : Holds fs (view fs d₂) { L with lost := insert c L.lost } :=
    halloc.write_lost (by simp) hw
  refine ⟨hinit, hmark, ?_⟩
  intro pos
  have htail : Ended (((view fs d₁).slots fs c [c]).drop 2) :=
    ended_of_zero fun e he => slots_zero hzero e (mem_of_mem_drop he)
  have hdir : Holds fs (view fs d₂) (Layout.addDir { L with lost := insert c L.lost } c q pos) :=
    hinit.addDir (Set.mem_insert c _) hmark hslots htail
  have hsame : (insert c L.lost) \ {c} = L.lost \ {c} := by
    rw [Set.insert_sdiff_self_of_notMem hlost, Set.sdiff_singleton_eq_self hlost]
  simp only [Layout.addDir, hsame] at hdir ⊢
  exact hdir

include hg in
theorem freeChain_new {d₁ : Disk} {c : ℕ} {L' : Layout} (hc : c ∉ L'.lost) (hr : fs.InRange c)
    (h₁ : Holds fs (view fs d₁) { L' with lost := insert c L'.lost })
    (hmark : (view fs d₁).fat c = 0xFFFF) :
    (attempt (freeChain fs c)).Ends d₁ (fun _ d' => Holds fs (view fs d') L')
      fun _ => False := by
  have hchain : Chain fs (view fs d₁).fat c [c] := ⟨rfl, ⟨hmark, trivial⟩, by simpa using hr⟩
  apply Ends.attempt
  refine (freeChain_ends hg d₁ hchain).imp ?_
  intro _ d' hview
  have hfree := h₁.reclaim (l := [c]) (by simp)
  rw [← hview] at hfree
  have hlost : {x | x ∈ insert c L'.lost ∧ x ∉ [c]} = L'.lost := by
    ext x
    simp only [mem_singleton]
    constructor
    · rintro ⟨hx | hx, hne⟩
      · exact absurd hx hne
      · exact hx
    · exact fun hx => ⟨Or.inr hx, fun hxc => hc (hxc ▸ hx)⟩
  simp only [hlost] at hfree
  exact hfree

include hg h hq in
/-- A `mkdir` that fails gives its cluster back. -/
theorem mkdir_ends (name : List UInt8) :
    (mkdir fs q name).Ends d
      (fun _ d' => findEntry fs q name d = none ∧ ∃ c g ext, fs.InRange c ∧ (view fs d).fat c = 0 ∧
        buildEntries fs q name attrDir c 0 d = some g.slots ∧
        (∀ pos, g.entry pos = newEntry fs q name c 0 d attrDir g.slots.length pos) ∧
        Holds fs (view fs d') ((L.addDir c q
          (g.entry (endOf (L.items q))).pos).append q [.live g] ext))
      (fun d' => ∃ ext, Holds fs (view fs d') (L.append q [] ext)) := by
  have hsame : ∃ ext, Holds fs (view fs d) (L.append q [] ext) := ⟨[], by rwa [L.append_nil]⟩
  simp only [mkdir, ends_bind, ends_query_total]
  cases hfind : findEntry fs q name d with
  | some ev => exact hsame
  | none =>
    simp only [Option.isSome_none, Bool.false_eq_true, if_false, ends_bind]
    refine (clusterAlloc_ends hg d (zero_le _)).mono ?_ ?_
    · rintro c d₁ ⟨hc, hfree, hview⟩
      have hnew := h.owns.unused hc (not_not.mpr hfree)
      apply Ends.onFail
      rw [ends_bind]
      refine (initSubdir_ends hg d₁ hc).imp ?_
      rintro _ d₂ ⟨hw, hslots⟩
      obtain ⟨hlost, hmark, hdir⟩ := h.newDir hc hfree hview hw hslots
      have hentries : Fat16.entries fs q d₂ = Fat16.entries fs q d := by
        rw [hlost.entries_eq hg hq, h.entries_eq hg hq]
        rfl
      have hbuild := buildEntries_congr hentries name attrDir c 0
      cases hes : buildEntries fs q name attrDir c 0 d with
      | none =>
        rw [hes] at hbuild
        rw [ends_bind, ends_query_none hbuild]
        refine (freeChain_new hg hnew.1 hc hlost hmark).imp ?_
        exact fun _ d' hd => ⟨[], by rwa [L.append_nil]⟩
      | some es =>
        obtain ⟨g, rfl, hentry⟩ := buildEntries_spec fs q name (Or.inr rfl) c 0 d hes
        rw [hes] at hbuild
        rw [ends_bind, ends_query_some hbuild]
        refine (hlost.dirAppend_ends hg hq g.slots).mono ?_ ?_
        · rintro _ d₃ ⟨ext, rest, hext, hs, hrest⟩
          refine ⟨trivial, c, g, ext, hc, hfree, hes, hentry, ?_⟩
          generalize hp : (g.entry (endOf (L.items q))).pos = pos
          have hqc : q ≠ c := by
            rintro rfl
            obtain ⟨rfl, -⟩ | ⟨h0, hchain⟩ := (h.dir q hq).area
            · exact absurd hc.1 (by decide)
            · exact hnew.2 _ (hchain.first_mem h0)
          have hitems : (L.addDir c q pos).items q = L.items q := update_of_ne hqc _ _
          have hregions : (L.addDir c q pos).regions (.dir q) = L.regions (.dir q) :=
            update_of_ne (by simpa using hqc) _ _
          have hev : ∀ ev ∈ entriesAt (endOf (L.items q)) [.live g],
              ev.pos = pos ∧ ev.cluster = c ∧ ev.isDir = true := by
            intro ev hev
            simp only [entriesAt, mem_singleton] at hev
            have hmax := hg.max_le
            have hrange := hc.2
            rw [hev, hp, hentry]
            exact ⟨rfl, Nat.mod_eq_of_lt (by omega), show (attrDir &&& attrDir != 0) =
              true by decide⟩
          refine (hdir pos).append (Set.mem_insert_of_mem _ hq) (by rwa [hregions]) ?_ hrest ?_ ?_
          · rw [hregions, hitems]
            exact hs.trans (by simp [Item.slots])
          · rw [hitems]
            intro ev he hf
            rw [(hev ev he).2.2] at hf
            cases hf
          rw [hitems]
          intro ev he _
          obtain ⟨hpos, hclus, -⟩ := hev ev he
          rw [hpos, hclus]
          refine ⟨Set.mem_insert _ _, ?_, hqc.symm, update_self _ _ _⟩
          have := hc.1
          omega
        · rintro d₃ ⟨⟨ext, hext, hholds⟩, -⟩
          have hmark₃ : (view fs d₃).fat c = 0xFFFF := by
            rw [hext.fat, hmark]
            rw [mem_append, not_or]
            refine ⟨hnew.2 _, fun hx => ?_⟩
            rw [(hext.fresh c hx).2] at hmark
            cases hmark
          have hlost₃ : c ∉ (L.append q [] ext).lost := hnew.1
          refine (freeChain_new hg hlost₃ hc hholds hmark₃).imp ?_
          exact fun _ d' hd => ⟨ext, hd⟩
    · rintro d' ⟨rfl, -⟩
      exact hsame

end

end Vnu.Fat16
