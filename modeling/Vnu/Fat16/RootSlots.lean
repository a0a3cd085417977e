import Vnu.Fat16.Naming

/-!
The slots of the root. Deleted slots are not taken again, so a root on which files come and go fills
up.
-/
namespace Vnu.Fat16

open Lib List Option Nat

def Unused (fs : Fs) (d : Disk) (k : ℕ) : Prop :=
  ∃ buf, dirReadSector fs 0 (32 * k / 512) d = some buf ∧ buf (32 * k % 512) = 0

section

variable {fs : Fs} (hg : Geometry fs) {d : Disk} {L : Layout} (h : Holds fs (view fs d) L)

include hg h

theorem Holds.root_slots : ∃ tail, (view fs d).slots fs 0 [0] = itemSlots (L.items 0) ++ tail ∧
    Ended tail ∧ (itemSlots (L.items 0)).length + tail.length = 512 := by
  obtain ⟨tail, hslots, htail⟩ := (h.dir 0 h.root).slots
  rw [h.root_region] at hslots
  refine ⟨tail, hslots, htail, ?_⟩
  rw [← length_append, ← hslots, slots_length, Fs.regionSectors, if_pos rfl, hg.rootSectors,
    length_singleton]

omit h in
theorem unused_iff {k : ℕ} (hk : k < 512) :
    Unused fs d k ↔ ∀ e ∈ ((view fs d).slots fs 0 [0])[k]?, e 0 = 0 := by
  have harea : Area fs (view fs d).fat 0 [0] := Or.inl ⟨rfl, rfl⟩
  have hlen : k < ((view fs d).slots fs 0 [0]).length := by
    rw [slots_length, Fs.regionSectors, if_pos rfl, hg.rootSectors]
    omega
  obtain ⟨buf, hbuf, hslot⟩ := readSlot_eq hg d harea hlen
  have hbyte : buf (32 * k % 512) = ((view fs d).slots fs 0 [0])[k] 0 := by
    rw [← hslot]
    rfl
  rw [getElem?_eq_getElem hlen]
  constructor
  · rintro ⟨buf', hbuf', hzero⟩ e he
    rw [hbuf, some.injEq] at hbuf'
    rw [← some.inj he, ← hbyte, hbuf']
    exact hzero
  · intro hzero
    exact ⟨buf, hbuf, hbyte.trans (hzero _ rfl)⟩

omit h in
theorem exists_unused_iff {used tail : List Slot}
    (hslots : (view fs d).slots fs 0 [0] = used ++ tail) (hused : ∀ e ∈ used, e 0 ≠ 0)
    (htail : Ended tail) : (∃ k < 512, Unused fs d k) ↔ tail ≠ [] := by
  have hlen := congrArg length hslots
  rw [slots_length, Fs.regionSectors, if_pos rfl, hg.rootSectors, length_singleton,
    length_append] at hlen
  constructor
  · rintro ⟨k, hk, hunused⟩ rfl
    rw [length_nil] at hlen
    have hk' : k < used.length := by omega
    rw [unused_iff hg hk, hslots, append_nil, getElem?_eq_getElem hk'] at hunused
    exact hused _ (getElem_mem hk') (hunused _ rfl)
  · intro hne
    have hpos := length_pos_of_ne_nil hne
    have hlt : used.length < 512 := by omega
    refine ⟨used.length, hlt, ?_⟩
    rw [unused_iff hg hlt, hslots, getElem?_append_right (le_refl _), Nat.sub_self,
      ← head?_eq_getElem?]
    exact htail

omit hg h in
theorem split_end (es : List Slot) :
    ∃ used tail, es = used ++ tail ∧ (∀ e ∈ used, e 0 ≠ 0) ∧ Ended tail := by
  refine ⟨es.takeWhile fun e => e 0 != 0, es.dropWhile fun e => e 0 != 0,
    takeWhile_append_dropWhile.symm, ?_, ?_⟩
  · intro e he
    simpa using mem_takeWhile_imp he
  · intro e he
    have hstop := head?_dropWhile_not (fun e : Slot => e 0 != 0) es
    rw [mem_def.mp he] at hstop
    simpa using hstop

end

/-- Creating a bare 8.3 name succeeds in the root exactly when some slot of it was never used, on
every disk of a mounted volume. -/
theorem create_root_iff {C : Fs → Disk → ℕ → Op → Prop} {fs : Fs} {d₀ : Disk}
    (hr : Reachable C fs d₀) {name : List UInt8} {d : Disk} (hnative : isNative name = true)
    (hnew : findEntry fs 0 name d = none) :
    (∃ d', create fs 0 name d = (some (), d')) ↔ ∃ k < 512, Unused fs d k := by
  have hg := hr.geometry
  have harea : Area fs (view fs d).fat 0 [0] := Or.inl ⟨rfl, rfl⟩
  obtain ⟨used, tail, hslots, hused, htail⟩ := split_end ((view fs d).slots fs 0 [0])
  rw [exists_unused_iff hg hslots hused htail]
  have hends : (create fs 0 name).Ends d (fun _ _ => tail ≠ []) fun _ => tail = [] := by
    simp only [create, Act.ends_bind, Act.ends_query_total, hnew, isSome_none,
      Bool.false_eq_true, if_false]
    rw [Act.ends_query_some (f := buildEntries fs 0 name attrArch 0 0)
      (show _ = some [shortSlot (newSfn fs 0 name d) attrArch (buildShort name).nt 0 0] by
        simp only [buildEntries, hnative, if_true])]
    refine (dirAppend_ends hg d harea hslots hused htail).mono ?_ ?_
    · -- the root has no more than its one region, so the new slot came out of the tail
      rintro _ d' ⟨ext, rest, hext, hslots', -⟩ rfl
      obtain ⟨-, hroot⟩ | ⟨hne, -⟩ := hext.area
      · have hlen := congrArg length hslots
        have hlen' := congrArg length hslots'
        rw [slots_length] at hlen hlen'
        rw [hroot] at hlen'
        simp only [length_append, length_nil, length_singleton] at hlen hlen'
        omega
      · exact absurd rfl hne
    · rintro d' ⟨ext, rest, -, -, -, hshort, -⟩
      rw [length_singleton] at hshort
      exact length_eq_zero_iff.mp (by omega)
  constructor
  · rintro ⟨d', hc⟩
    exact hends.of_some hc
  · intro hne
    obtain ⟨_, d', hd', -⟩ := (hends.mono (fun _ _ hq => hq) fun _ => hne).returns
    exact ⟨d', hd'⟩

section

variable {fs : Fs} {d d' : Disk} {L : Layout} {name : List UInt8}

theorem find_empty (hr : Reachable ProperCall fs d) (h : Holds fs (view fs d) L)
    (hkids : L.kids 0 = []) (name : List UInt8) : findEntry fs 0 name d = none := by
  cases hfind : findEntry fs 0 name d with
  | none => rfl
  | some ev =>
    have hev := (h.find_cases hr.geometry h.root hfind).resolve_right fun hdots => hdots.1 rfl
    rw [hkids] at hev
    cases hev

/-- Each pair of calls leaves one more deleted slot in front of the end mark. -/
theorem pair_step (hr : Reachable ProperCall fs d) (h : Holds fs (view fs d) L)
    (hkids : L.kids 0 = []) (hroom : (itemSlots (L.items 0)).length < 512)
    (hnative : isNative name = true) (hname : ciEqual (storedName name) name = true)
    (hfind : findEntry fs 0 name d = none) :
    ∃ d' L', Reachable ProperCall fs d' ∧ Holds fs (view fs d') L' ∧ L'.kids 0 = [] ∧
      (itemSlots (L'.items 0)).length = (itemSlots (L.items 0)).length + 1 := by
  have hg := hr.geometry
  obtain ⟨d₁, hc⟩ := create_native hg h h.root rfl hnative hfind hroom
  obtain ⟨-, g, ext, hbuild, hentry, h₁⟩ := (create_ends hg h h.root name).of_some hc
  have hr₁ : Reachable ProperCall fs (Op.run fs 0 (.create name) d).2 :=
    .step hr .root trivial trivial
  simp only [Op.run, hc] at hr₁
  have hone : g.slots.length = 1 := by
    simp only [buildEntries, hnative, if_true, some.injEq] at hbuild
    rw [← hbuild, length_singleton]
  have hused : (itemSlots ((L.append 0 [.live g] ext).items 0)).length =
      (itemSlots (L.items 0)).length + 1 := by
    rw [Layout.append_slots, itemSlots_cons, itemSlots_nil, append_nil, Item.slots, hone]
  have hkid : ∀ ev ∈ (L.append 0 [.live g] ext).kids 0, ev = g.entry (endOf (L.items 0)) := by
    intro ev hev
    rcases Layout.kid_append hev with hev | ⟨-, hev⟩
    · rw [hkids] at hev
      cases hev
    · simpa [entriesAt] using hev
  have hfile : ∀ ev ∈ (L.append 0 [.live g] ext).kids 0, ev.isDir = false := by
    intro ev hev
    rw [hkid ev hev, hentry]
    exact (newEntry_listed fs 0 name d _ _).2
  have hsome := create_find hg h h.root hc
  rw [hname, isSome_iff_exists] at hsome
  obtain ⟨ev, hev⟩ := hsome
  have hmem : ev ∈ (L.append 0 [.live g] ext).kids 0 :=
    (h₁.find_cases hg h₁.root hev).resolve_right fun hdots => hdots.1 rfl
  have hends : (unlink fs 0 name).Ends d₁ (fun _ d' => ∃ L', Holds fs (view fs d') L' ∧
      L'.kids 0 = [] ∧ (itemSlots (L'.items 0)).length = (itemSlots (L.items 0)).length + 1)
      fun _ => False := by
    refine (unlink_ends hg h₁ h₁.root name).mono ?_ ?_
    · rintro _ d' ⟨ev', front, g', back, hev', hkid', -, hitems, rfl, h'⟩
      refine ⟨_, h', ?_, ?_⟩
      · apply eq_nil_iff_forall_not_mem.mpr
        intro e he
        rcases Layout.kid_edit g'.erased hitems g'.erased_slots he with ⟨hold, hpos⟩ | ⟨-, hmid⟩
        · exact hpos rfl (by rw [hkid e hold, ← hkid _ hkid'])
        · rw [g'.entriesAt_erased] at hmid
          cases hmid
      · rw [← hused, hitems]
        simp only [Layout.edit, Function.update_self, itemSlots_append, itemSlots_cons, Item.slots,
          length_append, g'.erased_slots]
    · rintro d' ⟨-, hdir⟩
      have hboth := hdir ev hev
      rw [hfile ev hmem] at hboth
      cases hboth
  obtain ⟨_, d', hd', L', h', hkids', hused'⟩ := hends.returns
  have hr' : Reachable ProperCall fs (Op.run fs 0 (.unlink name) d₁).2 :=
    .step hr₁ .root trivial trivial
  simp only [Op.run, hd'] at hr'
  exact ⟨d', L', hr', h', hkids', hused'⟩

theorem pairs (n : ℕ) (hn : n ≤ 511) : ∃ d L, Reachable ProperCall sampleFs d ∧
    Holds sampleFs (view sampleFs d) L ∧ L.kids 0 = [] ∧
    (itemSlots (L.items 0)).length = n + 1 := by
  induction n with
  | zero => exact ⟨_, _, sample_reachable _, sample_holds.2, freshLayout_kids [] 0, by decide⟩
  | succ n ih =>
    obtain ⟨d, L, hr, h, hkids, hused⟩ := ih (by omega)
    obtain ⟨d', L', hr', h', hkids', hused'⟩ :=
      pair_step hr h hkids (by omega) (by decide) (by decide) (find_empty hr h hkids [0x41])
    exact ⟨d', L', hr', h', hkids', by omega⟩

end

/-- After 511 files were created and unlinked, no further file can be created in the root. -/
theorem root_used_up : ∃ d, Reachable ProperCall sampleFs d ∧
    (∀ ev ∈ entries sampleFs 0 d, ev.isVolume = true) ∧
    findEntry sampleFs 0 [0x41] d = none ∧ isNative [0x41] = true ∧
    ∀ d', create sampleFs 0 [0x41] d ≠ (some (), d') := by
  obtain ⟨d, L, hr, h, hkids, hused⟩ := pairs 511 (le_refl _)
  have hg := hr.geometry
  refine ⟨d, hr, ?_, find_empty hr h hkids _, by decide, ?_⟩
  · intro ev hev
    rw [h.entries_eq hg h.root] at hev
    by_contra hvol
    have hkid : ev ∈ L.kids 0 := Layout.mem_kids.mpr ⟨hev, by simpa [isKid] using hvol⟩
    rw [hkids] at hkid
    cases hkid
  · intro d' hc
    obtain ⟨-, g, ext, -, -, h'⟩ := (create_ends hg h h.root _).of_some hc
    obtain ⟨tail, -, -, hlen⟩ := h'.root_slots hg
    have hslots := g.slots_length
    rw [Layout.append_slots] at hlen
    simp only [itemSlots_cons, Item.slots, length_append] at hlen
    omega

theorem create_root_sample : ∃ d', create sampleFs 0 [0x41] sampleDisk = (some (), d') := by
  refine (create_root_iff (sample_reachable ProperCall) (by decide) (sample_find _)).mpr ?_
  obtain ⟨tail, hslots, htail, hlen⟩ := sample_holds.2.root_slots sample_holds.1
  rw [exists_unused_iff sample_holds.1 hslots (itemSlots_first _) htail]
  rintro rfl
  have hused : (itemSlots ((freshLayout []).items 0)).length = 1 := by decide
  rw [length_nil] at hlen
  omega

end Vnu.Fat16
