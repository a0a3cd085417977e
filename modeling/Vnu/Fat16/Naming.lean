import Vnu.Fat16.Reading

/-!
What `create` stores is found again and listed under its name, except that a bare 8.3 entry loses a
trailing dot. Slots are appended to a directory all together or not at all, as long as its clusters
are its own.
-/
namespace Vnu.Fat16

open Lib List Option

def ProperCall (_ : Fs) (_ : Disk) (q : ℕ) (op : Op) : Prop := op.Proper q

theorem properCall_invariant (fs : Fs) : Invariant ProperCall fs fun _ => True where
  proper h := h
  fresh _ := trivial
  change _ _ _ _ _ _ := trivial

theorem newEntry_listed (fs : Fs) (q : ℕ) (name : List UInt8) (d : Disk) (slots pos : ℕ) :
    (newEntry fs q name 0 0 d attrArch slots pos).isVolume = false ∧
      (newEntry fs q name 0 0 d attrArch slots pos).isDir = false :=
  ⟨show (attrArch &&& attrVolume != 0) = false by decide,
    show (attrArch &&& attrDir != 0) = false by decide⟩

theorem storedName_eq {name : List UInt8} (hlen : name.length ≤ 63) (hnul : 0 ∉ name)
    (h : ¬ (isNative name = true ∧ name.getLast? = some 0x2E)) : storedName name = name := by
  rw [storedName]
  split
  · rename_i hnative
    rw [nativeName_eq, if_neg fun hdot => h ⟨hnative, hdot⟩]
  · rw [take_of_length_le (by omega), cstr_eq hnul]

theorem storedName_dot {name : List UInt8} (hnative : isNative name = true)
    (hdot : name.getLast? = some 0x2E) : ciEqual (storedName name) name = false := by
  rw [storedName, if_pos hnative, nativeName_eq, if_pos hdot, Bool.eq_false_iff, Ne, ciEqual_iff]
  intro heq
  have hlen := congrArg length heq
  rw [length_map, length_map, length_dropLast] at hlen
  have hne : name ≠ [] := by
    rintro rfl
    cases hdot
  have hpos := length_pos_of_ne_nil hne
  omega

section

variable {fs : Fs} (hg : Geometry fs) {d d' : Disk} {L : Layout}
  (h : Holds fs (view fs d) L) {q : ℕ}
  (hq : q ∈ L.dirs) {name : List UInt8}

include hg h hq

theorem create_entries (hc : create fs q name d = (some (), d')) :
    findEntry fs q name d = none ∧ ∃ slots pos,
      entries fs q d' = entries fs q d ++ [newEntry fs q name 0 0 d attrArch slots pos] := by
  obtain ⟨hfind, g, ext, -, hentry, h'⟩ := (create_ends hg h hq name).of_some hc
  have hq' : q ∈ (L.append q [.live g] ext).dirs := hq
  refine ⟨hfind, g.slots.length, endOf (L.items q), ?_⟩
  rw [h'.entries_eq hg hq', h.entries_eq hg hq, Layout.entries_append]
  simp only [entriesAt, hentry]

theorem create_find (hc : create fs q name d = (some (), d')) :
    (findEntry fs q name d').isSome = ciEqual (storedName name) name := by
  obtain ⟨hfind, slots, pos, hentries⟩ := create_entries hg h hq hc
  have hvol := (newEntry_listed fs q name d slots pos).1
  rw [findEntry_eq] at hfind
  rw [findEntry_eq, hentries, find?_append, find?_singleton]
  have hname : (newEntry fs q name 0 0 d attrArch slots pos).name = storedName name := rfl
  split <;> simp_all

theorem create_readdir {cap : ℕ} (hc : create fs q name d = (some (), d')) (hcap : 64 ≤ cap)
    (hlen : name.length ≤ 63) (hdots : isDots name = false) (hname : storedName name = name) :
    readdirAll fs q cap d' = readdirAll fs q cap d ++ [name] := by
  obtain ⟨-, slots, pos, hentries⟩ := create_entries hg h hq hc
  have hlisted : (newEntry fs q name 0 0 d attrArch slots pos).isListed = true := by
    have hstored : (newEntry fs q name 0 0 d attrArch slots pos).name = name := hname
    rw [Entry.isListed, (newEntry_listed fs q name d slots pos).1, hstored, hdots]
    rfl
  rw [readdirAll_eq, readdirAll_eq, hentries, filter_append, map_append, filter_cons_of_pos hlisted]
  congr 1
  show [(storedName name).take (cap - 1)] = [name]
  rw [hname, take_of_length_le (by omega)]

theorem create_native (hroot : q = 0) (hnative : isNative name = true)
    (hfind : findEntry fs q name d = none) (hroom : (itemSlots (L.items 0)).length < 512) :
    ∃ d', create fs q name d = (some (), d') := by
  have hbuild : buildEntries fs q name attrArch 0 0 d = some
      [shortSlot (newSfn fs q name d) attrArch (buildShort name).nt 0 0] := by
    simp only [buildEntries, hnative, if_true]
  have hends : (create fs q name).Ends d (fun _ _ => True) fun _ => False := by
    refine (create_ends hg h hq name).mono (fun _ _ _ => trivial) ?_
    rintro d' ⟨-, hfull⟩
    have hlt := hfull hfind _ hbuild hroot
    rw [length_singleton] at hlt
    omega
  obtain ⟨_, d', hd', -⟩ := hends.returns
  exact ⟨d', hd'⟩

end

/-- After a successful `create` the exact name is found and listed once more than before, unless it
is stored as a bare 8.3 entry and ends in a dot. -/
theorem create_listed_iff {fs : Fs} {d d' : Disk} {q cap : ℕ} {name : List UInt8}
    (hr : Reachable ProperCall fs d) (hq : LiveDir fs d q) (hlen : name.length ≤ 63)
    (hnul : 0 ∉ name) (hdots : isDots name = false) (hcap : 64 ≤ cap)
    (hc : create fs q name d = (some (), d')) :
    ((lookup fs q name d').isSome ∧ readdirAll fs q cap d' = readdirAll fs q cap d ++ [name]) ↔
      ¬ (isNative name = true ∧ name.getLast? = some 0x2E) := by
  have hg := hr.geometry
  obtain ⟨L, h, -⟩ := hr.holds (properCall_invariant fs)
  have hmem := h.liveDir_mem hg hq
  have hlookup : (lookup fs q name d').isSome = ciEqual (storedName name) name := by
    rw [lookup, isSome_map, create_find hg h hmem hc]
  rw [hlookup]
  constructor
  · rintro ⟨hfound, -⟩ ⟨hnative, hdot⟩
    rw [storedName_dot hnative hdot] at hfound
    cases hfound
  · intro hdot
    have hname := storedName_eq hlen hnul hdot
    exact ⟨by rw [hname, ciEqual_iff], create_readdir hg h hmem hc hcap hlen hdots hname⟩

theorem sample_volume : ∀ ev ∈ entries sampleFs 0 sampleDisk, ev.isVolume = true := by
  obtain ⟨hg, h⟩ := sample_holds
  rw [h.entries_eq hg rfl]
  exact fun ev => @labelItems_volume [] ev

theorem sample_find (name : List UInt8) : findEntry sampleFs 0 name sampleDisk = none := by
  rw [findEntry_eq, find?_eq_none]
  intro ev hev
  simp [sample_volume ev hev]

/-- A directory `A` whose only cluster was given back by `rmdir` on its entry `.`. -/
def freedDisk : Disk :=
  (Op.run sampleFs 2 (.rmdir [0x2E]) (Op.run sampleFs 0 (.mkdir [0x41]) sampleDisk).2).2

def madeDisk : Disk := (Op.run sampleFs 0 (.mkdir [0x41]) sampleDisk).2

theorem sample_runs : ((∀ name ∈ [[0x41], [0x41, 0x2E]],
      (create sampleFs 0 name sampleDisk).1 = some ()) ∧
    (∃ ev ∈ findEntry sampleFs 0 [0x41] (create sampleFs 0 [0x41] sampleDisk).2,
      ev.isDir = false ∧ ev.cluster = 0) ∧
    lookup sampleFs 0 [0x41, 0x2E] (create sampleFs 0 [0x41, 0x2E] sampleDisk).2 = none) ∧
    (∀ d ∈ [madeDisk, freedDisk], ∃ ev ∈ findEntry sampleFs 0 [0x41] d,
      ev.isVolume = false ∧ ev.isDir = true ∧ ev.cluster = 2) ∧
    (buildEntries sampleFs 2 (replicate 190 0x61) attrArch 0 0 freedDisk).map
      (fun es => ((dirAppend sampleFs 2 es freedDisk).1,
        fatNext sampleFs 2 (dirAppend sampleFs 2 es freedDisk).2)) = some (some (), some 2) := by
  decide +kernel

theorem sample_created : ∃ d₁ L₁ ev, create sampleFs 0 [0x41] sampleDisk = (some (), d₁) ∧
    Holds sampleFs (view sampleFs d₁) L₁ ∧ findEntry sampleFs 0 [0x41] d₁ = some ev ∧
    ev.isDir = false ∧ ev.cluster = 0 ∧ ∀ c, sampleFs.InRange c → (view sampleFs d₁).fat c = 0 := by
  obtain ⟨hg, h⟩ := sample_holds
  obtain ⟨⟨hcreates, ⟨ev, hev, hfile, hclus⟩, -⟩, -⟩ := sample_runs
  have hc := Act.run_eq_of_fst (hcreates [0x41] (by simp))
  obtain ⟨-, g, ext, -, -, h₁⟩ := (create_ends hg h rfl [0x41]).of_some hc
  refine ⟨_, _, ev, hc, h₁, hev, hfile, hclus, ?_⟩
  intro c hr
  by_contra htaken
  rcases (h₁.owns.used c hr).mp htaken with hlost | ⟨o, ho⟩
  · exact hlost.elim
  by_cases hdir : o = .dir 0
  · rw [hdir, h₁.root_region, mem_singleton] at ho
    have := hr.1
    omega
  · have hnil : ((freshLayout []).append 0 [.live g] ext).regions o = [] := by
      simp only [Layout.append, Function.update_of_ne hdir, freshLayout, if_neg hdir]
    rw [hnil] at ho
    cases ho

/-- `A.` is created as `A`, which a lookup of `A.` does not find. -/
theorem create_dot_lost : Reachable ProperCall sampleFs sampleDisk ∧ ∃ d',
    create sampleFs 0 [0x41, 0x2E] sampleDisk = (some (), d') ∧
    lookup sampleFs 0 [0x41, 0x2E] d' = none :=
  ⟨sample_reachable _, _, Act.run_eq_of_fst (sample_runs.1.1 _ (by simp)), sample_runs.1.2.2⟩

theorem create_listed_sample : ∃ d', create sampleFs 0 [0x41] sampleDisk = (some (), d') ∧
    (lookup sampleFs 0 [0x41] d').isSome := by
  obtain ⟨d', -, -, hc, -⟩ := sample_created
  exact ⟨d', hc, ((create_listed_iff (sample_reachable _) .root (by decide) (by decide) (by decide)
    (Nat.le_refl 64) hc).mpr (by decide)).1⟩

def AllOrNothing (fs : Fs) (q : ℕ) (name : List UInt8) (attr : UInt8) (cluster size : ℕ)
    (d : Disk) : Prop :=
  ∀ es, buildEntries fs q name attr cluster size d = some es →
    (dirAppend fs q es).Ends d
      (fun _ d' => ∃ pos, entries fs q d' =
        entries fs q d ++ [newEntry fs q name cluster size d attr es.length pos])
      fun d' => entries fs q d' = entries fs q d

/-- Where no call was `rmdir` on `.` or `..`, no batch is left in part. -/
theorem dirAppend_all_or_nothing {fs : Fs} {d : Disk} {q : ℕ} (hr : Reachable ProperCall fs d)
    (hq : LiveDir fs d q) (name : List UInt8) {attr : UInt8}
    (hattr : attr = attrArch ∨ attr = attrDir) (cluster size : ℕ) :
    AllOrNothing fs q name attr cluster size d := by
  intro es hbuild
  have hg := hr.geometry
  obtain ⟨L, h, -⟩ := hr.holds (properCall_invariant fs)
  have hmem := h.liveDir_mem hg hq
  obtain ⟨g, rfl, hentry⟩ := buildEntries_spec fs q name hattr cluster size d hbuild
  refine (h.dirAppend_ends hg hmem g.slots).mono ?_ ?_
  · rintro _ d' ⟨ext, rest, hext, hslots, hrest⟩
    refine ⟨endOf (L.items q), ?_⟩
    have hitems : itemSlots (L.items q) ++ g.slots = itemSlots (L.items q ++ [.live g]) := by
      simp [Item.slots]
    rw [Fat16.entries_eq hg d' hext.area, hslots, hitems, scanAll_items hrest, entriesAt_append,
      h.entries_eq hg hmem, zero_add]
    simp only [entriesAt, hentry]
    rfl
  · rintro d' ⟨⟨ext, -, hholds⟩, -⟩
    rw [hholds.entries_eq hg hmem, h.entries_eq hg hmem, L.entries_append]
    exact append_nil _

theorem dirAppend_all_or_nothing_sample :
    AllOrNothing sampleFs 0 [0x41] attrArch 0 0 sampleDisk :=
  dirAppend_all_or_nothing (sample_reachable _) .root [0x41] (.inl rfl) 0 0

theorem sample_live {d : Disk} (hd : d ∈ [madeDisk, freedDisk]) : LiveDir sampleFs d 2 := by
  obtain ⟨ev, hev, hvol, hdir, hclus⟩ := sample_runs.2.1 d hd
  rw [findEntry_eq] at hev
  exact hclus ▸ .entry .root (mem_of_find?_eq_some hev) hvol hdir

theorem madeDisk_reachable {C : Fs → Disk → ℕ → Op → Prop}
    (hC : C sampleFs sampleDisk 0 (.mkdir [0x41])) : Reachable C sampleFs madeDisk :=
  .step (sample_reachable C) .root trivial hC

theorem freedDisk_reachable : Reachable (fun _ _ _ _ => True) sampleFs freedDisk :=
  .step (madeDisk_reachable trivial) (sample_live mem_cons_self) trivial trivial

theorem chainLenLoop_self {fs : Fs} {c : ℕ} {d : Disk} (hc : fs.InRange c) (h0 : c ≠ 0)
    (hself : fatNext fs c d = some c) (fuel n : ℕ) : chainLenLoop fs d fuel n c = none := by
  induction fuel generalizing n with
  | zero => rfl
  | succ fuel ih =>
    rw [chainLenLoop, if_pos hc, hself]
    simp only [if_neg h0, ih, ite_self]

/-- The cluster allocated for the batch is the directory's own: the chain then leads back to itself
and no entry is found any more. -/
theorem dirAppend_loses_entries : Reachable (fun _ _ _ _ => True) sampleFs freedDisk ∧
    LiveDir sampleFs freedDisk 2 ∧
    ¬ AllOrNothing sampleFs 2 (replicate 190 0x61) attrArch 0 0 freedDisk := by
  refine ⟨freedDisk_reachable, sample_live (by simp), fun hall => ?_⟩
  obtain ⟨es, hes, hpair⟩ := Option.map_eq_some_iff.mp sample_runs.2.2
  obtain ⟨hsome, hself⟩ := Prod.mk.inj hpair
  obtain ⟨pos, hentries⟩ := (hall es hes).of_some (Prod.ext hsome rfl)
  have hlen := chainLenLoop_self (by decide) two_ne_zero hself (sampleFs.maxCluster + 4) 0
  rw [entries, dirTotalBytes, if_neg two_ne_zero, chainLen, hlen] at hentries
  have hnone := congrArg length hentries
  rw [length_append] at hnone
  cases hnone

end Vnu.Fat16
