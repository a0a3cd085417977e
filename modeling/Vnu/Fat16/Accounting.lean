import Mathlib.Data.Set.Card
import Vnu.Fat16.Accounts
import Vnu.Fat16.Overwriting

/-!
The cluster accounts of a volume. In a run of careful calls a cluster is marked exactly when it lies
in the chain of a live file or directory; a write that starts a chain on a volume that is too full
breaks this.
-/
namespace Vnu.Fat16

open Lib List Option

variable {q c : ℕ} {ev : Entry}

section

variable {fs : Fs} (hg : Geometry fs) {d : Disk}

include hg

theorem statsLoop_succ (n c free : ℕ) (loaded : Option (ℕ × Buf))
    (hloaded : ∀ s buf, loaded = some (s, buf) → buf = d (fs.lba (fs.firstFat + s))) :
    statsLoop fs d (n + 1) c loaded free =
      statsLoop fs d n (c + 1) (some (c * 2 / 512, d (fs.lba (fs.firstFat + c * 2 / 512))))
        (if rd16 (d (fs.lba (fs.firstFat + c * 2 / 512))) (c * 2 % 512) = 0
          then free + 1 else free) := by
  have hread := devRead_eq hg d (fs.firstFat + c * 2 / 512)
  cases loaded with
  | none => simp only [statsLoop, hread]
  | some p =>
    obtain ⟨s, buf⟩ := p
    by_cases hs : s = c * 2 / 512
    · subst hs
      simp only [statsLoop, if_true, hloaded _ buf rfl]
    · simp only [statsLoop, if_neg hs, hread]

theorem statsLoop_eq (n c free : ℕ) (loaded : Option (ℕ × Buf)) (hc : c + n ≤ fs.maxCluster + 1)
    (hloaded : ∀ s buf, loaded = some (s, buf) → buf = d (fs.lba (fs.firstFat + s))) :
    statsLoop fs d n c loaded free =
      some (free + (range' c n).countP fun c => fatGet fs c d == some 0) := by
  induction n generalizing c free loaded with
  | zero => simp [statsLoop]
  | succ n ih =>
    have hfat : fatGet fs c d = some (rd16 (d (fs.lba (fs.firstFat + c * 2 / 512)))
        (c * 2 % 512)) := by
      rw [fatGet_eq hg d (by omega), view]
      simp [show c ≤ fs.maxCluster by omega]
    rw [statsLoop_succ hg n c free loaded hloaded, ih _ _ _ (by omega) fun s buf hsome => by
      obtain ⟨rfl, rfl⟩ := Prod.mk.inj (some.inj hsome)
      rfl]
    rw [range'_succ, countP_cons, hfat]
    simp only [beq_iff_eq, some.injEq]
    split <;> omega

omit hg in
theorem freeClusters_le : freeClusters fs d ≤ fs.maxCluster - 1 := by
  exact countP_le_length.trans (by rw [length_range'])

theorem volumeStats_eq (hm : fs.mounted = true) :
    volumeStats fs d = some ((fs.maxCluster - 1) * fs.cb % 2 ^ 32, freeClusters fs d * fs.cb) := by
  have hmax := hg.max_ge
  have hmax' := hg.max_le
  have hle : freeClusters fs d ≤ fs.maxCluster - 1 := freeClusters_le
  have hbytes : freeClusters fs d * fs.cb < 2 ^ 32 :=
    calc freeClusters fs d * fs.cb ≤ 0xFFF2 * 65536 :=
          Nat.mul_le_mul (by omega) hg.cb_le
      _ < 2 ^ 32 := by norm_num
  rw [volumeStats, statsLoop_eq hg _ _ _ _ (by omega) (by simp), map_some, Nat.zero_add,
    ← freeClusters, Nat.mod_eq_of_lt hbytes]
  have := hg.spc_pos
  simp [hm]
  omega

end

theorem Reachable.mounted {C : Fs → Disk → ℕ → Op → Prop} {fs : Fs} {d : Disk}
    (h : Reachable C fs d) : fs.mounted = true := by
  induction h with
  | start hdev hsize hformat hmount =>
    obtain ⟨b, -, hb⟩ := bind_eq_some_iff.mp hmount
    simp only [bootFs, ite_none_left_eq_some] at hb
    rw [← some.inj hb.2.2.2.2.2.2]
  | step _ _ _ _ ih => exact ih

/-- The cluster is in the chain of a file or directory that the root leads to. -/
def Used (fs : Fs) (d : Disk) (c : ℕ) : Prop :=
  ∃ q ev n, LiveDir fs d q ∧ ev ∈ entries fs q d ∧ ev.isVolume = false ∧
    chainAt fs ev.cluster n d = some c

def Layout.place (L : Layout) : Obj → ℕ × ℕ
  | .dir q => L.parent q
  | .file q pos => (q, pos)

section

variable {fs : Fs} (hg : Geometry fs) {d : Disk} {L : Layout} (h : Holds fs (view fs d) L)

include h in
theorem Holds.dir_chain (hq : q ∈ L.dirs) :
    ∃ l, Chain fs (view fs d).fat q l ∧ ∀ x ∈ l, x ∈ L.regions (.dir q) := by
  obtain ⟨rfl, -⟩ | ⟨-, hc⟩ := (h.dir q hq).area
  · exact ⟨[], ⟨rfl, by simp, by simp⟩, by simp⟩
  · exact ⟨_, hc, fun x hx => hx⟩

include hg h

theorem Holds.file_length_le (q pos : ℕ) :
    (L.regions (.file q pos)).length + 1 ≤ fs.maxCluster := by
  by_cases hnil : L.regions (.file q pos) = []
  · have := hg.max_ge
    rw [hnil, length_nil]
    omega
  · obtain ⟨hq, ev, hev, hfile, rfl⟩ := h.live _ hnil
    exact ((h.dir q hq).file ev hev hfile).length_le hg

theorem Holds.entry_chain (hq : LiveDir fs d q) (hev : ev ∈ entries fs q d)
    (hvol : ev.isVolume = false) :
    ∃ o l, Chain fs (view fs d).fat ev.cluster l ∧ ∀ x ∈ l, x ∈ L.regions o := by
  have hmem := h.liveDir_mem hg hq
  by_cases hdir : ev.isDir = true
  · have hlive := h.liveDir_mem hg (.entry hq hev hvol hdir)
    exact ⟨_, h.dir_chain hlive⟩
  rw [h.entries_eq hg hmem] at hev
  rcases (h.dir q hmem).entry_cases hev hvol with hkid | ⟨-, rfl | rfl⟩
  · rw [Bool.not_eq_true] at hdir
    exact ⟨_, _, (h.dir q hmem).file ev hkid hdir, fun x hx => hx⟩
  · exact absurd (dotGroup_entry q 0 ▸ show (attrDir &&& attrDir != 0) = true by decide) hdir
  · exact absurd (dotdotGroup_entry _ 32 ▸ show (attrDir &&& attrDir != 0) = true by decide) hdir

theorem Holds.used_region (hc : Used fs d c) : ∃ o, c ∈ L.regions o := by
  obtain ⟨q, ev, n, hq, hev, hvol, hat⟩ := hc
  obtain ⟨o, l, hchain, hl⟩ := h.entry_chain hg hq hev hvol
  by_cases hn : n < l.length
  · rw [chainAt_eq hg d hchain hn, some.injEq] at hat
    exact ⟨o, hl c (hat ▸ get_mem l ⟨n, hn⟩)⟩
  · rw [chainAt_none hg d hchain h.reserved (by omega)] at hat
    cases hat

theorem Holds.lookup_chain {name : List UInt8} (hq : q ∈ L.dirs) (hname : isDots name = false)
    (hfind : findEntry fs q name d = some ev) : ev ∈ L.kids q ∧ ∃ o l, L.place o = (q, ev.pos) ∧
      Chain fs (view fs d).fat ev.cluster l ∧ ∀ x ∈ l, x ∈ L.regions o := by
  have hev : ev ∈ L.kids q :=
    (h.find_cases hg hq hfind).resolve_right fun hdots => by simp [hname] at hdots
  refine ⟨hev, ?_⟩
  cases hdir : ev.isDir with
  | true =>
    obtain ⟨hmem, -, -, hparent⟩ := (h.dir q hq).sub ev hev hdir
    obtain ⟨l, hl⟩ := h.dir_chain hmem
    exact ⟨.dir ev.cluster, l, hparent, hl⟩
  | false => exact ⟨.file q ev.pos, _, rfl, (h.dir q hq).file ev hev hdir, fun _ hx => hx⟩

theorem Holds.chain_get {l : List ℕ} (hl : Chain fs (view fs d).fat q l) (n : ℕ) :
    chainAt fs q n d = l[n]? := by
  by_cases hn : n < l.length
  · rw [chainAt_eq hg d hl hn, getElem?_eq_getElem hn]
    rfl
  · rw [chainAt_none hg d hl h.reserved (by omega), getElem?_eq_none (by omega)]

theorem Holds.used_of_kid {l : List ℕ} (hq : L.Rooted q)
    (hev : ev ∈ L.kids q) (hchain : Chain fs (view fs d).fat ev.cluster l) (hc : c ∈ l) :
    Used fs d c := by
  obtain ⟨hmem, hkid⟩ := Layout.mem_kids.mp hev
  rw [← h.entries_eq hg (h.rooted_mem hq)] at hmem
  rw [isKid, Bool.and_eq_true, Bool.not_eq_true'] at hkid
  obtain ⟨n, hn, rfl⟩ := getElem_of_mem hc
  exact ⟨q, ev, n, h.rooted_liveDir hg hq, hmem, hkid.1, chainAt_eq hg d hchain hn⟩

theorem Holds.region_used (hL : ∀ q ∈ L.dirs, L.Rooted q) (hr : fs.InRange c) {o : Obj}
    (hc : c ∈ L.regions o) : Used fs d c := by
  have hhas := h.live o (ne_nil_of_mem hc)
  cases o with
  | file q pos =>
    obtain ⟨hq, ev, hev, hfile, rfl⟩ := hhas
    exact h.used_of_kid hg (hL q hq) hev ((h.dir q hq).file ev hev hfile) hc
  | dir q =>
    obtain ⟨rfl, hroot⟩ | ⟨-, hchain⟩ := (h.dir q hhas).area
    · rw [hroot, mem_singleton] at hc
      have := hr.1
      omega
    cases hL q hhas with
    | root =>
      have := hchain.eq_nil
      rw [this] at hc
      cases hc
    | sub hq hev hdir => exact h.used_of_kid hg hq hev hchain hc

theorem Holds.taken_iff_used (hL : L.Tidy) (hr : fs.InRange c) :
    fatGet fs c d ≠ some 0 ↔ Used fs d c := by
  rw [fatGet_eq hg d hr.2, Ne, some.injEq]
  refine (h.owns.used c hr).trans ⟨?_, fun hc => Or.inr (h.used_region hg hc)⟩
  rintro (hlost | ⟨o, hc⟩)
  · rw [hL.1] at hlost
    cases hlost
  · exact h.region_used hg hL.2 hr hc

theorem Holds.freeClusters_unused (hL : L.Tidy) :
    freeClusters fs d = {c | fs.InRange c ∧ ¬ Used fs d c}.ncard := by
  rw [freeClusters, countP_eq_length_filter,
    ← toFinset_card_of_nodup ((nodup_range').filter _), ← Set.ncard_coe_finset]
  congr 1
  ext c
  simp only [coe_toFinset, mem_filter, mem_range'_1, beq_iff_eq, Set.mem_ofPred_eq]
  have hin : (2 ≤ c ∧ c < 2 + (fs.maxCluster - 1)) ↔ fs.InRange c := by
    rw [Fs.InRange]
    omega
  rw [hin]
  refine and_congr_right fun hr => ?_
  rw [← h.taken_iff_used hg hL hr, not_not]

end

/-- In a run of careful calls the table and the free count are exact. -/
theorem careful_accounts {fs : Fs} {d : Disk} (hd : Reachable Careful fs d) :
    (∀ c, fs.InRange c → (fatGet fs c d ≠ some 0 ↔ Used fs d c)) ∧
      volumeStats fs d = some ((fs.maxCluster - 1) * fs.cb % 2 ^ 32,
        {c | fs.InRange c ∧ ¬ Used fs d c}.ncard * fs.cb) := by
  have hg := hd.geometry
  obtain ⟨L, h, hL⟩ := hd.holds (careful_tidy hg)
  refine ⟨fun c hr => h.taken_iff_used hg hL hr, ?_⟩
  rw [volumeStats_eq hg hd.mounted, h.freeClusters_unused hg hL]

theorem careful_accounts_sample : ∃ d', write sampleFs 0 [0x41] 2 [7] sampleDisk = (some 1, d') ∧
    ∀ c, sampleFs.InRange c → (fatGet sampleFs c d' ≠ some 0 ↔ Used sampleFs d' c) := by
  have hw := Act.run_eq_of_fst sample_writes.1
  have hneed : (Op.write [0x41] 2 [7]).need sampleFs = 1 := by decide
  have hmeets : (Op.write [0x41] 2 [7]).Meets Careful sampleFs sampleDisk 0 := by
    rw [Op.Meets, if_pos (sample_find _)]
    refine ⟨⟨trivial, fun ev hev => ?_, fun ev hop => ?_⟩,
      ⟨trivial, fun ev _ _ hfree => ?_, fun ev hop => ?_⟩⟩
    · rw [sample_find] at hev
      cases hev
    · cases hop
    · omega
    · cases hop
  have hreach := Reachable.step (sample_reachable Careful) .root
    (show (Op.write [0x41] 2 [7]).Fits from ⟨by decide, by decide⟩) hmeets
  rw [Op.run_write, hw] at hreach
  exact ⟨_, hw, (careful_accounts hreach).1⟩

/-- The file has no cluster yet, so the chain that is begun and not finished belongs to nobody. -/
theorem sample_overfull {off : ℕ} (hoff : sampleFs.maxCluster * 512 ≤ off)
    (hend : off + 1 + 512 ≤ 2 ^ 32) :
    ∀ c, sampleFs.InRange c →
      fatGet sampleFs c (write sampleFs 0 [0x41] off [0] sampleDisk).2 ≠ some 0 ∧
        ¬ Used sampleFs (write sampleFs 0 [0x41] off [0] sampleDisk).2 c := by
  obtain ⟨d₁, L₁, ev, hc, h₁, hfind, hfile, hcluster, hfree⟩ := sample_created
  have hg := sample_holds.1
  have hcb : sampleFs.cb = 512 := rfl
  apply Act.Ends.final (P := fun d' => ∀ c, sampleFs.InRange c →
    fatGet sampleFs c d' ≠ some 0 ∧ ¬ Used sampleFs d' c)
  apply write_missing_ends (sample_find _)
  refine Act.Ends.of_eq_some hc ⟨fun hnone => ?_, fun ev' hev' => ?_⟩
  · rw [hfind] at hnone
    cases hnone
  refine (write_found_ends hg h₁ h₁.root hfind (by simp)).mono ?_ ?_
  · rintro n d' ⟨-, -, -, ⟨hnil, -⟩ | ⟨-, -, L', ⟨front, g, back, new, nf, -, -, hroom, rfl⟩, h'⟩⟩
    · cases hnil
    -- a chain that long does not fit in the table
    have hlen := h'.file_length_le hg 0 ev.pos
    simp only [Layout.edit, Layout.setFile, Function.update_self] at hlen
    rw [hcb] at hroom
    omega
  rintro d' (⟨-, hdir | hover⟩ | ⟨-, hev, l, hst, ⟨hwrap, -⟩ | hstarved⟩)
  · rw [hfile] at hdir
    cases hdir
  · rw [length_singleton] at hover
    omega
  · rw [length_singleton] at hwrap
    omega
  have hnil : L₁.regions (.file 0 ev.pos) = [] := by
    have hchain := (h₁.dir 0 h₁.root).file ev hev hfile
    rw [hcluster] at hchain
    exact hchain.eq_nil
  obtain ⟨hold, -⟩ | ⟨-, -, h'⟩ := hst
  · exact absurd hnil hold
  intro c hr
  refine ⟨?_, fun hused => ?_⟩
  · rw [fatGet_eq hg d' hr.2, Ne, some.injEq]
    exact hstarved.full c hr
  · -- what had clusters before still has them, and nothing had any
    obtain ⟨o, ho⟩ := h'.used_region hg hused
    exact h₁.taken (o := o) ho (hfree c hr)

/-- A write that fails on a full volume takes every cluster and leaves them to nobody. -/
theorem write_leaks : ∃ d', Reachable (fun _ _ _ _ => True) sampleFs d' ∧
    ∃ c, sampleFs.InRange c ∧ fatGet sampleFs c d' ≠ some 0 ∧ ¬ Used sampleFs d' c := by
  have hmax : sampleFs.maxCluster * 512 ≤ 2 ^ 30 := by decide
  have hr : Reachable (fun _ _ _ _ => True) sampleFs
      (Op.run sampleFs 0 (.write [0x41] (2 ^ 30) [0]) sampleDisk).2 := by
    refine .step (sample_reachable _) .root ⟨by norm_num, by simp⟩ ?_
    rw [Op.Meets, if_pos (sample_find _)]
    exact ⟨trivial, trivial⟩
  rw [Op.run_write] at hr
  exact ⟨_, hr, 2, by decide, sample_overfull hmax (by norm_num) 2 (by decide)⟩

/-- Chains that meet in a cluster are of one entry, at one place. -/
theorem chains_apart {fs : Fs} {d : Disk} (hr : Reachable ProperCall fs d) {q' n n' : ℕ}
    {ev' : Entry} {name name' : List UInt8} (hq : LiveDir fs d q) (hq' : LiveDir fs d q')
    (hname : isDots name = false) (hname' : isDots name' = false)
    (hfind : findEntry fs q name d = some ev) (hfind' : findEntry fs q' name' d = some ev')
    (hat : chainAt fs ev.cluster n d = some c) (hat' : chainAt fs ev'.cluster n' d = some c) :
    q = q' ∧ ev = ev' ∧ n = n' := by
  have hg := hr.geometry
  obtain ⟨L, h, -⟩ := hr.holds (properCall_invariant fs)
  obtain ⟨hev, o, l, ho, hl, hin⟩ := h.lookup_chain hg (h.liveDir_mem hg hq) hname hfind
  obtain ⟨hev', o', l', ho', hl', hin'⟩ := h.lookup_chain hg (h.liveDir_mem hg hq') hname' hfind'
  have hc := (h.chain_get hg hl n).symm.trans hat
  have hc' := (h.chain_get hg hl' n').symm.trans hat'
  obtain rfl := h.owns.disjoint o o' c (hin c (mem_of_getElem? hc)) (hin' c (mem_of_getElem? hc'))
  obtain ⟨rfl, hpos⟩ := Prod.mk.inj (ho.symm.trans ho')
  obtain rfl := Layout.kids_pos_inj hev hev' hpos
  rw [h.chain_get hg hl, ← hc] at hat'
  obtain ⟨hn, -⟩ := List.getElem?_eq_some_iff.mp hc
  exact ⟨rfl, rfl, (getElem?_inj hn (hl.nodup hg)).mp hat'.symm⟩

theorem chains_apart_sample : ∃ ev, findEntry sampleFs 0 [0x41] madeDisk = some ev ∧
    ∀ n, chainAt sampleFs ev.cluster n madeDisk = some 2 → 0 = n := by
  obtain ⟨ev, hev, -, -, hc⟩ := sample_runs.2.1 _ mem_cons_self
  refine ⟨ev, hev, fun n hn => ?_⟩
  have hat : chainAt sampleFs ev.cluster 0 madeDisk = some 2 := by rw [hc]; rfl
  exact (chains_apart (madeDisk_reachable trivial) .root .root (by decide) (by decide) hev hev hat
    hn).2.2

end Vnu.Fat16
