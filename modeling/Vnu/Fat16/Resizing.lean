import Vnu.Fat16.Overwriting

/-!
The contract of `truncate`. It holds for every size whose number of clusters can be computed in 32
bits; above that the number wraps to zero.
-/
namespace Vnu.Fat16

open Lib Lib.Overlay List Option Nat

def Bounded (fs : Fs) (_ : Disk) (q : ℕ) (op : Op) : Prop :=
  op.Proper q ∧ (∀ name off buf, op = .write name off buf →
      ¬ (2 ^ 32 < off + buf.length + fs.cb ∧ off + buf.length < 2 ^ 32)) ∧
    ∀ name size, op = .truncate name size → size + fs.cb ≤ 2 ^ 32

def Clean (size : ℕ) (bs : List UInt8) : Prop := Sized size bs ∧ Slack size bs

theorem Layout.Files.sized {L : Layout} (h : L.Files Clean) : L.Files Sized :=
  fun q hq ev hev hfile => (h q hq ev hev hfile).1

theorem Layout.Files.slack {L : Layout} (h : L.Files Clean) : L.Files Slack :=
  fun q hq ev hev hfile => (h q hq ev hev hfile).2

theorem bounded_clean {fs : Fs} (hg : Geometry fs) :
    Invariant Bounded fs fun L => L.Files Clean where
  proper h := h.1
  fresh label := freshLayout_files label Clean
  change := by
    intro d L q op L' h hq hL hfits hC hc
    refine hc.files hg h hq hfits fun size bs hs => ⟨?_, ?_⟩
    · exact hs.sized hg h hq hL.sized fun name size heq _ _ _ => hC.2.2 name size heq
    · exact hs.slack hq hL.sized hL.slack hC.2.1

def resize (cs : List UInt8) (size : ℕ) : List UInt8 :=
  cs.take size ++ replicate (size - cs.length) 0

theorem Slack.take_eq {size size' : ℕ} {bs : List UInt8} (h : Slack size bs)
    (hle : size ≤ size') (hroom : size' ≤ bs.length) :
    bs.take size' = resize (bs.take size) size' := by
  have hzero : (bs.drop size).take (size' - size) = replicate (size' - size) 0 := by
    rw [eq_replicate_iff]
    refine ⟨?_, fun b hb => h b (mem_of_mem_take hb)⟩
    rw [length_take, length_drop]
    omega
  rw [resize, take_take, min_eq_right hle, length_take, min_eq_left (by omega),
    ← hzero, ← take_add, Nat.add_sub_cancel' hle]

theorem resize_of_le {cs : List UInt8} {size : ℕ} (h : size ≤ cs.length) :
    resize cs size = cs.take size := by
  rw [resize, Nat.sub_eq_zero_of_le h, replicate_zero, append_nil]

section

variable {fs : Fs} (hg : Geometry fs) {d d' : Disk} {L L' : Layout} (h : Holds fs (view fs d) L)
  {q size : ℕ} (hq : q ∈ L.dirs) {name : List UInt8} {ev : Entry}
  (hfind : findEntry fs q name d = some ev) (hfile : ev.isDir = false) (hev : ev ∈ L.kids q)
  (ht : L.Truncated fs L' q ev size) (h' : Holds fs (view fs d') L')

include hg h ht in
theorem Layout.Truncated.take_eq (hclean : Clean ev.size (L.data (.file q ev.pos)))
    (hend : size + fs.cb ≤ 2 ^ 32) :
    (L'.data (.file q ev.pos)).take size =
      resize ((L.data (.file q ev.pos)).take ev.size) size := by
  have hsized : ev.size ≤ (L.data (.file q ev.pos)).length := hclean.1
  have hlen : ((L.data (.file q ev.pos)).take ev.size).length = ev.size := by
    rw [length_take, min_eq_left hsized]
  have hle := le_clustersFor hg hend
  obtain ⟨front, g, back, nf, l, bs, -, -, rfl, ht⟩ := ht
  have hdata : (L.edit q (front ++ .live (g.located nf size) :: back) ev.pos l bs).data
      (.file q ev.pos) = bs := Function.update_self _ _ _
  rw [hdata]
  rcases ht with ⟨hlt, hroom, new, rfl, rfl⟩ | ⟨hlt, hnone, -, rfl⟩ | ⟨hlt, -, -, -, rfl⟩
  · have hbytes := Nat.mul_le_mul_right fs.cb hroom
    rw [length_append, add_mul, ← h.data_length] at hbytes
    rw [(hclean.2.append _ (le_refl _)).take_eq (by omega), take_append_of_le_length hsized]
    rw [length_append, length_replicate]
    omega
  · rw [hnone, zero_mul, Nat.le_zero] at hle
    rw [hle, resize_of_le (zero_le _), take_zero, take_zero]
  · rw [resize_of_le (by omega), take_take, min_eq_left (by omega), take_left']
    rw [length_take]
    omega

include hg h hq hfind ht h' in
theorem Layout.Truncated.find (hsize : size < 2 ^ 32) : ∃ ev', findEntry fs q name d' = some ev' ∧
    ev'.size = size ∧ ev'.pos = ev.pos ∧ ev'.isDir = ev.isDir := by
  obtain ⟨front, g, back, nf, l, bs, hitems, hentry, rfl, -⟩ := ht
  rw [h.findEntry_located hg hitems h' hq, hfind, map_some, Entry.relocated, if_pos (hentry ▸ rfl)]
  exact ⟨_, rfl, Nat.mod_eq_of_lt hsize, rfl, rfl⟩

end

def Resized (fs : Fs) (d d' : Disk) (q : ℕ) (name : List UInt8) (size : ℕ) : Prop :=
  (∃ ev n, findEntry fs q name d' = some ev ∧ ev.size = size ∧
    fileChainLen fs ev.cluster d' = some n ∧ (size + fs.cb - 1) / fs.cb ≤ n) ∧
  ∀ o k, read fs q name o k d' = some (((resize (contents fs q name d) size).drop o).take k)

section

variable {fs : Fs} (hg : Geometry fs) {d d' : Disk} {L : Layout} (h : Holds fs (view fs d) L)
  {q : ℕ} (hq : q ∈ L.dirs) {name : List UInt8} {ev : Entry}
  (hfind : findEntry fs q name d = some ev) (hfile : ev.isDir = false)

include hg h hq hfind hfile

theorem Holds.fileChainLen_eq :
    fileChainLen fs ev.cluster d = some (L.regions (.file q ev.pos)).length :=
  Fat16.fileChainLen_eq hg d ((h.dir q hq).file ev (h.find_file hg hq hfind hfile) hfile)

theorem Holds.chain_enough (hL : L.Files Sized) :
    (ev.size + fs.cb - 1) / fs.cb ≤ (L.regions (.file q ev.pos)).length := by
  have hsize : ev.size ≤ (L.data (.file q ev.pos)).length :=
    hL q hq ev (h.find_file hg hq hfind hfile) hfile
  rw [h.data_length] at hsize
  have hcb := hg.cb_pos
  rw [← Nat.lt_succ_iff, Nat.div_lt_iff_lt_mul hcb, Nat.succ_mul]
  omega

theorem Holds.size_of_chain {n : ℕ} (hn : fileChainLen fs ev.cluster d = some n)
    (henough : (ev.size + fs.cb - 1) / fs.cb ≤ n) : ev.size + fs.cb ≤ 2 ^ 32 := by
  have hev := h.find_file hg hq hfind hfile
  have hlt := h.data_lt hg hq hev hfile
  rw [h.data_length] at hlt
  rw [h.fileChainLen_eq hg hq hfind hfile, some.injEq] at hn
  have hcb := hg.cb_pos
  rw [← hn, ← Nat.lt_succ_iff, Nat.div_lt_iff_lt_mul hcb, Nat.succ_mul] at henough
  omega

end

/-- A successful `truncate` does what `Resized` says exactly when the size is not within one cluster
of 2^32. -/
theorem truncate_resized_iff {fs : Fs} {d d' : Disk} {q size : ℕ} {name : List UInt8}
    (hr : Reachable Bounded fs d) (hq : LiveDir fs d q) (hsize : size < 2 ^ 32)
    (ht : truncate fs q name size d = (some (), d')) :
    Resized fs d d' q name size ↔ size + fs.cb ≤ 2 ^ 32 := by
  have hg := hr.geometry
  obtain ⟨L, h, hL⟩ := hr.holds (bounded_clean hg)
  have hmem := h.liveDir_mem hg hq
  obtain ⟨ev, hfind, hfile, hev, ⟨rfl, rfl⟩ | ⟨hne, L', htr, h'⟩⟩ :=
    (truncate_ends hg h hmem hsize).of_some ht
  · have henough := h.chain_enough hg hmem hfind hfile hL.sized
    have hchain := h.fileChainLen_eq hg hmem hfind hfile
    refine ⟨fun _ => h.size_of_chain hg hmem hfind hfile hchain henough, fun _ => ?_⟩
    refine ⟨⟨ev, _, hfind, rfl, hchain, henough⟩, fun o k => ?_⟩
    have hle : ev.size ≤ (L.data (.file q ev.pos)).length := hL.sized q hmem ev hev hfile
    rw [h.read_file hg hmem hfind hL.sized hfile, h.contents_file hg hmem hfind hL.sized hfile,
      resize_of_le (by rw [length_take]; omega), take_take, Nat.min_self]
  obtain ⟨ev', hfind', hsize', hpos', hdir'⟩ := htr.find hg h hmem hfind h' hsize
  rw [hfile] at hdir'
  have hmem' : q ∈ L'.dirs := by
    obtain ⟨front, g, back, nf, l, bs, -, -, rfl, -⟩ := htr
    exact hmem
  constructor
  · rintro ⟨⟨ev₂, n, hfind₂, hsize₂, hchain, henough⟩, -⟩
    rw [hfind', some.injEq] at hfind₂
    subst hfind₂
    rw [← hsize₂] at henough ⊢
    exact h'.size_of_chain hg hmem' hfind' hdir' hchain henough
  intro hend
  have hfits : (Op.truncate name size).Fits := hsize
  have hL' : L'.Files Sized := by
    refine (Change.truncate hfind hev hfile htr).files hg h hmem hfits fun size bs hs =>
      hs.sized hg h hmem hL.sized ?_
    rintro name size heq _ _ _
    cases heq
    exact hend
  refine ⟨⟨ev', _, hfind', hsize', h'.fileChainLen_eq hg hmem' hfind' hdir', ?_⟩, ?_⟩
  · rw [← hsize']
    exact h'.chain_enough hg hmem' hfind' hdir' hL'
  · intro o k
    rw [h'.read_file hg hmem' hfind' hL' hdir', h.contents_file hg hmem hfind hL.sized hfile,
      hsize', hpos', htr.take_eq hg h (hL q hmem ev hev hfile) hend]

theorem sample_bounded : Reachable Bounded sampleFs
    (Op.run sampleFs 0 (.create [0x41]) sampleDisk).2 :=
  .step (sample_reachable _) .root trivial ⟨trivial, nofun, nofun⟩

theorem sample_truncates : (∀ size ∈ [5, 0xFFFFFFFF], (truncate sampleFs 0 [0x41] size
      (Op.run sampleFs 0 (.create [0x41]) sampleDisk).2).1 = some ()) ∧
    (findEntry sampleFs 0 [0x41] (truncate sampleFs 0 [0x41] 0xFFFFFFFF
      (Op.run sampleFs 0 (.create [0x41]) sampleDisk).2).2).map Entry.cluster = some 0 := by
  decide +kernel

theorem truncate_resized_sample : ∃ d₁ d', truncate sampleFs 0 [0x41] 5 d₁ = (some (), d') ∧
    Resized sampleFs d₁ d' 0 [0x41] 5 := by
  have ht := Act.run_eq_of_fst (sample_truncates.1 5 (by simp))
  exact ⟨_, _, ht, (truncate_resized_iff sample_bounded .root (by omega) ht).mpr (by decide)⟩

/-- Growing an empty file to 2^32 - 1 bytes succeeds without a single cluster. -/
theorem truncate_wraps : ∃ d₁ d', Reachable Bounded sampleFs d₁ ∧
    truncate sampleFs 0 [0x41] 0xFFFFFFFF d₁ = (some (), d') ∧
    ¬ Resized sampleFs d₁ d' 0 [0x41] 0xFFFFFFFF := by
  obtain ⟨hruns, hnone⟩ := sample_truncates
  have ht := Act.run_eq_of_fst (hruns 0xFFFFFFFF (by simp))
  refine ⟨_, _, sample_bounded, ht, ?_⟩
  rintro ⟨⟨ev, n, hfind, -, hchain, henough⟩, -⟩
  rw [hfind, map_some, some.injEq] at hnone
  rw [hnone, fileChainLen, if_pos rfl, some.injEq] at hchain
  rw [← hchain] at henough
  exact absurd henough (by decide)

end Vnu.Fat16
