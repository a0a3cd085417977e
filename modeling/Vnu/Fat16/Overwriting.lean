import Vnu.Fat16.Naming

/-!
The contract of `write`, in a run on ordinary names in which `truncate` only shrinks.
-/
namespace Vnu.Fat16

open Lib Lib.Overlay List Option

def Plain (fs : Fs) (d : Disk) (q : ℕ) (op : Op) : Prop :=
  isDots op.name = false ∧ ∀ size ev, op = .truncate op.name size →
    findEntry fs q op.name d = some ev → size ≤ ev.size

theorem plain_sized (fs : Fs) (hg : Geometry fs) : Invariant Plain fs fun L => L.Files Sized where
  proper := by
    intro d q op hC
    cases op with
    | rmdir name => exact Or.inr hC.1
    | _ => trivial
  fresh label := freshLayout_files label Sized
  change := by
    intro d L q op L' h hq hL hfits hC hc
    refine hc.files hg h hq hfits fun size bs hs => hs.sized hg h hq hL ?_
    rintro name size rfl ev hfind hlt
    have hle := hC.2 size ev rfl hfind
    omega

section

variable {fs : Fs} (hg : Geometry fs) {d d' : Disk} {L : Layout} (h : Holds fs (view fs d) L)
  (hL : L.Files Sized) {q : ℕ} (hq : q ∈ L.dirs) {name : List UInt8} {ev : Entry} {off : ℕ}
  {buf : List UInt8} (hfind : findEntry fs q name d = some ev)

structure Overwritten (fs : Fs) (d d' : Disk) (L : Layout) (q : ℕ) (name : List UInt8) (off : ℕ)
    (buf : List UInt8) : Prop where
  bytes : ∀ o k, read fs q name o k d' =
    some (((put 0 (contents fs q name d) off buf).drop o).take k)
  size : fileSize fs q name d' = max (fileSize fs q name d) (off + buf.length)
  others : ∀ q' ∈ L.dirs, ∀ name' ev', findEntry fs q' name' d = some ev' →
    ¬ (q' = q ∧ findEntry fs q name d = some ev') →
    ∀ o k, read fs q' name' o k d' = read fs q' name' o k d

include hg h hL hq hfind

theorem Layout.Written.overwritten {L' : Layout} (hev : ev ∈ L.kids q) (hfile : ev.isDir = false)
    (hbuf : buf ≠ []) (hfits : (Op.write name off buf).Fits)
    (hend : off + buf.length + fs.cb ≤ 2 ^ 32) (hw : L.Written fs L' q ev off buf)
    (h' : Holds fs (view fs d') L') : Overwritten fs d d' L q name off buf := by
  have hL' : L'.Files Sized := by
    refine (Change.write hfind hev hfile hbuf hend hw).files hg h hq hfits fun size bs hs =>
      hs.sized hg h hq hL ?_
    rintro name size heq
    cases heq
  have hsize : ev.size ≤ (L.data (.file q ev.pos)).length := hL q hq ev hev hfile
  obtain ⟨front, g, back, new, nf, hitems, hentry, hroom, rfl⟩ := hw
  have hdata : (L.edit q (front ++ .live (g.located nf (max ev.size (off + buf.length))) :: back)
      ev.pos (L.regions (.file q ev.pos) ++ new)
      (overlay (fill 0 (L.data (.file q ev.pos) ++ replicate (new.length * fs.cb) 0)
        ev.size off) off buf)).data (.file q ev.pos) =
      overlay (fill 0 (L.data (.file q ev.pos) ++ replicate (new.length * fs.cb) 0)
        ev.size off) off buf := Function.update_self _ _ _
  have hfind' : findEntry fs q name d' = some
      { ev with cluster := nf % 65536, size := max ev.size (off + buf.length) } := by
    have hlt : max ev.size (off + buf.length) < 2 ^ 32 :=
      max_lt (by rw [hentry]; exact g.entry_size_lt _) (by have := hg.cb_pos; omega)
    rw [h.findEntry_located hg hitems h' hq, hfind, map_some, Entry.relocated,
      if_pos (hentry ▸ rfl), Nat.mod_eq_of_lt hlt]
  refine ⟨?_, ?_, ?_⟩
  · intro o k
    have hroom' : off + buf.length ≤ (L.data (.file q ev.pos) ++
        replicate (new.length * fs.cb) (0 : UInt8)).length := by
      rwa [length_append, length_replicate, h.data_length, ← Nat.add_mul, ← length_append]
    rw [h'.read_file hg hq hfind' hL' hfile, h.contents_file hg hq hfind hL hfile, hdata,
      take_overlay_fill hroom' (by rw [length_append]; omega), take_append_of_le_length hsize]
  · simp only [fileSize, hfind, hfind', map_some, getD_some]
  · intro q' hq' name' ev' hev' hne o k
    refine h.read_located hg hitems h' hq' hL hL' (hentry ▸ rfl) hev' ?_ o k
    rintro ⟨rfl, hpos⟩
    have hsame : ev' = ev :=
      entriesAt_pos_inj (h.find_mem hg hq' hev') (h.find_mem hg hq' hfind) hpos
    exact hne ⟨rfl, hsame ▸ hfind⟩

end

theorem write_found {fs : Fs} (hg : Geometry fs) {d d' : Disk} {L : Layout}
    (h : Holds fs (view fs d) L) (hL : L.Files Sized) {q : ℕ} (hq : q ∈ L.dirs)
    {name : List UInt8} {ev : Entry} {off n : ℕ} {buf : List UInt8}
    (hfind : findEntry fs q name d = some ev) (hfits : (Op.write name off buf).Fits)
    (hw : write fs q name off buf d = (some n, d')) :
    n = buf.length ∧ ev.isDir = false ∧
      ((buf = [] ∧ d' = d) ∨ (buf ≠ [] ∧ Overwritten fs d d' L q name off buf)) := by
  obtain ⟨hn, hfile, hev, ⟨hnil, rfl⟩ | ⟨hne, hend, L', hw, h'⟩⟩ :=
    (write_found_ends hg h hq hfind hfits.2).of_some hw
  · exact ⟨hn, hfile, Or.inl ⟨hnil, rfl⟩⟩
  · exact ⟨hn, hfile, Or.inr ⟨hne, hw.overwritten hg h hL hq hfind hev hfile hne hfits hend h'⟩⟩

theorem write_created {fs : Fs} {d d' : Disk} {q off n : ℕ} {name buf : List UInt8}
    (hfind : findEntry fs q name d = none) (hw : write fs q name off buf d = (some n, d')) :
    ∃ d₁ ev, create fs q name d = (some (), d₁) ∧ findEntry fs q name d₁ = some ev ∧
      write fs q name off buf d₁ = (some n, d') := by
  have hends : (write fs q name off buf).Ends d
      (fun n d' => ∃ d₁ ev, create fs q name d = (some (), d₁) ∧
        findEntry fs q name d₁ = some ev ∧ write fs q name off buf d₁ = (some n, d'))
      fun _ => True := by
    apply write_missing_ends hfind
    refine Act.ends_self.mono ?_ fun _ _ => trivial
    intro _ d₁ hd₁
    refine ⟨fun _ => trivial, fun ev hev => Act.ends_self.mono ?_ fun _ _ => trivial⟩
    intro n d' hd'
    exact ⟨d₁, ev, hd₁, hev, hd'⟩
  exact hends.of_some hw

section

variable {fs : Fs} (hg : Geometry fs) {d d' : Disk} {L : Layout} (h : Holds fs (view fs d) L)
  {q : ℕ} (hq : q ∈ L.dirs) {name : List UInt8}

include hg h hq

/-- A new file is empty, and every other file reads as it did. -/
theorem create_reads (hL : L.Files Sized) (hc : create fs q name d = (some (), d')) :
    ∃ L', Holds fs (view fs d') L' ∧ L'.Files Sized ∧ L'.dirs = L.dirs ∧
      findEntry fs q name d = none ∧ (∀ ev, findEntry fs q name d' = some ev →
        ev.size = 0 ∧ contents fs q name d' = [] ∧ ev ∉ L.entries q) ∧
      ∀ q' ∈ L.dirs, ∀ name' ev', findEntry fs q' name' d = some ev' →
        findEntry fs q' name' d' = some ev' ∧
          ∀ o k, read fs q' name' o k d' = read fs q' name' o k d := by
  obtain ⟨hfind, g, ext, hslots, hentry, h'⟩ := (create_ends hg h hq name).of_some hc
  have hL' : (L.append q [.live g] ext).Files Sized := by
    have hfits : (Op.create name).Fits := trivial
    refine (Change.create ext hfind hslots hentry).files hg h hq hfits fun size bs hs =>
      hs.sized hg h hq hL ?_
    rintro name size heq
    cases heq
  have hq' : q ∈ (L.append q [.live g] ext).dirs := hq
  refine ⟨_, h', hL', rfl, hfind, ?_, ?_⟩
  · intro ev hev
    have hnew := h.findEntry_appended hg h' hq hfind hev
    have hge := entriesAt_pos_ge hnew
    simp only [entriesAt, mem_singleton, hentry] at hnew
    have hsize : ev.size = 0 := by rw [hnew]; rfl
    have hfile : ev.isDir = false := by
      rw [hnew]
      show (attrArch &&& attrDir != 0) = false
      decide
    refine ⟨hsize, ?_, ?_⟩
    · rw [h'.contents_file hg hq' hev hL' hfile, hsize, take_zero]
    · intro hold
      have hlt := entriesAt_pos_lt hold
      omega
  · intro q' hmem name' ev' hev'
    have hev'' := h.findEntry_append hg h' hmem hev'
    exact ⟨hev'', h.read_congr hg h' hL hL' hmem hmem hev' hev'' rfl⟩

end

/-- A successful `write` puts its bytes over the contents, with zeros between the old end and `off`;
a missing file counts as empty. No other file changes. -/
theorem write_contract {fs : Fs} {d d' : Disk} {q off n : ℕ} {name buf : List UInt8}
    (hr : Reachable Plain fs d) (hq : LiveDir fs d q) (hoff : off < 2 ^ 32)
    (hbuf : buf.length < 2 ^ 32) (hw : write fs q name off buf d = (some n, d')) :
    n = buf.length ∧ (∀ o k, read fs q name o k d' = some (((if buf = [] then contents fs q name d
      else put 0 (contents fs q name d) off buf).drop o).take k)) ∧
    fileSize fs q name d' = (if buf = [] then fileSize fs q name d
      else max (fileSize fs q name d) (off + buf.length)) ∧
    ∀ q' name' ev', LiveDir fs d q' → findEntry fs q' name' d = some ev' →
      ¬ (q' = q ∧ findEntry fs q name d = some ev') →
      ∀ o k, read fs q' name' o k d' = read fs q' name' o k d := by
  have hg := hr.geometry
  have hfits : (Op.write name off buf).Fits := ⟨hoff, hbuf⟩
  obtain ⟨L, h, hL⟩ := hr.holds (plain_sized fs hg)
  have hmem := h.liveDir_mem hg hq
  cases hfind : findEntry fs q name d with
  | some ev =>
    obtain ⟨hn, hfile, ⟨hnil, rfl⟩ | ⟨hne, hover⟩⟩ := write_found hg h hL hmem hfind hfits hw
    · simp only [if_pos hnil]
      refine ⟨hn, fun o k => ?_, trivial, fun _ _ _ _ _ _ _ _ => trivial⟩
      rw [h.read_file hg hmem hfind hL hfile, h.contents_file hg hmem hfind hL hfile]
    · simp only [if_neg hne]
      refine ⟨hn, hover.bytes, hover.size, ?_⟩
      intro q' name' ev' hq' hev' hother
      exact hover.others q' (h.liveDir_mem hg hq') name' ev' hev' (hfind ▸ hother)
  | none =>
    obtain ⟨d₁, ev₁, hc, hfind₁, hw₁⟩ := write_created hfind hw
    obtain ⟨L₁, h₁, hL₁, hdirs, -, hempty, hsame⟩ := create_reads hg h hmem hL hc
    have hmem₁ : q ∈ L₁.dirs := hdirs ▸ hmem
    obtain ⟨hsize₁, hcont₁, hnew⟩ := hempty ev₁ hfind₁
    have hcont : contents fs q name d = [] := by simp only [contents, read, hfind, getD_none]
    have hsize : fileSize fs q name d = 0 := by
      simp only [fileSize, hfind, map_none, getD_none]
    have hsize' : fileSize fs q name d₁ = 0 := by
      simp only [fileSize, hfind₁, map_some, getD_some, hsize₁]
    obtain ⟨hn, hfile, ⟨hnil, rfl⟩ | ⟨hne, hover⟩⟩ := write_found hg h₁ hL₁ hmem₁ hfind₁ hfits hw₁
    · simp only [if_pos hnil]
      refine ⟨hn, fun o k => ?_, hsize'.trans hsize.symm, ?_⟩
      · rw [h₁.read_file hg hmem₁ hfind₁ hL₁ hfile, hcont,
          ← h₁.contents_file hg hmem₁ hfind₁ hL₁ hfile, hcont₁]
      · intro q' name' ev' hq' hev' _
        exact (hsame q' (h.liveDir_mem hg hq') name' ev' hev').2
    simp only [if_neg hne]
    refine ⟨hn, ?_, ?_, ?_⟩
    · rw [hcont, ← hcont₁]
      exact hover.bytes
    · rw [hsize, ← hsize']
      exact hover.size
    intro q' name' ev' hq' hev' _ o k
    have hq'' := h.liveDir_mem hg hq'
    obtain ⟨hev'', hread⟩ := hsame q' hq'' name' ev' hev'
    rw [← hread]
    refine hover.others q' (hdirs.symm ▸ hq'') name' ev' hev'' ?_ o k
    rintro ⟨rfl, hsome⟩
    rw [hfind₁, Option.some.injEq] at hsome
    exact hnew (hsome ▸ h.find_mem hg hq'' hev')

theorem sample_writes : (write sampleFs 0 [0x41] 2 [7] sampleDisk).1 = some 1 ∧
    (write sampleFs 0 [0x41] 1 [] sampleDisk).1 = some 0 ∧
    fileSize sampleFs 0 [0x41] (write sampleFs 0 [0x41] 1 [] sampleDisk).2 ≠
      max (fileSize sampleFs 0 [0x41] sampleDisk) 1 := by
  decide +kernel

theorem write_contract_sample : ∃ d', write sampleFs 0 [0x41] 2 [7] sampleDisk = (some 1, d') ∧
    read sampleFs 0 [0x41] 0 9 d' = some [0, 0, 7] := by
  have hw := Act.run_eq_of_fst sample_writes.1
  obtain ⟨-, hread, -⟩ := write_contract (sample_reachable _) .root (by omega) (by decide) hw
  refine ⟨_, hw, ?_⟩
  rw [hread]
  simp only [contents, read, sample_find, getD_none]
  rfl

/-- Writing nothing behind the end of a file succeeds and does not make it longer. -/
theorem write_nothing : Reachable Plain sampleFs sampleDisk ∧
    ∃ d', write sampleFs 0 [0x41] 1 [] sampleDisk = (some 0, d') ∧ fileSize sampleFs 0 [0x41] d' ≠
      max (fileSize sampleFs 0 [0x41] sampleDisk) (1 + ([] : List UInt8).length) :=
  ⟨sample_reachable _, _, Act.run_eq_of_fst sample_writes.2.1, sample_writes.2.2⟩

end Vnu.Fat16
