import Vnu.Lib.Paging
import Vnu.Fat16.Listing
import Vnu.Vfs.Shape

/-!
Directories read by `getdents`: one record for each child, whatever sizes are asked for. A name has
room for 55 bytes.
-/
namespace Vnu.Vfs

open Lib List Nat

variable {ds : List Str} {path c dir : Str}

def childName (dir path : Str) : Option Str :=
  if (components path).dropLast = components dir then (components path).getLast? else none

inductive Directory where
  | ram (i : Fin maxN)
  | volume (m : Fin maxMounts) (cluster : ℕ)
  deriving DecidableEq

def Directory.children (s : State) : Directory → List Str
  | .ram i => (finRange maxN).filterMap fun j =>
      if (s.nodes j).used then childName (s.nodes i).path (s.nodes j).path else none
  | .volume m c =>
      ((Fat16.entries (s.mounts m).fs c (s.disks (s.mounts m).blk)).filter
        Fat16.Entry.isListed).map Fat16.Entry.name

def directoryOf (s : State) (fd : ℕ) : Option Directory :=
  match fileOf s fd with
  | none => none
  | some (_, f) => match f.mount with
    | some m => if f.fname = [] then some (.volume m f.dirClu) else none
    | none => match f.node with
      | none => none
      | some i =>
        if (s.nodes i).used && (s.nodes i).dir && haveAccess s.who (s.nodes i) accR then
          some (.ram i)
        else none

theorem render_of_isPrefixChild (hds : ∀ d ∈ ds, IsComponent d)
    (h : isPrefixChild (render ds) path = true) :
    ∃ c, IsComponent c ∧ path = render (ds ++ [c]) := by
  unfold isPrefixChild at h
  by_cases hnil : ds = []
  · subst hnil
    have hroot : render [] = [slash] := rfl
    rw [hroot, if_neg (by rintro rfl; simp at h), if_pos rfl] at h
    simp only [Bool.and_eq_true] at h
    obtain ⟨⟨hhead, hfree⟩, hlen⟩ := h
    cases path with
    | nil => simp at hhead
    | cons b c =>
      obtain rfl : b = slash := by simpa using hhead
      refine ⟨c, ⟨?_, by simpa using hfree⟩, by rw [render_concat]; rfl⟩
      rintro rfl
      simp at hlen
  · rw [if_neg (by rintro rfl; simp at h), if_neg (render_ne_root hds hnil)] at h
    simp only [Bool.and_eq_true] at h
    obtain ⟨⟨⟨hpre, hat⟩, hfree⟩, hlen⟩ := h
    obtain ⟨rest, rfl⟩ := isPrefixOf_iff_prefix.mp hpre
    cases rest with
    | nil => simp at hat
    | cons b c =>
      obtain rfl : b = slash := by simpa using hat
      refine ⟨c, ⟨?_, by simpa using hfree⟩, by rw [render_concat, if_neg hnil]⟩
      rintro rfl
      simp at hlen

theorem childName_render {cs : List Str} (hds : ∀ d ∈ ds, IsComponent d)
    (hcs : ∀ d ∈ cs, IsComponent d) :
    childName (render ds) (render cs) = some c ↔ cs = ds ++ [c] := by
  unfold childName
  rw [components_render hds, components_render hcs]
  constructor
  · intro h
    split_ifs at h with hdir
    rw [← hdir]
    exact (dropLast_append_getLast? c h).symm
  · rintro rfl
    simp

theorem isPrefixChild_eq (hd : Normal dir) (hp : Normal path) :
    isPrefixChild dir path = (childName dir path).isSome := by
  obtain ⟨-, ds, hds, rfl⟩ := hd
  obtain ⟨-, cs, hcs, rfl⟩ := hp
  rw [Bool.eq_iff_iff, Option.isSome_iff_exists]
  constructor
  · intro h
    obtain ⟨c, hc, hpath⟩ := render_of_isPrefixChild hds h
    refine ⟨c, (childName_render hds hcs).mpr (render_inj hcs ?_ hpath)⟩
    simpa [or_imp, forall_and] using ⟨hds, hc⟩
  · rintro ⟨c, hc⟩
    obtain rfl := (childName_render hds hcs).mp hc
    exact isPrefixChild_render hds (hcs c (by simp))

theorem basename_append (pre : Str) (hc : slash ∉ c) : basename (pre ++ slash :: c) = c := by
  unfold basename
  rw [reverse_append, reverse_cons, append_assoc, singleton_append,
    takeWhile_append_of_pos, takeWhile_cons_of_neg (by simp), append_nil, reverse_reverse]
  intro b hb
  rw [bne_iff_ne]
  rintro rfl
  exact hc (mem_reverse.mp hb)

theorem basename_of_childName (hd : Normal dir) (hp : Normal path)
    (h : childName dir path = some c) : basename path = c := by
  obtain ⟨-, ds, hds, rfl⟩ := hd
  obtain ⟨-, cs, hcs, rfl⟩ := hp
  obtain rfl := (childName_render hds hcs).mp h
  rw [render_concat]
  exact basename_append _ (hcs c (by simp)).2

def shown (names : List Str) : List Str := names.map (copy · direntName)

theorem map_filter_eq_map_filterMap {α β γ : Type*} {l : List α} {p : α → Bool} {f : α → γ}
    {g : α → Option β} {h : β → γ}
    (hfg : ∀ a ∈ l, (if p a then some (f a) else none) = (g a).map h) :
    (l.filter p).map f = (l.filterMap g).map h := by
  rw [← filterMap_eq_map, filterMap_filter, map_filterMap]
  exact filterMap_congr hfg

theorem names_ram {s : State} (hw : Written s) {i : Fin maxN} (hi : (s.nodes i).used = true) :
    ((childSlots s.nodes (s.nodes i).path).map (direntAt s.nodes)).map Dirent.name =
      shown ((Directory.ram i).children s) := by
  have hnormal : ∀ j, (s.nodes j).used = true → Normal (s.nodes j).path := by
    intro j hj
    exact hw.normal j _ (s.nodes j).dir (by simp [tree, Node.entry, hj])
  rw [map_map, shown, Directory.children]
  apply map_filter_eq_map_filterMap
  intro j _
  by_cases hj : (s.nodes j).used = true
  · have hchild := isPrefixChild_eq (hnormal i hi) (hnormal j hj)
    rw [hj, hchild]
    cases hc : childName (s.nodes i).path (s.nodes j).path with
    | none => rfl
    | some c =>
      have hbase := basename_of_childName (hnormal i hi) (hnormal j hj) hc
      simp [direntAt, hbase]
  · simp [hj]

def direntOf (ev : Fat16.Entry) : Dirent :=
  ⟨1, if isDirAttr ev.attr then 4 else 8, copy (ev.name.take (Fat16.nameMax - 1)) direntName⟩

theorem mountDirents_eq (fs : Fat16.Fs) (d : Fat16.Disk) {dir total fuel pos seen : ℕ}
    (h : (total - pos) / 32 < fuel) :
    mountDirents fs d fuel ⟨dir, pos, total, seen⟩ =
      ((Fat16.entriesFrom fs dir total d (total / 32 + 1) pos).filter
        Fat16.Entry.isListed).map direntOf := by
  induction fuel generalizing pos seen with
  | zero => omega
  | succ fuel ih =>
    have hfuel : (total - pos) / 32 < total / 32 + 1 := by omega
    unfold mountDirents Fat16.readdir
    rcases Fat16.scanUntil_cases Fat16.Entry.isListed hfuel with
      ⟨hnone, hall⟩ | ⟨ev, next, hle, htotal, hsome, hall⟩
    · unfold Fat16.Entry.isListed at hnone
      rw [hall]
      simp [hnone]
    · unfold Fat16.Entry.isListed at hsome
      rw [hall]
      simp only [hsome, Option.map_some]
      rw [ih (by omega)]
      rfl

theorem names_volume (fs : Fat16.Fs) (d : Fat16.Disk) (c : ℕ) :
    (mountDirents fs d ((Fat16.opendir fs c d).total / 32 + 1) (Fat16.opendir fs c d)).map
        Dirent.name =
      shown (((Fat16.entries fs c d).filter Fat16.Entry.isListed).map Fat16.Entry.name) := by
  unfold shown Fat16.opendir
  rw [mountDirents_eq fs d (by dsimp only; omega), map_map, map_map]
  refine map_congr_left fun ev _ => ?_
  simp [direntOf, copy, take_take, direntName, Fat16.nameMax]

def advanced (i : Fin maxFd) (n : ℕ) (s : State) : State :=
  setFile i (fun f => { f with position := (f.position + n) % word }) s

open Paging in
/-- A call hands out the next records of a list that has one for every child. -/
theorem getdents_run {s : State} (hw : Written s) {fd : ℕ} {i : Fin maxFd} {f : File}
    {d : Directory} (hf : fileOf s fd = some (i, f)) (hd : directoryOf s fd = some d) (count : ℕ) :
    ∃ all : List Dirent, all.map Dirent.name = shown (d.children s) ∧ getdents fd count s =
        (some (.ok (page all f.position (count / direntBytes))),
          advanced i (page all f.position (count / direntBytes)).length s) := by
  obtain ⟨-, hfile, -⟩ := fileOf_some hf
  have hout : ∀ all, handOut i all count s =
      (some (.ok (page all f.position (count / direntBytes))),
        advanced i (page all f.position (count / direntBytes)).length s) := by
    intro all
    rw [hfile]
    rfl
  unfold directoryOf at hd
  rw [hf] at hd
  dsimp only at hd
  unfold getdents
  simp only [look, Act.query, Bind.bind]
  rw [hf]
  dsimp only
  cases hm : f.mount with
  | some m =>
    rw [hm] at hd
    dsimp only at hd ⊢
    split_ifs at hd with hname
    obtain rfl := Option.some.inj hd
    rw [if_neg (not_not.mpr hname), hout]
    exact ⟨_, names_volume _ _ _, rfl⟩
  | none =>
    rw [hm] at hd
    cases hn : f.node with
    | none => simp [hn] at hd
    | some ni =>
      rw [hn] at hd
      dsimp only at hd ⊢
      split_ifs at hd with hopen
      obtain rfl := Option.some.inj hd
      simp only [Bool.and_eq_true] at hopen
      obtain ⟨⟨hused, hdir⟩, hread⟩ := hopen
      simp only [hused, hdir, hread, Bool.not_true, Bool.false_eq_true, if_false]
      rw [hout]
      exact ⟨_, names_ram hw hused, rfl⟩

structure Reading where
  fd : ℕ
  counts : ℕ → ℕ
  between : ℕ → List Op

namespace Reading

variable (r : Reading) (s : State)

def moment : ℕ → State
  | 0 => s
  | n + 1 => after step (step (moment n) (.getdents r.fd (r.counts n))) (r.between n)

def answer (n : ℕ) : Option (Except Errno (List Dirent)) :=
  (getdents r.fd (r.counts n) (r.moment s n)).1

/-- The records before the first empty answer have these names, each once. -/
def Lists (names : List Str) : Prop :=
  ∃ (n : ℕ) (pages : ℕ → List Dirent),
    (∀ j < n, r.answer s j = some (.ok (pages j)) ∧ pages j ≠ []) ∧ r.answer s n = some (.ok []) ∧
    (((range n).flatMap pages).map Dirent.name).Perm names

end Reading

structure Unmodified (fd : ℕ) (s t : State) : Prop where
  file : fileOf t fd = fileOf s fd
  directory : directoryOf t fd = directoryOf s fd
  children : ∀ d, directoryOf s fd = some d → d.children t = d.children s

def Reading.Undisturbed (r : Reading) (s : State) : Prop :=
  ∀ n, Unmodified r.fd (step (r.moment s n) (.getdents r.fd (r.counts n))) (r.moment s (n + 1))

theorem length_children_lt {s : State} {d : Directory}
    (hg : ∀ m c, d = .volume m c → Fat16.Geometry (s.mounts m).fs) :
    (d.children s).length < word := by
  cases d with
  | ram i =>
    calc ((Directory.ram i).children s).length ≤ (finRange maxN).length :=
          length_filterMap_le _ _
      _ = maxN := length_finRange
      _ < word := by decide
  | volume m c =>
    unfold Directory.children
    rw [length_map]
    exact lt_of_le_of_lt (length_filter_le _ _) (Fat16.length_entries_lt (hg m c rfl))

section

variable {s : State} {fd : ℕ} {i : Fin maxFd} {f : File} {d : Directory}

theorem fileOf_advanced (hf : fileOf s fd = some (i, f)) (n : ℕ) :
    fileOf (advanced i n s) fd = some (i, { f with position := (f.position + n) % word }) := by
  obtain ⟨rfl, rfl, hused⟩ := fileOf_some hf
  simp [fileOf, advanced, setFile, hused]

theorem directoryOf_advanced (hf : fileOf s fd = some (i, f)) (n : ℕ) :
    directoryOf (advanced i n s) fd = directoryOf s fd := by
  unfold directoryOf
  rw [fileOf_advanced hf, hf]
  rfl

end

theorem written_after {s : State} (hw : Written s) (ops : List Op) :
    Written (after step s ops) := by
  induction ops generalizing s with
  | nil => exact hw
  | cons op ops ih => exact ih (written_step hw op)

section

variable {s : State} {r : Reading} {d : Directory}

theorem Reading.written (hw : Written s) (n : ℕ) : Written (r.moment s n) := by
  induction n with
  | zero => exact hw
  | succ n ih => exact written_after (written_step ih _) _

open Paging

def Reading.room (r : Reading) (n : ℕ) : ℕ := r.counts n / direntBytes

structure Reading.At (r : Reading) (s : State) (d : Directory) (names : List Str) (n : ℕ) :
    Prop where
  file : ∃ i f, fileOf (r.moment s n) r.fd = some (i, f) ∧
    f.position = reached (shown names) r.room n
  directory : directoryOf (r.moment s n) r.fd = some d
  children : d.children (r.moment s n) = names

variable {names : List Str} {n : ℕ}

theorem Reading.At.answer (h : r.At s d names n) (hw : Written s) :
    ∃ records : List Dirent, r.answer s n = some (.ok records) ∧
      records.map Dirent.name = page (shown names) (reached (shown names) r.room n) (r.room n) := by
  obtain ⟨i, f, hf, hpos⟩ := h.file
  obtain ⟨all, hall, hrun⟩ := getdents_run (Reading.written hw n) hf h.directory (r.counts n)
  refine ⟨page all f.position (r.room n), ?_, ?_⟩
  · rw [Reading.answer, hrun]
    rfl
  · rw [map_page, hall, h.children, hpos]

/-- A call moves the position by the records it handed out. -/
theorem Reading.At.next (h : r.At s d names n) (hw : Written s) (hsize : names.length < word)
    (hq : r.Undisturbed s) : r.At s d names (n + 1) := by
  obtain ⟨i, f, hf, hpos⟩ := h.file
  obtain ⟨all, hall, hrun⟩ := getdents_run (Reading.written hw n) hf h.directory (r.counts n)
  have hcall : step (r.moment s n) (.getdents r.fd (r.counts n)) =
      advanced i (page all f.position (r.room n)).length (r.moment s n) := by
    change (ignore (getdents r.fd (r.counts n)) (r.moment s n)).2 = _
    rw [ignore_snd, hrun]
    rfl
  have hdir' : directoryOf (step (r.moment s n) (.getdents r.fd (r.counts n))) r.fd = some d := by
    rw [hcall, directoryOf_advanced hf, h.directory]
  obtain ⟨hfile, hdir, hchildren⟩ := hq n
  refine ⟨⟨i, { f with position := _ }, hfile.trans (hcall ▸ fileOf_advanced hf _), ?_⟩,
    hdir.trans hdir', ?_⟩
  · -- the position does not wrap: it never passes the number of children
    have hpage : (page all f.position (r.room n)).length =
        (page (shown names) (reached (shown names) r.room n) (r.room n)).length := by
      rw [← hpos, ← h.children, ← hall, ← map_page, length_map]
    have hle : reached (shown names) r.room (n + 1) ≤ (shown names).length := reached_le _
    have hshown : (shown names).length = names.length := length_map _
    have hnext : f.position + (page all f.position (r.room n)).length =
        reached (shown names) r.room (n + 1) := by
      rw [hpage, hpos, reached]
    rw [hnext]
    exact Nat.mod_eq_of_lt (by omega)
  · rw [hchildren d hdir', hcall]
    exact h.children

theorem Reading.at_every (hw : Written s) (hd : directoryOf s r.fd = some d)
    (hstart : ∀ i f, fileOf s r.fd = some (i, f) → f.position = 0)
    (hsize : (d.children s).length < word) (hq : r.Undisturbed s) (n : ℕ) :
    r.At s d (d.children s) n := by
  induction n with
  | zero =>
    refine ⟨?_, hd, rfl⟩
    cases hf : fileOf s r.fd with
    | none => simp [directoryOf, hf] at hd
    | some p => exact ⟨p.1, p.2, hf, hstart p.1 p.2 hf⟩
  | succ n ih => exact ih.next hw hsize hq

theorem Reading.lists_shown (hw : Written s) (hat : ∀ n, r.At s d names n)
    (hroom : ∀ n, direntBytes ≤ r.counts n) :
    ∃ (n : ℕ) (pages : ℕ → List Dirent),
      (∀ j < n, r.answer s j = some (.ok (pages j)) ∧ pages j ≠ []) ∧ r.answer s n = some (.ok []) ∧
      ((range n).flatMap pages).map Dirent.name = shown names := by
  choose pages hanswer hnames using fun n => (hat n).answer hw
  have hpos : ∀ n, 0 < r.room n := fun n => Nat.div_pos (hroom n) (by decide)
  have hend : ∃ n, (∀ j < n, page (shown names) (reached (shown names) r.room j) (r.room j) ≠ []) ∧
      page (shown names) (reached (shown names) r.room n) (r.room n) = [] ∧
      ((range n).flatMap fun j =>
        page (shown names) (reached (shown names) r.room j) (r.room j)) = shown names :=
    exists_end hpos
  obtain ⟨n, hfull, hempty, hall⟩ := hend
  refine ⟨n, pages, fun j hj => ⟨hanswer j, ?_⟩, ?_, ?_⟩
  · intro hnil
    refine hfull j hj ?_
    rw [← hnames j, hnil, map_nil]
  · have hnil : pages n = [] := map_eq_nil_iff.mp ((hnames n).trans hempty)
    rw [hanswer n, hnil]
  · rw [map_flatMap, ← hall]
    exact flatMap_congr fun j _ => hnames j

theorem length_of_mem_shown (h : c ∈ shown names) : c.length < direntName := by
  obtain ⟨d, -, rfl⟩ := mem_map.mp h
  rw [copy, length_take]
  unfold direntName
  omega

theorem shown_eq (h : ∀ c ∈ names, c.length < direntName) : shown names = names := by
  refine (map_congr_left fun c hc => ?_).trans (map_id names)
  have hlen := h c hc
  exact take_of_length_le (by omega)

theorem Reading.length_lt_of_lists (hw : Written s) (hat : ∀ n, r.At s d names n)
    {listed : List Str} (h : r.Lists s listed) : ∀ c ∈ listed, c.length < direntName := by
  obtain ⟨n, pages, hpages, -, hperm⟩ := h
  intro c hc
  obtain ⟨e, he, rfl⟩ := mem_map.mp (hperm.mem_iff.mpr hc)
  obtain ⟨j, hj, hej⟩ := mem_flatMap.mp he
  obtain ⟨records, hanswer, hnames⟩ := (hat j).answer hw
  have hsame : some (Except.ok (pages j)) = some (Except.ok records) :=
    (hpages j (mem_range.mp hj)).1.symm.trans hanswer
  obtain rfl : pages j = records := Except.ok.inj (Option.some.inj hsame)
  have hmem : e.name ∈ page (shown names) (reached (shown names) r.room j) (r.room j) := by
    rw [← hnames]
    exact mem_map_of_mem hej
  exact length_of_mem_shown (mem_of_mem_drop (mem_of_mem_take hmem))

end

/-- A directory read in calls of any sizes is listed exactly when its names fit in records. -/
theorem lists_children_iff (s : State) (hw : Written s) (r : Reading) (d : Directory)
    (hd : directoryOf s r.fd = some d)
    (hstart : ∀ i f, fileOf s r.fd = some (i, f) → f.position = 0)
    (hvolume : ∀ m c, d = .volume m c → Fat16.Geometry (s.mounts m).fs)
    (hroom : ∀ n, direntBytes ≤ r.counts n) (hq : r.Undisturbed s) :
    r.Lists s (d.children s) ↔ ∀ c ∈ d.children s, c.length < direntName := by
  have hat := Reading.at_every hw hd hstart (length_children_lt hvolume) hq
  constructor
  · intro h
    exact Reading.length_lt_of_lists hw hat h
  · intro h
    obtain ⟨n, pages, hpages, hend, hnames⟩ := Reading.lists_shown hw hat hroom
    rw [shown_eq h] at hnames
    exact ⟨n, pages, hpages, hend, hnames ▸ Perm.refl _⟩

def rootDirectory : Directory := .ram ⟨0, Nat.succ_pos 1023⟩

def oneFile (name : Str) : State := after step bare [.touch (slash :: name), .open [slash] 0]

def oneByOne : Reading := ⟨3, fun _ => direntBytes, fun _ => []⟩

theorem written_oneFile (name : Str) : Written (oneFile name) := written_after written_bare _

theorem undisturbed_alone (s : State) (fd : ℕ) (counts : ℕ → ℕ) :
    (⟨fd, counts, fun _ => []⟩ : Reading).Undisturbed s :=
  fun _ => ⟨rfl, rfl, fun _ _ => rfl⟩

theorem fileOf_start {s : State} (h : ∀ i, (s.files i).position = 0) (fd : ℕ) (i : Fin maxFd)
    (f : File) (hf : fileOf s fd = some (i, f)) : f.position = 0 := by
  obtain ⟨-, rfl, -⟩ := fileOf_some hf
  exact h i

def threeEntries : State :=
  after step bare [.touch [slash, 97], .mkdir [slash, 98], .touch [slash, 99], .open [slash] 0]

/-- Two files and a directory, read in buffers for one record and for two in turn. -/
theorem lists_children_short :
    rootDirectory.children threeEntries = [[97], [98], [99]] ∧
      (⟨3, fun n => (n % 2 + 1) * direntBytes, fun _ => []⟩ : Reading).Lists threeEntries
        [[97], [98], [99]] := by
  obtain ⟨hdir, hstart, hchildren⟩ : directoryOf threeEntries 3 = some rootDirectory ∧
      (∀ i, (threeEntries.files i).position = 0) ∧
        rootDirectory.children threeEntries = [[97], [98], [99]] := by
    decide +kernel
  refine ⟨hchildren, hchildren ▸ (lists_children_iff threeEntries (written_after written_bare _)
    ⟨3, _, fun _ => []⟩ rootDirectory hdir (fileOf_start hstart _) (by simp [rootDirectory])
    (fun n => Nat.le_mul_of_pos_left _ (Nat.succ_pos _)) (undisturbed_alone _ _ _)).mpr ?_⟩
  rw [hchildren]
  decide

/-- A file with a name of 56 letters: its record has 55 of them. -/
theorem getdents_cuts_name :
    rootDirectory.children (oneFile (replicate 56 97)) = [replicate 56 97] ∧
      oneByOne.answer (oneFile (replicate 56 97)) 0 = some (.ok [⟨2, 8, replicate 55 97⟩]) ∧
      ¬ oneByOne.Lists (oneFile (replicate 56 97)) [replicate 56 97] := by
  have hchildren : rootDirectory.children (oneFile (replicate 56 97)) =
      [replicate 56 97] := by decide +kernel
  refine ⟨hchildren, by decide +kernel, fun h => ?_⟩
  have hat := Reading.at_every (r := oneByOne) (d := rootDirectory)
    (written_oneFile (replicate 56 97)) (by decide +kernel)
    (fileOf_start (by decide +kernel) _) (length_children_lt (by simp [rootDirectory]))
    (undisturbed_alone _ _ _)
  have hshort := Reading.length_lt_of_lists (written_oneFile _) hat h (replicate 56 97)
    (mem_singleton.mpr rfl)
  exact absurd hshort (by decide)

end Vnu.Vfs
