import Vnu.Vfs.Generated

/-!
The runs of the files. A write that starts behind the run sets the size even when the pool has no
frames to make the run longer, and a generated node whose text has grown is copied from outside its
run, or is left with a size above it. Nothing else breaks the bounds: a read stays in the run of
its file, and an `open` makes and truncates files without touching the other runs.
-/
namespace Vnu.Vfs

open Lib List Function Act

def Node.backed (n : Node) : Bool := n.plain || n.generated

def leavesRun (s : State) : FileCall → Bool
  | .open path flags => (regenerated s path flags).any fun i => (regenSynth i s).1.isNone
  | .read fd count => (read fd count s).1.isNone
  | .write fd bytes => strays s (.write fd bytes)
  | _ => false

/-- The state, the pages of each file's run, and whether an access has left a run. -/
structure Backing where
  state : State
  pages : Fin maxN → ℕ
  strayed : Bool

def ranPages (s : State) (ni : Fin maxN) (need : ℕ) (pages : ℕ) : ℕ :=
  match reserved s ni need with
  | .grown _ => reservePages (s.nodes ni).cap need
  | _ => pages

def writePages (s : State) (fd : ℕ) (bytes : Str) (pages : Fin maxN → ℕ) : Fin maxN → ℕ :=
  match plainOf s fd with
  | none => pages
  | some (_, f, ni) =>
    let pos := (s.nodes ni).start f
    let need := pos + (bytes.take (word - 1 - pos)).length
    if haveAccess s.who (s.nodes ni) accW ∧ overQuota s (s.nodes ni) need = false then
      update pages ni (ranPages s ni need (pages ni))
    else pages

def Backing.step (b : Backing) (a : FileCall) : Backing where
  state := Vfs.step b.state a.op
  pages := match a with
    | .open .. => fun i => if (b.state.nodes i).used then b.pages i else 0
    | .write fd bytes => writePages b.state fd bytes b.pages
    | _ => b.pages
  strayed := b.strayed || leavesRun b.state a

def InFrames (n : Node) (pages : ℕ) : Prop := n.size ≤ n.cap ∧ n.cap ≤ pages * pageBytes

structure Backing.Bounded (b : Backing) : Prop where
  inside : b.strayed = false
  frames : ∀ i, (b.state.nodes i).backed = true → InFrames (b.state.nodes i) (b.pages i)

/-- The condition on a call: a write starts in the run, or gets one that is long enough, and a text
fits in the run of the node it is made for. -/
def Reaches (s : State) : FileCall → Prop
  | .open path flags => ∀ i, regenerated s path flags = some i →
      (nextText s).length ≤ (s.nodes i).cap
  | .write fd bytes => ∀ i f ni, Accepts s fd bytes i f ni →
      let pos := (s.nodes ni).start f
      let data := bytes.take (word - 1 - pos)
      (s.nodes ni).Fits pos data (reserved s ni (pos + data.length))
  | _ => True

instance (s : State) (a : FileCall) : Decidable (Reaches s a) :=
  match a with
  | .open path flags => decidable_of_iff (∀ i ∈ regenerated s path flags,
      (nextText s).length ≤ (s.nodes i).cap) Iff.rfl
  | .write fd bytes => decidable_of_iff (∀ q ∈ plainOf s fd,
      haveAccess s.who (s.nodes q.2.2) accW = true → let pos := (s.nodes q.2.2).start q.2.1
      let data := bytes.take (word - 1 - pos)
      overQuota s (s.nodes q.2.2) (pos + data.length) = false →
      (s.nodes q.2.2).Fits pos data (reserved s q.2.2 (pos + data.length)))
    ⟨fun h i f ni ha => h (i, f, ni) ha.plain ha.access ha.quota,
      fun h q hq hacc hquota => h q.1 q.2.1 q.2.2 ⟨hq, hacc, hquota⟩⟩
  | .close .. | .read .. | .lseek .. | .dup .. | .dup2 .. | .switch .. => .isTrue trivial

section

variable {b : Backing} {fd : ℕ} {bytes : Str} {i : Fin maxFd} {f : File} {ni : Fin maxN}

theorem backed_of_plain {n : Node} (h : n.plain = true) : n.backed = true := by
  rw [Node.backed, h]
  rfl

theorem backed_of_generated {n : Node} (h : n.generated = true) : n.backed = true := by
  rw [Node.backed, h, Bool.or_true]

theorem readDevice_answers (dev : DevKind) (count : ℕ) (s : State) :
    ∃ r, (readDevice dev count s).1 = some r := by
  cases dev with
  | framebuffer =>
    unfold readDevice
    split_ifs
    · exact ⟨_, rfl⟩
    · simp only [Bind.bind, ask]
      cases s.driver.head?.join with
      | _ => exact ⟨_, rfl⟩
  | block =>
    simp only [readDevice, Bind.bind, ask]
    cases s.driver.head?.join with
    | _ => exact ⟨_, rfl⟩
  | _ => exact ⟨_, rfl⟩

/-- A read is cut at the size, which is inside the run. -/
theorem read_inside {s : State} (h : ∀ i, (s.nodes i).backed = true →
      (s.nodes i).size ≤ (s.nodes i).cap) (fd count : ℕ) : (read fd count s).1 ≠ none := by
  unfold read
  rw [bind_of_some (look_run s)]
  cases fileOf s fd with
  | none => exact Option.some_ne_none _
  | some p =>
    obtain ⟨i, f⟩ := p
    dsimp only
    cases f.mount with
    | some m =>
      dsimp only
      split_ifs
      · exact Option.some_ne_none _
      · cases Fat16.read (s.mounts m).fs f.dirClu f.fname f.position count
          (s.disks (s.mounts m).blk) with
        | _ => exact Option.some_ne_none _
    | none =>
      cases f.node with
      | none => exact Option.some_ne_none _
      | some ni =>
        dsimp only
        obtain ⟨r, hr⟩ := readDevice_answers (s.nodes ni).dev count s
        split_ifs with hused hdir hacc hdev
        · exact Option.some_ne_none _
        · exact Option.some_ne_none _
        · exact Option.some_ne_none _
        · rw [bind_of_some (run_eq_of_fst hr)]
          cases r with
          | _ => exact Option.some_ne_none _
        · rw [bind_of_some (run_eq_of_fst hr)]
          cases r with
          | _ => exact Option.some_ne_none _
        · have hbacked : (s.nodes ni).backed = true := by
            rw [Bool.not_eq_true', Bool.not_eq_false] at hused
            by_cases hsynth : (s.nodes ni).synth = .none
            · exact backed_of_plain (by simp [Node.plain, hused, hdir, not_not.mp hdev, hsynth])
            · exact backed_of_generated (by simp [Node.generated, hused, hsynth])
          rw [reads_iff.mpr ⟨h ni hbacked, rfl⟩ f.position count]
          exact Option.some_ne_none _

theorem writePages_refused (h : ∀ i f ni, ¬ Accepts b.state fd bytes i f ni) :
    writePages b.state fd bytes b.pages = b.pages := by
  unfold writePages
  cases hp : plainOf b.state fd with
  | none => rfl
  | some q =>
    obtain ⟨i, f, ni⟩ := q
    exact if_neg fun hyes => h i f ni ⟨hp, hyes.1, hyes.2⟩

theorem frames_ran (need : ℕ) (h : InFrames (b.state.nodes ni) (b.pages ni)) :
    ((b.state.nodes ni).ran (reserved b.state ni need)).cap ≤
      ranPages b.state ni need (b.pages ni) * pageBytes := by
  unfold ranPages
  cases hr : reserved b.state ni need with
  | grown n' =>
    unfold reserved Node.reserve at hr
    dsimp only at hr
    split_ifs at hr
    obtain rfl := Reserved.grown.inj hr
    exact Nat.mod_le _ _
  | _ => exact h.2

theorem fits_iff {n : Node} {pos : ℕ} {data : Str} {s : State} {r : Reserved}
    (hr : reserved s ni (pos + data.length) = r) (hcap : (s.nodes ni).size ≤ (s.nodes ni).cap)
    (hno : r ≠ .fault) (hn : n = (s.nodes ni).ran r) :
    (n.written pos ((s.nodes ni).took pos data r)).size ≤ n.cap ↔ (s.nodes ni).Fits pos data r := by
  subst hn
  change max _ _ ≤ _ ↔ _
  cases r with
  | enough => exact iff_of_true (max_le hcap (reserved_enough hr)) trivial
  | refused =>
    refine Iff.trans (max_le_iff.trans (and_iff_right hcap)) ?_
    change pos + (data.take _).length ≤ (s.nodes ni).cap ↔ pos ≤ (s.nodes ni).cap
    rw [length_take]
    omega
  | fault => exact absurd rfl hno
  | grown n' =>
    have hcap' := (reserved_grown hr).2.2.1
    exact max_le_iff.trans (and_iff_right hcap')

theorem bounded_accepted_iff (h : b.Bounded) (ha : Accepts b.state fd bytes i f ni) {pos : ℕ}
    {data : Str} (hpos : pos = (b.state.nodes ni).start f)
    (hdata : data = bytes.take (word - 1 - pos)) :
    (b.step (.write fd bytes)).Bounded ↔
      (b.state.nodes ni).Fits pos data (reserved b.state ni (pos + data.length)) := by
  have hp := ha.plain
  obtain ⟨-, -, -, hplain⟩ := plainOf_some hp
  have hold := h.frames ni (backed_of_plain hplain)
  have hstate : (b.step (.write fd bytes)).state = (write fd bytes b.state).2 := ignore_snd _ _
  have hpages : (b.step (.write fd bytes)).pages = update b.pages ni
      (ranPages b.state ni (pos + data.length) (b.pages ni)) := by
    subst hpos hdata
    change writePages _ _ _ _ = _
    rw [writePages, hp]
    exact if_pos ⟨ha.access, ha.quota⟩
  have hframes := frames_ran (pos + data.length) hold
  generalize hr : reserved b.state ni (pos + data.length) = r at hframes
  obtain ⟨hmiss, hnone, -⟩ | ⟨hno, -, s', hrun, hnodes⟩ := write_run ha hpos hdata hr rfl rfl
  · refine iff_of_false (fun h' => ?_) (not_fits hr hmiss)
    have hin : (b.strayed || strays b.state (.write fd bytes)) = false := h'.inside
    rw [strays, hp, hnone] at hin
    simp at hin
  rw [← fits_iff hr hold.1 hno rfl]
  have hnode : (b.step (.write fd bytes)).state.nodes = update b.state.nodes ni
      (((b.state.nodes ni).ran r).written pos ((b.state.nodes ni).took pos data r)) := by
    rw [hstate, hrun, hnodes]
  constructor
  · intro h'
    have hni := h'.frames ni
    rw [hnode, update_self] at hni
    refine (hni (backed_of_plain ?_)).1
    rw [← hr, ran_fields]
    exact hplain
  intro hsize
  refine ⟨?_, fun j hj => ?_⟩
  · change (b.strayed || _) = false
    rw [h.inside, leavesRun, strays, hrun]
    simp
  rw [hnode] at hj ⊢
  rw [hpages]
  by_cases hji : j = ni
  · subst hji
    rw [update_self, update_self]
    exact ⟨hsize, hframes⟩
  · rw [update_of_ne hji] at hj ⊢
    rw [update_of_ne hji]
    exact h.frames j hj

theorem Backing.Bounded.of_same {b' : Backing} (h : b.Bounded)
    (hnodes : b'.state.nodes = b.state.nodes) (hpages : b'.pages = b.pages)
    (hin : b'.strayed = false) : b'.Bounded where
  inside := hin
  frames := by
    rw [hnodes, hpages]
    exact h.frames

theorem bounded_write_iff (h : b.Bounded) (fd : ℕ) (bytes : Str) :
    (b.step (.write fd bytes)).Bounded ↔ Reaches b.state (.write fd bytes) := by
  obtain ⟨hno, hnodes, hans⟩ | ⟨i, f, ni, ha⟩ := write_cases fd bytes b.state
  · refine iff_of_true (h.of_same ?_ (writePages_refused hno) ?_) fun i f ni ha =>
      (hno i f ni ha).elim
    · exact (congrArg State.nodes (ignore_snd _ _)).trans hnodes
    · exact Bool.or_eq_false_iff.mpr ⟨h.inside, strays_refused hans⟩
  · rw [bounded_accepted_iff h ha rfl rfl]
    constructor
    · intro hfits j g nj ha'
      obtain ⟨-, rfl, rfl⟩ : i = j ∧ f = g ∧ ni = nj := by simpa [ha.plain] using ha'.plain
      exact hfits
    · exact fun hreach => hreach i f ni ha

theorem generated_used {n : Node} (h : n.generated = true) : n.used = true :=
  (Bool.and_eq_true_iff.mp h).1

/-- The plain files are in their runs behind every `open`, so it comes to the generated nodes. -/
theorem bounded_opened (h : b.Bounded) {path : Str} {flags : ℕ} {s' : State}
    (hs' : s' = («open» path flags b.state).2)
    (hin : leavesRun b.state (.open path flags) = false)
    (hgen : ∀ j, (s'.nodes j).generated = true →
      (b.state.nodes j).used = true ∧ InFrames (s'.nodes j) (b.pages j)) :
    (b.step (.open path flags)).Bounded := by
  have hstate : (b.step (.open path flags)).state = s' := (ignore_snd _ _).trans hs'.symm
  refine ⟨Bool.or_eq_false_iff.mpr ⟨h.inside, hin⟩, fun j hj => ?_⟩
  rw [hstate] at hj ⊢
  change InFrames _ (if (b.state.nodes j).used then b.pages j else 0)
  rcases Bool.or_eq_true_iff.mp hj with hj | hj
  · rw [hs'] at hj ⊢
    obtain ⟨hsize, ⟨hu, hplain, hcap⟩ | ⟨hu, hcap⟩⟩ | ⟨hu, hsame⟩ :=
      (openRun_open b.state path flags).node_cases hj
    · rw [if_pos hu]
      exact ⟨by omega, hcap ▸ (h.frames j (backed_of_plain hplain)).2⟩
    · exact ⟨by omega, by omega⟩
    · rw [if_pos hu]
      rw [hsame] at hj ⊢
      exact h.frames j (backed_of_plain hj)
  · rw [if_pos (hgen j hj).1]
    exact (hgen j hj).2

/-- An `open` that makes a text may set a size that the run does not have. -/
theorem bounded_open_iff (h : b.Bounded) (path : Str) (flags : ℕ) :
    (b.step (.open path flags)).Bounded ↔ Reaches b.state (.open path flags) := by
  have hsame := open_generated b.state path flags
  cases hreg : regenerated b.state path flags with
  | none =>
    rw [hreg] at hsame
    refine iff_of_true (bounded_opened h rfl (by rw [leavesRun, hreg]; rfl) fun j hj => ?_) ?_
    · have hnode := hsame.node j (.inr hj)
      rw [hnode] at hj ⊢
      exact ⟨generated_used hj, h.frames j (backed_of_generated hj)⟩
    · intro i hi
      rw [hreg] at hi
      cases hi
  | some i =>
    rw [hreg] at hsame
    have hgen := regenerated_some hreg
    have hreaches : Reaches b.state (.open path flags) ↔
        (nextText b.state).length ≤ (b.state.nodes i).cap := by
      simp [Reaches, hreg]
    rw [hreaches]
    constructor
    · intro hb
      by_contra hlong
      have hin : (b.strayed || leavesRun b.state (.open path flags)) = false := hb.inside
      rw [leavesRun, hreg] at hin
      rcases regenSynth_short (Nat.not_le.mp hlong) with hnone | hnodes
      · simp [hnone] at hin
      · have hnode : («open» path flags b.state).2.nodes i =
            { b.state.nodes i with size := (nextText b.state).length } := by
          rw [hsame.node i (.inl (by rw [hnodes, update_self]; exact hgen)), hnodes, update_self]
        have hstate : (b.step (.open path flags)).state = («open» path flags b.state).2 :=
          ignore_snd _ _
        have hframes := hb.frames i
        rw [hstate, hnode] at hframes
        exact hlong (hframes (backed_of_generated hgen)).1
    · intro hfits
      obtain ⟨hok, hnodes⟩ := regenSynth_fits hfits
      refine bounded_opened h rfl (by rw [leavesRun, hreg, Option.any_some, hok]; rfl) ?_
      intro j hj
      have hnode := hsame.node j (.inr hj)
      rw [hnode, hnodes] at hj ⊢
      by_cases hji : j = i
      · subst hji
        rw [update_self]
        exact ⟨generated_used hgen, hfits, (h.frames j (backed_of_generated hgen)).2⟩
      · rw [update_of_ne hji] at hj ⊢
        exact ⟨generated_used hj, h.frames j (backed_of_generated hj)⟩

theorem quiet_inside (h : b.Bounded) {a : FileCall} (ha : a.quiet = true) :
    leavesRun b.state a = false := by
  cases a with
  | read fd count =>
    have hread := read_inside (fun i hi => (h.frames i hi).1) fd count
    rw [leavesRun, Option.isNone_eq_false_iff]
    exact Option.isSome_iff_ne_none.mpr hread
  | «open» path flags => cases ha
  | write fd bytes => cases ha
  | _ => rfl

theorem bounded_step_iff (b : Backing) (a : FileCall) (h : b.Bounded) :
    (b.step a).Bounded ↔ Reaches b.state a := by
  cases hq : a.quiet with
  | true =>
    have hin := quiet_inside h hq
    have hsame : (b.step a).pages = b.pages ∧ Reaches b.state a := by
      cases a <;> first | exact ⟨rfl, trivial⟩ | cases hq
    exact iff_of_true (h.of_same (quiet_nodes hq _) hsame.1
      (Bool.or_eq_false_iff.mpr ⟨h.inside, hin⟩)) hsame.2
  | false =>
    cases a with
    | «open» path flags => exact bounded_open_iff h path flags
    | write fd bytes => exact bounded_write_iff h fd bytes
    | _ => cases hq

/-- Every access lies in the run of its file and every run in its frames, exactly when every write
starts in the run or gets one that is long enough and every generated text fits in its run. -/
theorem runs_bounded_iff (b : Backing) (hb : b.Bounded) (calls : List FileCall) :
    Always Backing.step Backing.Bounded b calls ↔
      Throughout Backing.step (fun b a => Reaches b.state a) b calls :=
  always_iff_throughout_of (fun _ h => h) (fun _ _ _ h => h) bounded_step_iff hb calls

end

theorem bare_backed (i : Fin maxN) : (bare.nodes i).backed = false := by
  have hgen : (bare.nodes i).generated = false := by
    by_cases h : i = ⟨0, Nat.succ_pos 1023⟩
    · subst h
      rfl
    · simp [bare, h, Node.generated, Node.empty]
  rw [Node.backed, bare_plain, hgen]
  rfl

def backing (frames : List Bool) : Backing :=
  ⟨{ bare with poolFrames := frames.length, frames := frames }, fun _ => 0, false⟩

theorem bounded_backing (frames : List Bool) : (backing frames).Bounded :=
  ⟨rfl, fun i hi => absurd ((bare_backed i).symm.trans hi) Bool.false_ne_true⟩

/-- `/a` is made and written, rewritten from position 1, truncated, written again and read. -/
theorem runs_bounded_made : Always Backing.step Backing.Bounded (backing [true])
    [.open [slash, 97] (oCreat + oRdwr), .write 3 [1, 2, 3], .lseek 3 1 .set, .write 3 [8, 9],
      .open [slash, 97] (oTrunc + oRdwr), .write 4 [7], .lseek 4 0 .set, .read 4 1] := by
  refine (runs_bounded_iff _ (bounded_backing [true]) _).mpr ?_
  decide +kernel

/-- A byte is written at position 5 of the empty `/a`: none is taken, and the size is 5. -/
theorem write_leaves_run : ¬ Always Backing.step Backing.Bounded (backing [])
    [.open [slash, 97] (oCreat + oRdwr), .lseek 3 5 .set, .write 3 [1]] := by
  intro h
  have hsize := ((h _ prefix_rfl).frames ⟨1, by decide⟩ (by decide +kernel)).1
  exact absurd hsize (by decide +kernel)

end Vnu.Vfs
