import Vnu.Lib.History
import Vnu.Lib.Sparse
import Vnu.Vfs.Edits

/-!
What is read from a file of the node table. The run of a file is not cleared when the file is
truncated, so a write behind the end shows old bytes.
-/
namespace Vnu.Vfs

open Lib List Act Nat

variable {n : Node} {data : Str} {s' : State}

inductive FileCall where
  | open (path : Str) (flags : ℕ)
  | close (fd : ℕ)
  | read (fd count : ℕ)
  | write (fd : ℕ) (bytes : Str)
  | lseek (fd : ℕ) (offset : ℤ) (whence : Whence)
  | dup (fd : ℕ)
  | dup2 (oldfd newfd : ℕ)
  | switch (who : Caller)

def FileCall.op : FileCall → Op
  | .open path flags => .open path flags
  | .close fd => .close fd
  | .read fd len => .read fd len
  | .write fd bytes => .write fd bytes
  | .lseek fd offset whence => .lseek fd offset whence
  | .dup fd => .dup fd
  | .dup2 oldfd newfd => .dup2 oldfd newfd
  | .switch who => .switch who

def plainOf (s : State) (fd : ℕ) : Option (Fin maxFd × File × Fin maxN) :=
  match fileOf s fd with
  | none => none
  | some (i, f) => match f.mount with
    | some _ => none
    | none => match f.node with
      | none => none
      | some ni => if (s.nodes ni).plain then some (i, f, ni) else none

abbrev Contents := Fin maxN → Str

def openedContents (s : State) (flags : ℕ) (c : Contents)
    (run : Option (Except Errno ℕ) × State) : Contents :=
  let made : Contents := fun i => if (s.nodes i).used then c i else []
  match run.1 with
  | some (.ok fd) => match plainOf run.2 fd with
    | some (_, _, ni) => if has flags oTrunc then Function.update made ni [] else made
    | none => made
  | _ => made

def writtenContents (s : State) (fd : ℕ) (bytes : Str) (c : Contents) : Contents :=
  match plainOf s fd, (write fd bytes s).1 with
  | some (_, f, ni), some (.ok taken) =>
    Function.update c ni (Sparse.splice 0 (c ni)
      (if has f.flags oAppend then (c ni).length else f.position) (bytes.take taken))
  | _, _ => c

structure Session where
  state : State
  contents : Contents
  strayed : Bool

def strays (s : State) : FileCall → Bool
  | .read fd len => (plainOf s fd).isSome && (read fd len s).1.isNone
  | .write fd bytes => (plainOf s fd).isSome && (write fd bytes s).1.isNone
  | _ => false

def Session.step (p : Session) (a : FileCall) : Session where
  state := Vfs.step p.state a.op
  contents := match a with
    | .open path flags => openedContents p.state flags p.contents («open» path flags p.state)
    | .write fd bytes => writtenContents p.state fd bytes p.contents
    | _ => p.contents
  strayed := p.strayed || strays p.state a

structure Session.Yields (p : Session) : Prop where
  inside : p.strayed = false
  reads : ∀ i, (p.state.nodes i).plain = true → ∀ pos count,
    readStored (p.state.nodes i) pos count = some ((((p.contents i).drop pos).take count).map some)

def Node.ClearTo (n : Node) (pos : ℕ) : Prop := ∀ j, n.size ≤ j → j < pos → n.buf j = 0

def reserved (s : State) (i : Fin maxN) (need : ℕ) : Reserved :=
  (s.nodes i).reserve need fun _ =>
    decide (reservePages (s.nodes i).cap need ≤ s.poolFrames) && s.frames.headD false

def Reserved.answer : Reserved → Option Bool
  | .enough | .grown _ => some true
  | .refused => some false
  | .fault => none

def Node.ran (n : Node) : Reserved → Node
  | .grown n' => n'
  | _ => n

def Node.took (n : Node) (pos : ℕ) (data : Str) : Reserved → Str
  | .refused => data.take (n.cap - pos)
  | _ => data

/-- A write of `data` at `pos` shows no old bytes: behind the end it has a byte and room for it, and
a fresh run is as large as it should be. -/
def Node.Takes (n : Node) (pos : ℕ) (data : Str) : Reserved → Prop
  | .enough => n.ClearTo pos ∧ (n.size < pos → data ≠ [])
  | .refused => n.ClearTo pos ∧ (n.size < pos → data ≠ [] ∧ pos < n.cap)
  | .fault => False
  | .grown n' => (n.size < pos → data ≠ []) ∧ pos + data.length ≤ n'.cap

def Node.start (n : Node) (f : File) : ℕ := if has f.flags oAppend then n.size else f.position

structure Accepts (s : State) (fd : ℕ) (bytes : Str) (i : Fin maxFd) (f : File) (ni : Fin maxN) :
    Prop where
  plain : plainOf s fd = some (i, f, ni)
  access : haveAccess s.who (s.nodes ni) accW = true
  quota : overQuota s (s.nodes ni) ((s.nodes ni).start f +
    (bytes.take (word - 1 - (s.nodes ni).start f)).length) = false

def Careful (s : State) : FileCall → Prop
  | .write fd bytes => ∀ i f ni, plainOf s fd = some (i, f, ni) →
      haveAccess s.who (s.nodes ni) accW = true → let pos := (s.nodes ni).start f
      let data := bytes.take (word - 1 - pos)
      overQuota s (s.nodes ni) (pos + data.length) = false →
      (s.nodes ni).Takes pos data (reserved s ni (pos + data.length))
  | _ => True

instance (pos : ℕ) : Decidable (n.ClearTo pos) :=
  decidable_of_iff (∀ j < pos, n.size ≤ j → n.buf j = 0)
    ⟨fun h j hj hlt => h j hlt hj, fun h j hlt hj => h j hj hlt⟩

instance (pos : ℕ) (r : Reserved) : Decidable (n.Takes pos data r) :=
  match r with
  | .enough => inferInstanceAs (Decidable (n.ClearTo pos ∧ (n.size < pos → data ≠ [])))
  | .refused =>
    inferInstanceAs (Decidable (n.ClearTo pos ∧ (n.size < pos → data ≠ [] ∧ pos < n.cap)))
  | .fault => inferInstanceAs (Decidable False)
  | .grown n' =>
    inferInstanceAs (Decidable ((n.size < pos → data ≠ []) ∧ pos + data.length ≤ n'.cap))

instance (s : State) (a : FileCall) : Decidable (Careful s a) :=
  match a with
  | .write fd bytes => decidable_of_iff (∀ q ∈ plainOf s fd,
      haveAccess s.who (s.nodes q.2.2) accW = true → let pos := (s.nodes q.2.2).start q.2.1
      let data := bytes.take (word - 1 - pos)
      overQuota s (s.nodes q.2.2) (pos + data.length) = false →
      (s.nodes q.2.2).Takes pos data (reserved s q.2.2 (pos + data.length)))
    ⟨fun h i f ni hp => h (i, f, ni) hp, fun h q hq => h q.1 q.2.1 q.2.2 hq⟩
  | .open .. | .close .. | .read .. | .lseek .. | .dup .. | .dup2 .. | .switch .. =>
    .isTrue trivial

/-- Reading tells the contents of a file, and that they lie inside its run. -/
theorem reads_iff {c : Str} :
    (∀ pos count, readStored n pos count = some (((c.drop pos).take count).map some)) ↔
      n.size ≤ n.cap ∧ n.bytes = c := by
  constructor
  · intro h
    have hall := h 0 (max n.size c.length)
    rw [drop_zero, take_of_length_le (by omega)] at hall
    unfold readStored at hall
    dsimp only at hall
    rw [min_eq_left (by omega)] at hall
    split_ifs at hall with hcap hin
    · -- without a run nothing is copied, so there is nothing to read
      have hlist := Option.some.inj hall
      have hsize : n.size = 0 := by
        by_contra hne
        obtain ⟨k, hk⟩ := Nat.exists_eq_succ_of_ne_zero hne
        rw [hk] at hlist
        cases c with
        | nil => cases hlist
        | cons b c => cases hlist
      rw [hsize] at hlist
      have hc : c = [] := by simpa using hlist.symm
      exact ⟨by omega, by rw [Node.bytes, hsize, hc]; rfl⟩
    · refine ⟨by omega, ?_⟩
      have hlist := Option.some.inj hall
      simp only [zero_add] at hlist
      have hmap : n.bytes.map some = c.map some := by
        rw [← hlist, Node.bytes, map_map]
        rfl
      exact map_injective_iff.mpr (Option.some_injective _) hmap
  · rintro ⟨hcap, rfl⟩ pos count
    have hslice : (n.bytes.drop pos).take count =
        Sparse.image (fun i => n.buf (pos + i)) (min (n.size - pos) count) := by
      change ((Sparse.image n.buf n.size).drop pos).take count = _
      rw [Sparse.drop_image, Sparse.take_image, min_comm]
    unfold readStored
    dsimp only
    rw [hslice]
    split_ifs with hzero hin
    · have htake : min (n.size - pos) count = 0 := by omega
      rw [htake]
      rfl
    · omega
    · rw [Sparse.image, map_map]
      rfl

section

variable {s : State} {fd : ℕ} {i : Fin maxFd} {f : File} {ni : Fin maxN}

theorem plainOf_some (h : plainOf s fd = some (i, f, ni)) :
    fileOf s fd = some (i, f) ∧ f.mount = none ∧ f.node = some ni ∧ (s.nodes ni).plain = true := by
  unfold plainOf at h
  cases hf : fileOf s fd with
  | none => simp [hf] at h
  | some p =>
    obtain ⟨j, g⟩ := p
    rw [hf] at h
    dsimp only at h
    cases hm : g.mount with
    | some m => simp [hm] at h
    | none =>
      rw [hm] at h
      cases hn : g.node with
      | none => simp [hn] at h
      | some k =>
        rw [hn] at h
        dsimp only at h
        split_ifs at h with hplain
        obtain ⟨rfl, hrest⟩ := Prod.mk.inj (Option.some.inj h)
        obtain ⟨rfl, rfl⟩ := Prod.mk.inj hrest
        exact ⟨rfl, hm, hn, hplain⟩

theorem plain_fields (h : n.plain = true) :
    n.used = true ∧ n.dir = false ∧ n.dev = .none ∧ n.synth = .none := by
  simpa [Node.plain, and_assoc] using h

theorem read_answers (hp : plainOf s fd = some (i, f, ni))
    (hcap : (s.nodes ni).size ≤ (s.nodes ni).cap) (count : ℕ) :
    (read fd count s).1 ≠ none := by
  obtain ⟨hf, hm, hn, hplain⟩ := plainOf_some hp
  obtain ⟨hused, hdir, hdev, -⟩ := plain_fields hplain
  have hstored := reads_iff.mpr ⟨hcap, rfl⟩ f.position count
  unfold read
  simp only [look, query, Bind.bind]
  rw [hf]
  simp only [hm, hn, hdev, hstored]
  split_ifs <;> simp [err, ok, advance, update]

end

def Node.written (n : Node) (pos : ℕ) (bytes : Str) : Node :=
  { n.store pos bytes with size := max n.size (pos + bytes.length) }

theorem written_bytes_iff (n : Node) (pos : ℕ) (bytes : Str) :
    (n.written pos bytes).bytes = Sparse.splice 0 n.bytes pos bytes ↔
      n.ClearTo pos ∧ (n.size < pos → bytes ≠ []) :=
  Sparse.image_overlay_iff 0 n.buf n.size pos bytes

section

variable {s : State} {ni : Fin maxN} {need : ℕ}

theorem reserved_enough (h : reserved s ni need = .enough) : need ≤ (s.nodes ni).cap := by
  unfold reserved Node.reserve at h
  dsimp only at h
  split_ifs at h with hle
  exact hle

theorem reserved_grown {n' : Node} (h : reserved s ni need = .grown n') :
    (s.nodes ni).cap < need ∧ n' = { s.nodes ni with buf := n'.buf, cap := n'.cap } ∧
      n'.size ≤ n'.cap ∧ n'.bytes = (s.nodes ni).bytes ∧ ∀ pos, n'.ClearTo pos := by
  unfold reserved Node.reserve at h
  dsimp only at h
  split_ifs at h with hle hno hfault
  obtain rfl := Reserved.grown.inj h
  rw [not_or, not_lt, not_lt] at hfault
  refine ⟨by omega, rfl, hfault.2, ?_, ?_⟩
  · refine Sparse.image_inj.mpr fun i hi => ?_
    exact if_pos hi
  · intro pos j hj _
    exact if_neg (Nat.not_lt.mpr hj)

theorem nodeReserve_run (s : State) (ni : Fin maxN) (need : ℕ) :
    ∃ s', s'.nodes = Function.update s.nodes ni ((s.nodes ni).ran (reserved s ni need)) ∧
      nodeReserve ni need s = ((reserved s ni need).answer, s') := by
  have hsame : ∀ {c : Prop} [Decidable c], (if c then { s with frames := s.frames.tail } else
      s).nodes = Function.update s.nodes ni (s.nodes ni) := by
    intro c _
    rw [Function.update_eq_self]
    split_ifs <;> rfl
  unfold nodeReserve
  dsimp only
  cases hr : reserved s ni need <;> unfold reserved at hr <;> rw [hr]
  · exact ⟨_, hsame, rfl⟩
  · exact ⟨_, hsame, rfl⟩
  · exact ⟨_, hsame, rfl⟩
  · refine ⟨_, ?_, rfl⟩
    rw [setNode, hsame, Function.update_idem]
    rfl

variable {fd : Fin maxFd} {pos : ℕ} {bytes : Str} {g : File → File}

theorem look_run (s : State) : look s = (some s, s) := rfl

theorem finish_run (hfit : bytes ≠ [] → pos + bytes.length ≤ (s.nodes ni).cap) :
    (do
      storeAt ni pos bytes
      update (setFile fd g)
      ok bytes.length : Act State (Except Errno ℕ)) s =
    (some (.ok bytes.length), setFile fd g (setNode ni (Node.written · pos bytes) s)) := by
  have hstore : storeAt ni pos bytes s = (some (), setNode ni (Node.written · pos bytes) s) := by
    unfold storeAt
    rw [if_neg]
    · rfl
    · rintro ⟨hne, hlt⟩
      have := hfit hne
      omega
  rw [bind_of_some hstore]
  rfl

theorem finish_strays (hne : bytes ≠ []) (hout : (s.nodes ni).cap < pos + bytes.length) :
    ((do
      storeAt ni pos bytes
      update (setFile fd g)
      ok bytes.length : Act State (Except Errno ℕ)) s) = (none, s) := by
  have hstore : storeAt ni pos bytes s = (none, s) := by
    unfold storeAt
    rw [if_pos ⟨hne, hout⟩]
  simp only [Bind.bind, hstore]

theorem writeStored_eq (hdata : data = bytes.take (word - 1 - pos))
    (hq : overQuota s (s.nodes ni) (pos + data.length) = false) {room : Bool}
    (hroom : nodeReserve ni (pos + data.length) s = (some room, s')) {took : Str}
    (htook : took = if room then data else data.take ((s'.nodes ni).cap - pos)) :
    writeStored fd ni pos bytes s = (do
      storeAt ni pos took
      update (setFile fd fun f => { f with position := pos + took.length })
      ok took.length : Act State (Except Errno ℕ)) s' := by
  subst hdata
  unfold writeStored
  rw [bind_of_some (look_run s), if_neg (by rw [hq]; exact Bool.false_ne_true), bind_of_some hroom,
    bind_of_some (look_run s'), htook]

theorem writeStored_overQuota (hdata : data = bytes.take (word - 1 - pos))
    (hq : overQuota s (s.nodes ni) (pos + data.length) = true) :
    writeStored fd ni pos bytes s = (some (.error .dquot), s) := by
  subst hdata
  unfold writeStored
  rw [bind_of_some (look_run s), if_pos hq]
  rfl

theorem writeStored_strays (hdata : data = bytes.take (word - 1 - pos))
    (hq : overQuota s (s.nodes ni) (pos + data.length) = false)
    (hroom : nodeReserve ni (pos + data.length) s = (none, s')) :
    writeStored fd ni pos bytes s = (none, s') := by
  subst hdata
  unfold writeStored
  rw [bind_of_some (look_run s), if_neg (by rw [hq]; exact Bool.false_ne_true)]
  simp only [Bind.bind, hroom]

end

section

variable {s : State} {fd : ℕ} {i : Fin maxFd} {f : File} {ni : Fin maxN}

theorem write_plain (hp : plainOf s fd = some (i, f, ni))
    (hacc : haveAccess s.who (s.nodes ni) accW = true) (bytes : Str) :
    write fd bytes s = writeStored i ni ((s.nodes ni).start f) bytes
      (setFile i (fun g => { g with position := (s.nodes ni).start f }) s) := by
  obtain ⟨hf, hm, hn, hplain⟩ := plainOf_some hp
  obtain ⟨hused, hdir, hdev, hsynth⟩ := plain_fields hplain
  unfold write
  rw [bind_of_some (look_run s), hf]
  simp only [hm, hn, hused, hdir, hdev, hsynth, hacc]
  rfl

theorem write_denied (hp : plainOf s fd = some (i, f, ni))
    (hacc : haveAccess s.who (s.nodes ni) accW = false) (bytes : Str) :
    write fd bytes s = (some (.error .acces), s) := by
  obtain ⟨hf, hm, hn, hplain⟩ := plainOf_some hp
  obtain ⟨hused, hdir, -, -⟩ := plain_fields hplain
  unfold write
  rw [bind_of_some (look_run s), hf]
  simp only [hm, hn, hused, hdir, hacc]
  rfl

/-- A write that is accepted misses the run, or takes its bytes. -/
theorem write_run (ha : Accepts s fd bytes i f ni) {pos : ℕ} (hpos : pos = (s.nodes ni).start f)
    (hdata : data = bytes.take (word - 1 - pos)) {r : Reserved}
    (hr : reserved s ni (pos + data.length) = r) {took : Str}
    (htook : took = (s.nodes ni).took pos data r) (hn : n = (s.nodes ni).ran r) :
    ((r = .fault ∨ took ≠ [] ∧ n.cap < pos + took.length) ∧ (write fd bytes s).1 = none ∧
        (write fd bytes s).2.nodes = Function.update s.nodes ni n) ∨
      r ≠ .fault ∧ (took ≠ [] → pos + took.length ≤ n.cap) ∧
        ∃ s', write fd bytes s = (some (.ok took.length), s') ∧
          s'.nodes = Function.update s.nodes ni (n.written pos took) := by
  rw [write_plain ha.plain ha.access, ← hpos]
  -- the descriptor is moved first, which matters to nothing below
  obtain ⟨s₁, hs₁⟩ : ∃ s₁, s₁ = setFile i (fun g => { g with position := pos }) s := ⟨_, rfl⟩
  rw [← hs₁]
  have hq₁ : overQuota s₁ (s₁.nodes ni) (pos + data.length) = false := by
    rw [hs₁, hdata, hpos]
    exact ha.quota
  obtain ⟨s₂, hs₂, hrun⟩ := nodeReserve_run s₁ ni (pos + data.length)
  rw [show reserved s₁ ni (pos + data.length) = r by rw [hs₁, ← hr]; rfl] at hs₂ hrun
  rw [show s₁.nodes = s.nodes by rw [hs₁]; rfl, ← hn] at hs₂
  have hnode : s₂.nodes ni = n := by rw [hs₂, Function.update_self]
  by_cases hfault : r = .fault
  · rw [hfault] at hrun
    rw [writeStored_strays hdata hq₁ hrun]
    exact .inl ⟨.inl hfault, rfl, hs₂⟩
  obtain ⟨room, hroom, htake⟩ : ∃ room, r.answer = some room ∧
      took = if room then data else data.take ((s₂.nodes ni).cap - pos) := by
    rw [hnode, hn, htook]
    cases r with
    | enough | grown n' => exact ⟨true, rfl, rfl⟩
    | refused => exact ⟨false, rfl, rfl⟩
    | fault => exact absurd rfl hfault
  rw [hroom] at hrun
  rw [writeStored_eq hdata hq₁ hrun htake]
  by_cases hfits : took ≠ [] → pos + took.length ≤ n.cap
  · refine .inr ⟨hfault, hfits, _, finish_run (by rwa [hnode]), ?_⟩
    simp only [setFile, setNode, hs₂, hnode, Function.update_idem]
  · obtain ⟨hne, hout⟩ := Classical.not_imp.mp hfits
    rw [finish_strays hne (by rw [hnode]; omega)]
    exact .inl ⟨.inr ⟨hne, by omega⟩, rfl, hs₂⟩

theorem nodes_of_aside {α : Type} {x : Act State α} (h : Aside x) : (x s).2.nodes = s.nodes :=
  congrArg Prod.fst (h s)

theorem write_elsewhere (hp : plainOf s fd = none) (bytes : Str) :
    (write fd bytes s).2.nodes = s.nodes := by
  unfold plainOf at hp
  unfold write
  rw [bind_of_some (look_run s)]
  cases hf : fileOf s fd with
  | none => rfl
  | some p =>
    obtain ⟨i, f⟩ := p
    dsimp only at hp ⊢
    cases hm : f.mount with
    | some m =>
      refine nodes_of_aside (.ite aside_err ?_)
      refine .bind aside_setFile fun _ => ?_
      refine .bind aside_onDisk fun r => ?_
      cases r with
      | none => exact aside_err
      | some got => exact .bind aside_setFile fun _ => aside_ok
    | none =>
      cases hn : f.node with
      | none => rfl
      | some ni =>
        dsimp only at hp ⊢
        by_cases hu : (!(s.nodes ni).used) = true
        · rw [if_pos hu]
          rfl
        rw [if_neg hu]
        by_cases hd : (s.nodes ni).dir = true
        · rw [if_pos hd]
          rfl
        rw [if_neg hd]
        by_cases ha : (!haveAccess s.who (s.nodes ni) accW) = true
        · rw [if_pos ha]
          rfl
        rw [if_neg ha]
        by_cases hv : (s.nodes ni).dev ≠ .none
        · rw [if_pos hv]
          refine nodes_of_aside (.bind aside_writeDevice fun r => ?_)
          cases r with
          | error e => exact aside_err
          | ok put =>
            exact .ite (.bind aside_advance fun _ => aside_ok)
              aside_ok
        · have hsynth : (s.nodes ni).synth ≠ .none := by
            intro hnone
            simp_all [Node.plain]
          rw [if_neg hv, if_pos hsynth]
          exact nodes_of_aside (.ite (aside_setSysctlName _) aside_err)

/-- A write leaves the node table alone, or is accepted. -/
theorem write_cases (fd : ℕ) (bytes : Str) (s : State) :
    ((∀ i f ni, ¬ Accepts s fd bytes i f ni) ∧ (write fd bytes s).2.nodes = s.nodes ∧
        (plainOf s fd = none ∨ ∃ e, (write fd bytes s).1 = some (.error e))) ∨
      ∃ i f ni, Accepts s fd bytes i f ni := by
  by_cases ha : ∃ i f ni, Accepts s fd bytes i f ni
  · exact .inr ha
  push Not at ha
  refine .inl ⟨ha, ?_⟩
  cases hp : plainOf s fd with
  | none => exact ⟨write_elsewhere hp bytes, .inl rfl⟩
  | some q =>
    obtain ⟨i, f, ni⟩ := q
    cases hacc : haveAccess s.who (s.nodes ni) accW with
    | false =>
      rw [write_denied hp hacc]
      exact ⟨rfl, .inr ⟨_, rfl⟩⟩
    | true =>
      have hq : overQuota s (s.nodes ni) ((s.nodes ni).start f +
          (bytes.take (word - 1 - (s.nodes ni).start f)).length) = true := by
        by_contra hq
        exact ha i f ni ⟨hp, hacc, by simpa using hq⟩
      rw [(write_plain hp hacc bytes).trans (writeStored_overQuota rfl hq)]
      exact ⟨rfl, .inr ⟨_, rfl⟩⟩

theorem ran_fields (s : State) (ni : Fin maxN) (need : ℕ) :
    (s.nodes ni).ran (reserved s ni need) = { s.nodes ni with
      buf := ((s.nodes ni).ran (reserved s ni need)).buf
      cap := ((s.nodes ni).ran (reserved s ni need)).cap } := by
  cases hr : reserved s ni need with
  | grown n' => exact (reserved_grown hr).2.1
  | _ => rfl

def Node.Fits (n : Node) (pos : ℕ) (data : Str) : Reserved → Prop
  | .enough => True
  | .refused => pos ≤ n.cap
  | .fault => False
  | .grown n' => pos + data.length ≤ n'.cap

instance (pos : ℕ) (r : Reserved) : Decidable (n.Fits pos data r) :=
  match r with
  | .enough => inferInstanceAs (Decidable True)
  | .refused => inferInstanceAs (Decidable (pos ≤ n.cap))
  | .fault => inferInstanceAs (Decidable False)
  | .grown n' => inferInstanceAs (Decidable (pos + data.length ≤ n'.cap))

theorem took_fits {k pos : ℕ} (hne : data.take (k - pos) ≠ []) :
    pos + (data.take (k - pos)).length ≤ k := by
  have hlen := length_pos_iff.mpr hne
  rw [length_take] at hlen ⊢
  omega

theorem not_fits {pos : ℕ} {r : Reserved} (hr : reserved s ni (pos + data.length) = r)
    (h : r = .fault ∨ (s.nodes ni).took pos data r ≠ [] ∧
      ((s.nodes ni).ran r).cap < pos + ((s.nodes ni).took pos data r).length) :
    ¬ (s.nodes ni).Fits pos data r := by
  intro hfits
  obtain rfl | ⟨hne, hout⟩ := h
  · exact hfits
  refine absurd hout (Nat.not_lt.mpr ?_)
  cases r with
  | enough => exact reserved_enough hr
  | refused => exact took_fits hne
  | fault => exact hfits.elim
  | grown n' => exact hfits

end

end Vnu.Vfs
