import Vnu.Vfs.Contents

/-!
One call seen from the files: what each of them should hold and does hold after it. Only a write can
part the two.
-/
namespace Vnu.Vfs

open Lib List Function Act

variable {n : Node} {took data : Str} {s' s₁ : State} {pos : ℕ} {α : Type} {a : Except Errno ℕ}

section

variable {p p' : Session}

theorem Session.Yields.inRun (h : p.Yields) {i : Fin maxN} (hi : (p.state.nodes i).plain = true) :
    (p.state.nodes i).size ≤ (p.state.nodes i).cap ∧ (p.state.nodes i).bytes = p.contents i :=
  reads_iff.mp (h.reads i hi)

theorem Session.Yields.of_same (h : p.Yields) (hnodes : p'.state.nodes = p.state.nodes)
    (hcontents : p'.contents = p.contents) (hin : p'.strayed = false) : p'.Yields where
  inside := hin
  reads := by
    rw [hnodes, hcontents]
    exact h.reads

/-- One file is rewritten: what is read from the others is as before. -/
theorem Session.Yields.rewritten_iff (h : p.Yields) {ni : Fin maxN} {c : Str}
    (hnodes : p'.state.nodes = Function.update p.state.nodes ni n)
    (hcontents : p'.contents = Function.update p.contents ni c) (hplain : n.plain = true)
    (hin : p'.strayed = false) : p'.Yields ↔ n.size ≤ n.cap ∧ n.bytes = c := by
  rw [← reads_iff]
  constructor
  · intro h'
    have hread := h'.reads ni
    rw [hnodes, hcontents, update_self, update_self] at hread
    exact hread hplain
  intro hread
  refine ⟨hin, fun j hj => ?_⟩
  rw [hnodes] at hj ⊢
  rw [hcontents]
  by_cases hji : j = ni
  · subst hji
    rw [update_self, update_self]
    exact hread
  · rw [update_of_ne hji] at hj ⊢
    rw [update_of_ne hji]
    exact h.reads j hj

variable {fd : ℕ} {bytes : Str} {i : Fin maxFd} {f : File} {ni : Fin maxN}

theorem state_write (p : Session) (fd : ℕ) (bytes : Str) :
    (p.step (.write fd bytes)).state = (write fd bytes p.state).2 :=
  ignore_snd _ _

theorem yields_written_iff (h : p.Yields) (hp : plainOf p.state fd = some (i, f, ni))
    (hrun : write fd bytes p.state = (some (.ok took.length), s'))
    (hnodes : s'.nodes = Function.update p.state.nodes ni
      (n.written ((p.state.nodes ni).start f) took))
    (hplain : n.plain = true) (hbytes : n.bytes = (p.state.nodes ni).bytes)
    (htook : bytes.take took.length = took) :
    (p.step (.write fd bytes)).Yields ↔ (n.written ((p.state.nodes ni).start f) took).size ≤ n.cap ∧
        n.ClearTo ((p.state.nodes ni).start f) ∧
        (n.size < (p.state.nodes ni).start f → took ≠ []) := by
  obtain ⟨-, -, -, hwas⟩ := plainOf_some hp
  have hcontent := (h.inRun hwas).2
  have hstart : (if has f.flags oAppend then (p.contents ni).length else f.position) =
      (p.state.nodes ni).start f := by
    rw [← hcontent, Node.start, Node.bytes, length_map, length_range]
  have hcontents : (p.step (.write fd bytes)).contents = Function.update p.contents ni
      (Sparse.splice 0 n.bytes ((p.state.nodes ni).start f) took) := by
    change writtenContents p.state fd bytes p.contents = _
    unfold writtenContents
    rw [hp, hrun]
    dsimp only
    rw [hstart, htook, hbytes, hcontent]
  have hin : (p.step (.write fd bytes)).strayed = false := by
    change (p.strayed || _) = false
    rw [h.inside, strays, hrun]
    simp
  have hnodes' : (p.step (.write fd bytes)).state.nodes = Function.update p.state.nodes ni
      (n.written ((p.state.nodes ni).start f) took) := by
    rw [state_write, hrun, hnodes]
  rw [h.rewritten_iff hnodes' hcontents hplain hin, written_bytes_iff]
  rfl

theorem not_yields_of_strays (hp : plainOf p.state fd = some (i, f, ni))
    (hrun : (write fd bytes p.state).1 = none) : ¬ (p.step (.write fd bytes)).Yields := by
  intro h
  have hin : (p.strayed || strays p.state (.write fd bytes)) = false := h.inside
  rw [strays, hp, hrun] at hin
  simp at hin

theorem take_took {k m : ℕ} (hdata : data = bytes.take k)
    (htook : took = data.take m) : bytes.take took.length = took := by
  subst hdata htook
  rw [take_take, length_take]
  exact take_eq_take_iff.mpr (by omega)

theorem takes_refused_iff (hcap : n.size ≤ n.cap)
    (hfits : data.take (n.cap - pos) ≠ [] → pos + (data.take (n.cap - pos)).length ≤ n.cap) :
    ((n.written pos (data.take (n.cap - pos))).size ≤ n.cap ∧ n.ClearTo pos ∧
        (n.size < pos → data.take (n.cap - pos) ≠ [])) ↔ n.Takes pos data .refused := by
  have htake : data.take (n.cap - pos) ≠ [] ↔ data ≠ [] ∧ pos < n.cap := by
    rw [ne_eq, take_eq_nil_iff, not_or, and_comm]
    refine and_congr_right fun _ => ?_
    omega
  rw [htake] at hfits ⊢
  constructor
  · rintro ⟨-, hclear, hsome⟩
    exact ⟨hclear, hsome⟩
  rintro ⟨hclear, hsome⟩
  refine ⟨max_le hcap ?_, hclear, hsome⟩
  by_cases hlt : n.size < pos
  · exact hfits (hsome hlt)
  · rw [length_take]
    omega

theorem takes_grown_iff {n' : Node} (hcap : n.size ≤ n.cap)
    (hlt : n.cap < pos + data.length) (hsize : n'.size = n.size) (hcap' : n'.size ≤ n'.cap)
    (hclear : ∀ pos, n'.ClearTo pos) (hfits : data ≠ [] → pos + data.length ≤ n'.cap) :
    ((n'.written pos data).size ≤ n'.cap ∧ n'.ClearTo pos ∧ (n'.size < pos → data ≠ [])) ↔
      n.Takes pos data (.grown n') := by
  rw [hsize]
  -- without a byte to write, the call asks for more than the run only behind the end
  have hbehind : (n.size < pos → data ≠ []) → data ≠ [] := by
    rintro hsome rfl
    exact hsome (by simpa using Nat.lt_of_le_of_lt hcap hlt) rfl
  constructor
  · rintro ⟨-, -, hsome⟩
    exact ⟨hsome, hfits (hbehind hsome)⟩
  · rintro ⟨hsome, hroom⟩
    exact ⟨max_le hcap' hroom, hclear pos, hsome⟩

theorem fits_of_takes {r : Reserved} (h : n.Takes pos data r) (hcap : n.size ≤ n.cap) :
    n.Fits pos data r := by
  cases r with
  | enough => trivial
  | refused =>
    by_cases hlt : n.size < pos
    · exact (h.2 hlt).2.le
    · exact (Nat.not_lt.mp hlt).trans hcap
  | fault => exact h
  | grown n' => exact h.2

/-- A write that starts behind the end of a file brings to light what the run has there. -/
theorem yields_takes_iff (h : p.Yields) (ha : Accepts p.state fd bytes i f ni)
    (hpos : pos = (p.state.nodes ni).start f) (hdata : data = bytes.take (word - 1 - pos)) :
    (p.step (.write fd bytes)).Yields ↔
      (p.state.nodes ni).Takes pos data (reserved p.state ni (pos + data.length)) := by
  have hp := ha.plain
  obtain ⟨-, -, -, hplain⟩ := plainOf_some hp
  obtain ⟨hcap, -⟩ := h.inRun hplain
  generalize hr : reserved p.state ni (pos + data.length) = r
  obtain ⟨hmiss, hnone, -⟩ | ⟨hno, hfits, s', hrun, hnodes⟩ := write_run ha hpos hdata hr rfl rfl
  · exact iff_of_false (not_yields_of_strays hp hnone) fun ht =>
      not_fits hr hmiss (fits_of_takes ht hcap)
  subst hpos
  cases r with
  | enough =>
    have hsize : ((p.state.nodes ni).written ((p.state.nodes ni).start f) data).size ≤
        (p.state.nodes ni).cap := max_le hcap (reserved_enough hr)
    rw [yields_written_iff h hp hrun hnodes hplain rfl (take_took hdata (take_length).symm)]
    exact and_iff_right hsize
  | refused =>
    rw [yields_written_iff h hp hrun hnodes hplain rfl (take_took hdata rfl)]
    exact takes_refused_iff hcap hfits
  | fault => exact absurd rfl hno
  | grown n' =>
    obtain ⟨hlt, hn', hcap', hbytes', hclear'⟩ := reserved_grown hr
    have hplain' : n'.plain = (p.state.nodes ni).plain := by
      rw [hn']
      rfl
    have hsize' : n'.size = (p.state.nodes ni).size := by rw [hn']
    rw [yields_written_iff h hp hrun hnodes (hplain'.trans hplain) hbytes'
      (take_took hdata (take_length).symm)]
    exact takes_grown_iff hcap hlt hsize' hcap' hclear' hfits

end

theorem strays_refused {s : State} {fd : ℕ} {bytes : Str}
    (h : plainOf s fd = none ∨ ∃ e, (write fd bytes s).1 = some (.error e)) :
    strays s (.write fd bytes) = false := by
  rw [strays]
  obtain hp | ⟨e, he⟩ := h
  · rw [hp]
    rfl
  · rw [he]
    simp

theorem yields_write_iff {p : Session} (h : p.Yields) (fd : ℕ) (bytes : Str) :
    (p.step (.write fd bytes)).Yields ↔ Careful p.state (.write fd bytes) := by
  obtain ⟨hno, hnodes, hans⟩ | ⟨i, f, ni, ha⟩ := write_cases fd bytes p.state
  · refine iff_of_true (h.of_same ?_ ?_ ?_) fun i f ni hp hacc hq =>
      (hno i f ni ⟨hp, hacc, hq⟩).elim
    · rw [state_write, hnodes]
    · change writtenContents p.state fd bytes p.contents = _
      unfold writtenContents
      obtain hp | ⟨e, he⟩ := hans
      · rw [hp]
      · rw [he]
        cases plainOf p.state fd <;> rfl
    · exact Bool.or_eq_false_iff.mpr ⟨h.inside, strays_refused hans⟩
  · rw [yields_takes_iff h ha rfl rfl]
    constructor
    · intro htakes j g nj hp _
      obtain ⟨-, rfl, rfl⟩ : i = j ∧ f = g ∧ ni = nj := by simpa [ha.plain] using hp
      exact fun _ => htakes
    · exact fun hcareful => hcareful i f ni ha.plain ha.access ha.quota

def PlainSame (s s' : State) : Prop :=
  ∀ j, (s'.nodes j).plain = true → s'.nodes j = s.nodes j

instance : IsPreorder State PlainSame where
  refl _ _ _ := rfl
  trans _ _ _ h h' j hj := by
    have hsame := h' j hj
    rw [hsame] at hj ⊢
    exact h j hj

theorem plainSame_of_aside {x : Act State α} (h : Aside x) : Moves PlainSame x :=
  Moves.mono h fun _ _ hs j _ => congrFun (congrArg Prod.fst hs) j

def others (i : Fin maxN) (s : State) : SynthKind × ({j : Fin maxN // j ≠ i} → Node) :=
  ((s.nodes i).synth, fun j => s.nodes j)

theorem others_setNode {i : Fin maxN} {f : Node → Node} (hf : ∀ n, (f n).synth = n.synth) :
    Moves (Same (others i)) (update (setNode i f)) := by
  refine .update fun s => ?_
  refine Prod.ext ?_ (funext fun j => ?_)
  · simp [others, setNode, hf]
  · simp [others, setNode, j.2]

theorem others_nodeReserve (i : Fin maxN) (need : ℕ) :
    Moves (Same (others i)) (nodeReserve i need) := by
  intro s
  obtain ⟨s', hs', hrun⟩ := nodeReserve_run s i need
  rw [hrun]
  refine Prod.ext ?_ (funext fun j => ?_)
  · simp only [others, hs', update_self]
    cases hr : reserved s i need with
    | grown n' =>
      obtain ⟨-, hn', -⟩ := reserved_grown hr
      rw [Node.ran, hn']
    | _ => rfl
  · simp [others, hs', j.2]

theorem others_regenSynth (i : Fin maxN) : Moves (Same (others i)) (regenSynth i) := by
  have hask : Moves (Same (others i)) ask := fun _ => rfl
  refine .bind hask fun text => ?_
  refine .bind (others_setNode ?_) fun _ => ?_
  · intro n
    rfl
  refine .bind (others_nodeReserve i _) fun room => .ite (others_setNode ?_) .pure
  intro n
  rfl

theorem plainSame_regenSynth {s : State} {i : Fin maxN} (h : (s.nodes i).synth ≠ .none) :
    PlainSame s (regenSynth i s).2 := by
  intro j hj
  have hsame : others i (regenSynth i s).2 = others i s := others_regenSynth i s
  by_cases hji : j = i
  · subst hji
    have hsynth : ((regenSynth j s).2.nodes j).synth = (s.nodes j).synth := congrArg Prod.fst hsame
    rw [(plain_fields hj).2.2.2] at hsynth
    exact absurd hsynth.symm h
  · exact congrFun (congrArg Prod.snd hsame) ⟨j, hji⟩

theorem plainSame_openEffects (i : Fin maxN) (flags : ℕ) :
    Moves PlainSame (openEffects i flags) := by
  intro s
  unfold openEffects
  rw [bind_of_some (look_run s)]
  split_ifs with h
  · exact Moves.bind_from (plainSame_regenSynth h) fun _ =>
      plainSame_of_aside aside_openDevice
  · exact plainSame_of_aside aside_openDevice s

def Blank (old new : Node) : Prop :=
  new.size = 0 ∧ (old.used = true ∧ old.plain = true ∧ new.cap = old.cap ∨
    old.used = false ∧ new.cap = 0)

def Fresh (s s' : State) : Prop :=
  ∀ j, (s'.nodes j).plain = true → ((s.nodes j).used = true → s'.nodes j = s.nodes j) ∧
      ((s.nodes j).used = false → Blank (s.nodes j) (s'.nodes j))

theorem fresh_refl (s : State) : Fresh s s := by
  intro j hj
  refine ⟨fun _ => rfl, fun hfree => ?_⟩
  rw [(plain_fields hj).1] at hfree
  cases hfree

theorem Fresh.trans_plainSame {s s'' : State} (h : Fresh s s') (h' : PlainSame s' s'') :
    Fresh s s'' := by
  intro j hj
  have hsame := h' j hj
  rw [hsame] at hj ⊢
  exact h j hj

theorem fresh_add {s : State} {abs : Str} {i : Fin maxN} {nodes : Nodes}
    (h : add s.who s.nodes abs false = some (i, nodes)) : Fresh s { s with nodes := nodes } := by
  obtain ⟨hcap, hsize, hfree, hothers⟩ := add_empty h
  intro j hj
  by_cases hji : j = i
  · subst hji
    refine ⟨fun hused => ?_, fun _ => ⟨hsize, .inr ⟨hfree, hcap⟩⟩⟩
    rw [hfree] at hused
    cases hused
  · refine ⟨fun _ => hothers j hji, fun hunused => ?_⟩
    rw [show ({ s with nodes := nodes } : State).nodes j = s.nodes j from hothers j hji] at hj
    rw [(plain_fields hj).1] at hunused
    cases hunused

theorem fresh_openNode (abs : Str) (flags : ℕ) : Moves Fresh (openNode abs flags) := by
  intro s
  unfold openNode
  rw [bind_of_some (look_run s)]
  cases findIndex s.nodes abs with
  | some i => exact fresh_refl s
  | none =>
    split_ifs with hcreat
    · exact fresh_refl s
    cases parentDir s.nodes abs with
    | none => exact fresh_refl s
    | some par =>
      dsimp only
      split_ifs with hacc
      · exact fresh_refl s
      cases hadd : add s.who s.nodes abs false with
      | none => exact fresh_refl s
      | some q =>
        obtain ⟨i, nodes⟩ := q
        dsimp only
        cases findIndex nodes abs with
        | some k => exact fresh_add hadd
        | none => exact fresh_add hadd

def Emptied (flags : ℕ) (a : Except Errno ℕ) (s : State) (j : Fin maxN) : Prop :=
  has flags oTrunc = true ∧ ∃ fd i f, a = .ok fd ∧ plainOf s fd = some (i, f, j)

structure Opened (s : State) (flags : ℕ) (a : Except Errno ℕ) (s' : State) : Prop where
  emptied : ∀ j, Emptied flags a s' j → Blank (s.nodes j) (s'.nodes j)
  kept : ∀ j, ¬ Emptied flags a s' j → (s'.nodes j).plain = true →
    ((s.nodes j).used = true → s'.nodes j = s.nodes j) ∧
      ((s.nodes j).used = false → Blank (s.nodes j) (s'.nodes j))

theorem Fresh.opened {s : State} {flags : ℕ} (h : Fresh s s')
    (hno : ∀ j, ¬ Emptied flags a s' j) : Opened s flags a s' :=
  ⟨fun j hj => absurd hj (hno j), fun j _ => h j⟩

theorem Fresh.opened_error {s : State} (h : Fresh s s') (flags : ℕ) (e : Errno) :
    Opened s flags (.error e) s' :=
  h.opened fun j hj => by
    obtain ⟨-, fd, i, f, herr, -⟩ := hj
    cases herr

theorem plainOf_file {s : State} {fd : Fin maxFd} {file : File} {i : Fin maxN}
    (hfile : s.files fd = file) (hused : file.used = true) (hmount : file.mount = none)
    (hnode : file.node = some i) :
    plainOf s fd.val = if (s.nodes i).plain then some (fd, file, i) else none := by
  have hfd : fileOf s fd.val = some (fd, file) := by
    simp [fileOf, hfile, hused]
  unfold plainOf
  rw [hfd]
  simp only [hmount, hnode]

theorem ends_openSlot {s : State} (h : Fresh s s₁) (i : Fin maxN) (flags : ℕ) :
    (openSlot i flags).Ends s₁ (Opened s flags) (Fresh s) := by
  unfold openSlot
  rw [ends_bind]
  refine .of_eq_some (look_run s₁) ?_
  cases hfree : freeFd s₁ with
  | none => exact h.opened_error flags .nospc
  | some fd =>
    rw [ends_bind, ends_update]
    obtain ⟨file, hfile⟩ : ∃ file : File, file =
      { File.closed with used := true, flags := flags, node := some i, owner := s₁.who.pid } :=
      ⟨_, rfl⟩
    rw [← hfile]
    obtain ⟨hused, hmount, hnode⟩ : file.used = true ∧ file.mount = none ∧ file.node = some i := by
      rw [hfile]
      exact ⟨rfl, rfl, rfl⟩
    split_ifs with htrunc
    · rw [ends_bind, ends_update]
      rw [Bool.and_eq_true] at htrunc
      obtain ⟨s₂, hs₂⟩ : ∃ s₂, s₂ = setNode i (fun n => { n with size := 0 })
        (setFile fd (fun _ => file) s₁) := ⟨_, rfl⟩
      rw [← hs₂]
      have hnodes : s₂.nodes = Function.update s₁.nodes i { s₁.nodes i with size := 0 } := by
        rw [hs₂]
        rfl
      have hplain : (s₂.nodes i).plain = true := by
        rw [hnodes, update_self]
        exact htrunc.2
      have hof : plainOf s₂ fd.val = some (fd, file, i) := by
        rw [plainOf_file (by rw [hs₂]; simp [setFile, setNode]) hused hmount hnode, if_pos hplain]
      refine ⟨fun j hj => ?_, fun j hno hj => ?_⟩
      · obtain ⟨-, fd', k, f, hfd, hj'⟩ := hj
        obtain rfl := Except.ok.inj hfd
        rw [hof] at hj'
        simp only [Option.some.injEq, Prod.mk.injEq] at hj'
        rw [← hj'.2.2, hnodes, update_self]
        refine ⟨rfl, ?_⟩
        obtain ⟨hold, hnew⟩ := h i htrunc.2
        obtain hu | hu := Bool.eq_false_or_eq_true (s.nodes i).used
        · rw [hold hu] at htrunc ⊢
          exact .inl ⟨hu, htrunc.2, rfl⟩
        · exact (hnew hu).2
      · have hji : j ≠ i := by
          rintro rfl
          exact hno ⟨htrunc.1, fd.val, fd, file, rfl, hof⟩
        rw [hnodes, update_of_ne hji] at hj ⊢
        exact h j hj
    · have hfresh : Fresh s (setFile fd (fun _ => file) s₁) := h
      refine hfresh.opened fun j hj => ?_
      obtain ⟨hflag, fd', k, f, hfd, hj'⟩ := hj
      obtain rfl := Except.ok.inj hfd
      have hno : (s₁.nodes i).plain = false := by simpa [hflag] using htrunc
      have hno' : ((setFile fd (fun _ => file) s₁).nodes i).plain = false := hno
      rw [plainOf_file (by simp [setFile]) hused hmount hnode, hno'] at hj'
      simp at hj'

theorem ends_openOn {s : State} (h : Fresh s s₁) (i : Fin maxN) (flags : ℕ) :
    (openOn i flags).Ends s₁ (Opened s flags) (Fresh s) := by
  unfold openOn
  rw [ends_bind]
  refine .of_eq_some (look_run s₁) ?_
  split_ifs
  · exact h.opened_error flags _
  · exact h.opened_error flags _
  refine (plainSame_openEffects i flags).bind_ends ?_ fun _ hs₂ => h.trans_plainSame hs₂
  intro r s₂ hs₂
  cases r with
  | error e => exact (h.trans_plainSame hs₂).opened_error flags e
  | ok _ => exact ends_openSlot (h.trans_plainSame hs₂) i flags

structure OpenRun (s : State) (flags : ℕ) (run : Option (Except Errno ℕ) × State) : Prop where
  answered : ∀ a, run.1 = some a → Opened s flags a run.2
  gaveUp : run.1 = none → Fresh s run.2

theorem OpenRun.node_cases {s : State} {flags : ℕ} {run : Option (Except Errno ℕ) × State}
    (h : OpenRun s flags run) {j : Fin maxN} (hj : (run.2.nodes j).plain = true) :
    Blank (s.nodes j) (run.2.nodes j) ∨ (s.nodes j).used = true ∧ run.2.nodes j = s.nodes j := by
  have hkept : ((s.nodes j).used = true → run.2.nodes j = s.nodes j) ∧
      ((s.nodes j).used = false → Blank (s.nodes j) (run.2.nodes j)) ∨
      Blank (s.nodes j) (run.2.nodes j) := by
    cases ha : run.1 with
    | none => exact .inl (h.gaveUp ha j hj)
    | some a =>
      by_cases hj' : Emptied flags a run.2 j
      · exact .inr ((h.answered a ha).emptied j hj')
      · exact .inl ((h.answered a ha).kept j hj' hj)
  obtain ⟨hused, hfree⟩ | hblank := hkept
  · cases hu : (s.nodes j).used with
    | true => exact .inr ⟨rfl, hused hu⟩
    | false => exact .inl (hfree hu)
  · exact .inl hblank

theorem openRun_of_ends {x : Act State (Except Errno ℕ)} {s : State} {flags : ℕ}
    (h : x.Ends s (Opened s flags) (Fresh s)) : OpenRun s flags (x s) where
  answered _ ha := h.of_some (run_eq_of_fst ha)
  gaveUp hnone := h.of_none (Prod.ext hnone rfl)

theorem openRun_found {x : Act State (Except Errno (Fin maxN))} (hx : Moves Fresh x)
    (s : State) (flags : ℕ) :
    OpenRun s flags ((x >>= fun r => match r with
      | .error e => err e
      | .ok i => openOn i flags) s) := by
  refine openRun_of_ends (hx.bind_ends ?_ fun _ hs₁ => hs₁)
  intro r s₁ hs₁
  cases r with
  | error e => exact hs₁.opened_error flags e
  | ok i => exact ends_openOn hs₁ i flags

theorem openRun_ram (s : State) (abs : Str) (flags : ℕ) :
    OpenRun s flags (openRam abs flags s) := by
  apply openRun_found
  exact fresh_openNode abs flags

theorem plainOf_mounted {s : State} {fd : Fin maxFd} {m : Fin maxMounts}
    (h : (s.files fd).mount = some m) : plainOf s fd.val = none := by
  cases hof : plainOf s fd.val with
  | none => rfl
  | some q =>
    obtain ⟨i, f, ni⟩ := q
    obtain ⟨hf, hm, -⟩ := plainOf_some hof
    obtain ⟨hi, rfl, -⟩ := fileOf_some hf
    rw [← Fin.ext hi, h] at hm
    cases hm

theorem ends_openMount (m : Fin maxMounts) (rel : Str) (flags : ℕ) (s : State) :
    (openMount m rel flags).Ends s
      (fun a s' => ∀ fd, a = .ok fd → plainOf s' fd = none) fun _ => True := by
  have herr : ∀ (e : Errno) (s' : State), (err e : Act State (Except Errno ℕ)).Ends s'
        (fun a s' => ∀ fd, a = .ok fd → plainOf s' fd = none) fun _ => True := by
    intro e s' fd h
    cases h
  unfold openMount
  rw [ends_bind]
  refine .of_forall (fun r s₁ => ?_) fun _ => trivial
  cases r with
  | error e => exact herr e s₁
  | ok t =>
    obtain ⟨isDir, dirClu, size, name⟩ := t
    dsimp only
    by_cases hdir : (isDir && flags % 4 == oWronly) = true
    · rw [if_pos hdir]
      exact herr _ s₁
    rw [if_neg hdir, ends_bind]
    refine .of_eq_some (look_run s₁) ?_
    cases freeFd s₁ with
    | none => exact herr _ s₁
    | some fd =>
      rw [ends_bind, ends_update]
      by_cases htrunc : (!isDir && has flags oTrunc && size != 0) = true
      · rw [if_pos htrunc, ends_bind]
        refine .of_eq_some rfl ?_
        split
        · exact herr _ _
        · rw [ends_bind]
          intro fd' hfd
          obtain rfl := Except.ok.inj hfd
          exact plainOf_mounted (m := m) (by simp [setFile])
      · rw [if_neg htrunc]
        intro fd' hfd
        obtain rfl := Except.ok.inj hfd
        exact plainOf_mounted (m := m) (by simp [setFile])

theorem openRun_mount (s : State) (m : Fin maxMounts) (rel : Str) (flags : ℕ) :
    OpenRun s flags (openMount m rel flags s) := by
  have hsame : (openMount m rel flags s).2.nodes = s.nodes :=
    nodes_of_aside (aside_openMount m rel flags)
  have hfresh : Fresh s (openMount m rel flags s).2 := by
    unfold Fresh
    rw [hsame]
    exact fresh_refl s
  refine ⟨fun a ha => hfresh.opened fun j hj => ?_, fun _ => hfresh⟩
  obtain ⟨-, fd, i, f, hok, hof⟩ := hj
  have hnone := (ends_openMount m rel flags s).of_some (run_eq_of_fst ha) fd hok
  rw [hof] at hnone
  cases hnone

theorem openRun_open (s : State) (path : Str) (flags : ℕ) :
    OpenRun s flags («open» path flags s) := by
  rw [«open», bind_of_some (look_run s)]
  cases mountFor s (normalize s.cwd path) with
  | some p => exact openRun_mount s p.1 p.2 flags
  | none => exact openRun_ram s _ flags

theorem state_open (p : Session) (path : Str) (flags : ℕ) :
    (p.step (.open path flags)).state = («open» path flags p.state).2 :=
  ignore_snd _ _

section

variable {s : State} {flags : ℕ} {c : Contents} {j : Fin maxN}
  {run : Option (Except Errno ℕ) × State}

theorem openedContents_emptied (hrun : run.1 = some a)
    (hj : Emptied flags a run.2 j) : openedContents s flags c run j = [] := by
  obtain ⟨hflag, fd, i, f, rfl, hof⟩ := hj
  unfold openedContents
  simp only [hrun, hof, hflag, if_true, update_self]

theorem openedContents_kept (hj : ∀ a, run.1 = some a → ¬ Emptied flags a run.2 j) :
    openedContents s flags c run j = if (s.nodes j).used then c j else [] := by
  unfold openedContents
  cases hrun : run.1 with
  | none => rfl
  | some a =>
    cases a with
    | error e => rfl
    | ok fd =>
      dsimp only
      cases hof : plainOf run.2 fd with
      | none => rfl
      | some q =>
        obtain ⟨i, f, ni⟩ := q
        dsimp only
        by_cases hflag : has flags oTrunc = true
        · have hne : j ≠ ni := by
            rintro rfl
            exact hj _ hrun ⟨hflag, fd, i, f, rfl, hof⟩
          rw [if_pos hflag, update_of_ne hne]
        · rw [if_neg hflag]

end

/-- An `open` leaves a file with the contents it had or with none. -/
theorem yields_open {p : Session} (h : p.Yields) (path : Str) (flags : ℕ) :
    (p.step (.open path flags)).Yields := by
  have hrun := openRun_open p.state path flags
  have hempty : ∀ {n : Node}, n.size = 0 → n.size ≤ n.cap ∧ n.bytes = [] := by
    intro n hn
    exact ⟨by omega, by rw [Node.bytes, hn]; rfl⟩
  refine ⟨?_, fun j hj => reads_iff.mpr ?_⟩
  · exact Bool.or_eq_false_iff.mpr ⟨h.inside, rfl⟩
  change _ ∧ _ = openedContents p.state flags p.contents («open» path flags p.state) j
  rw [state_open] at hj ⊢
  by_cases hemptied : ∃ a, («open» path flags p.state).1 = some a ∧
      Emptied flags a («open» path flags p.state).2 j
  · obtain ⟨a, ha, hj'⟩ := hemptied
    rw [openedContents_emptied ha hj']
    exact hempty ((hrun.answered a ha).emptied j hj').1
  have hno : ∀ a, («open» path flags p.state).1 = some a →
      ¬ Emptied flags a («open» path flags p.state).2 j :=
    fun a ha hj' => hemptied ⟨a, ha, hj'⟩
  have hkept : ((p.state.nodes j).used = true →
        («open» path flags p.state).2.nodes j = p.state.nodes j) ∧
      ((p.state.nodes j).used = false →
        Blank (p.state.nodes j) ((«open» path flags p.state).2.nodes j)) := by
    cases ha : («open» path flags p.state).1 with
    | none => exact hrun.gaveUp ha j hj
    | some a => exact (hrun.answered a ha).kept j (hno a ha) hj
  rw [openedContents_kept hno]
  cases hused : (p.state.nodes j).used with
  | true =>
    rw [hkept.1 hused] at hj ⊢
    exact h.inRun hj
  | false =>
    exact hempty (hkept.2 hused).1

def FileCall.quiet : FileCall → Bool
  | .open .. | .write .. => false
  | _ => true

theorem quiet_nodes {a : FileCall} (ha : a.quiet = true) (s : State) :
    (Vfs.step s a.op).nodes = s.nodes := by
  have hside : ∀ {α : Type} {x : Act State α}, Aside x → (ignore x s).2.nodes = s.nodes := by
    intro α x hx
    rw [ignore_snd]
    exact nodes_of_aside hx
  cases a with
  | close fd => exact hside (aside_close fd)
  | read fd count => exact hside (aside_read fd count)
  | lseek fd offset whence => exact hside (aside_lseek fd offset whence)
  | dup fd => exact hside (aside_dupFd fd)
  | dup2 oldfd newfd => exact hside (aside_dup2Fd oldfd newfd)
  | switch who => rfl
  | _ => cases ha

theorem quiet_strays {s : State} {a : FileCall} (ha : a.quiet = true)
    (h : ∀ i, (s.nodes i).plain = true → (s.nodes i).size ≤ (s.nodes i).cap) :
    strays s a = false := by
  cases a with
  | read fd count =>
    rw [strays]
    cases hp : plainOf s fd with
    | none => rfl
    | some q =>
      have hanswer := read_answers hp (h _ (plainOf_some hp).2.2.2) count
      rw [Option.isNone_eq_false_iff.mpr (Option.isSome_iff_ne_none.mpr hanswer)]
      rfl
  | write fd bytes => cases ha
  | _ => rfl

theorem yields_step_iff (p : Session) (a : FileCall) (h : p.Yields) :
    (p.step a).Yields ↔ Careful p.state a := by
  cases hq : a.quiet with
  | true =>
    have hin := quiet_strays hq fun _ hi => (h.inRun hi).1
    have hsame : (p.step a).contents = p.contents ∧ Careful p.state a := by
      cases a <;> first | exact ⟨rfl, trivial⟩ | cases hq
    exact iff_of_true (h.of_same (quiet_nodes hq _) hsame.1
      (Bool.or_eq_false_iff.mpr ⟨h.inside, hin⟩)) hsame.2
  | false =>
    cases a with
    | «open» path flags => exact iff_of_true (yields_open h path flags) trivial
    | write fd bytes => exact yields_write_iff h fd bytes
    | _ => cases hq

/-- Every read yields what was written, with zeros where nothing was, exactly when every write
behind the end of a file finds cleared bytes, room, and has something to write. -/
theorem contents_always_iff (p : Session) (hp : p.Yields) (calls : List FileCall) :
    Always Session.step Session.Yields p calls ↔
      Throughout Session.step (fun p a => Careful p.state a) p calls := by
  have hkeeps : ∀ (p : Session) (a : FileCall), True → True := fun _ _ h => h
  have hexact : ∀ (p : Session) (a : FileCall), True → p.Yields →
      ((p.step a).Yields ↔ Careful p.state a) := fun p a _ h => yields_step_iff p a h
  exact always_iff_throughout hkeeps hexact trivial hp calls

def roomy : Session := ⟨{ bare with poolFrames := 4, frames := [true, true] }, fun _ => [], false⟩

theorem bare_plain (i : Fin maxN) : (bare.nodes i).plain = false := by
  by_cases h : i = ⟨0, Nat.succ_pos 1023⟩
  · subst h
    rfl
  · have hempty : bare.nodes i = Node.empty := by simp [bare, h]
    rw [hempty]
    rfl

theorem yields_roomy : roomy.Yields :=
  ⟨rfl, fun i hi => absurd ((bare_plain i).symm.trans hi) Bool.false_ne_true⟩

/-- `/a` is made and written, rewritten from position 1, truncated, written again and read. -/
theorem contents_always_made : Always Session.step Session.Yields roomy
    [.open [slash, 97] (oCreat + oRdwr), .write 3 [1, 2, 3], .lseek 3 1 .set, .write 3 [8, 9],
      .open [slash, 97] (oTrunc + oRdwr), .write 4 [7], .lseek 4 0 .set, .read 4 1] := by
  refine (contents_always_iff roomy yields_roomy _).mpr ?_
  decide +kernel

def rewriteShort : List FileCall :=
  [.open [slash, 97] (oCreat + oRdwr), .write 3 [1, 2, 3], .open [slash, 97] (oTrunc + oRdwr),
    .lseek 4 2 .set, .write 4 [9], .lseek 4 0 .set]

/-- The two bytes before it should be zero; the old ones are read. -/
theorem truncated_bytes_return :
    (after Session.step roomy rewriteShort).contents ⟨1, by decide⟩ = [0, 0, 9] ∧
      (read 4 3 (after Session.step roomy rewriteShort).state).1 =
        some (.ok [some 1, some 2, some 9]) ∧
      ¬ Always Session.step Session.Yields roomy rewriteShort := by
  have hrun : (after Session.step roomy rewriteShort).contents ⟨1, by decide⟩ = [0, 0, 9] ∧
      (read 4 3 (after Session.step roomy rewriteShort).state).1 =
        some (.ok [some 1, some 2, some 9]) ∧
      ((after Session.step roomy rewriteShort).state.nodes ⟨1, by decide⟩).plain = true ∧
      readStored ((after Session.step roomy rewriteShort).state.nodes ⟨1, by decide⟩) 0 3 ≠
        some ((([0, 0, 9] : Str).take 3).map some) := by
    decide +kernel
  refine ⟨hrun.1, hrun.2.1, fun h => hrun.2.2.2 ?_⟩
  rw [← hrun.1]
  exact (h rewriteShort prefix_rfl).reads ⟨1, by decide⟩ hrun.2.2.1 0 3

end Vnu.Vfs
