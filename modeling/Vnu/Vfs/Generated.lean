import Vnu.Vfs.Yields

/-!
The nodes below `/proc`, whose bytes an `open` makes anew. `regen_synth` sets the size before it
asks for a run, so a text that is longer than the old run either leaves the run behind or is copied
from outside it. No other part of `open` touches such a node: what it adds is a plain file, and
what it truncates is one as well.
-/
namespace Vnu.Vfs

open Lib List Function Act

variable {s s₁ : State} {i : Fin maxN} {path abs : Str} {flags : ℕ}

def Node.generated (n : Node) : Bool := n.used && n.synth != .none

def regenerated (s : State) (path : Str) (flags : ℕ) : Option (Fin maxN) :=
  match mountFor s (normalize s.cwd path) with
  | some _ => none
  | none => match findIndex s.nodes (normalize s.cwd path) with
    | none => none
    | some i =>
      if (s.nodes i).dir && has flags oWronly then none
      else if !haveAccess s.who (s.nodes i) (openAccess flags) then none
      else if (s.nodes i).synth ≠ .none then some i
      else none

theorem regenerated_some (h : regenerated s path flags = some i) :
    (s.nodes i).generated = true := by
  unfold regenerated at h
  cases hm : mountFor s (normalize s.cwd path) with
  | some p => simp [hm] at h
  | none =>
    cases hf : findIndex s.nodes (normalize s.cwd path) with
    | none => simp [hm, hf] at h
    | some j =>
      simp only [hm, hf] at h
      split_ifs at h with hdir hacc hsynth
      obtain rfl := Option.some.inj h
      simp [Node.generated, (findIndex_some hf).1, hsynth]

def nextText (s : State) : Str := s.driver.head?.join.getD []

def State.resized (s : State) (i : Fin maxN) : State :=
  setNode i (fun n => { n with size := (nextText s).length }) { s with driver := s.driver.tail }

theorem regenSynth_eq (s : State) (i : Fin maxN) :
    regenSynth i s = (do
      if ← nodeReserve i (nextText s).length then
        Act.update (setNode i fun n =>
          { n.store 0 (nextText s) with size := (nextText s).length })) (s.resized i) := rfl

theorem regenSynth_fits (h : (nextText s).length ≤ (s.nodes i).cap) :
    (regenSynth i s).1 = some () ∧ (regenSynth i s).2.nodes = update s.nodes i
      { (s.nodes i).store 0 (nextText s) with size := (nextText s).length } := by
  have hnode : (s.resized i).nodes =
      update s.nodes i { s.nodes i with size := (nextText s).length } := rfl
  have hr : reserved (s.resized i) i (nextText s).length = .enough := by
    unfold reserved Node.reserve
    rw [hnode, update_self]
    exact if_pos h
  obtain ⟨s', hs', hrun⟩ := nodeReserve_run (s.resized i) i (nextText s).length
  rw [hr] at hs' hrun
  rw [regenSynth_eq, bind_of_some hrun]
  refine ⟨rfl, ?_⟩
  change update s'.nodes i _ = _
  rw [hs', hnode]
  simp [Node.ran, Node.store]

/-- A longer text: where the pool has a run the copy leaves the old one, and where it has none the
size does. -/
theorem regenSynth_short (h : (s.nodes i).cap < (nextText s).length) :
    (regenSynth i s).1 = none ∨ (regenSynth i s).2.nodes = update s.nodes i
      { s.nodes i with size := (nextText s).length } := by
  have hnode : (s.resized i).nodes =
      update s.nodes i { s.nodes i with size := (nextText s).length } := rfl
  have hr : reserved (s.resized i) i (nextText s).length = .refused ∨
      reserved (s.resized i) i (nextText s).length = .fault := by
    unfold reserved Node.reserve
    rw [hnode, update_self, if_neg (Nat.not_le.mpr h)]
    dsimp only
    split_ifs with hno hout
    · exact .inl rfl
    · exact .inr rfl
    · exact absurd (.inl h) hout
  obtain ⟨s', hs', hrun⟩ := nodeReserve_run (s.resized i) i (nextText s).length
  rw [regenSynth_eq]
  rcases hr with hr | hr <;> rw [hr] at hs' hrun
  · right
    rw [bind_of_some hrun]
    change s'.nodes = _
    rw [hs', hnode]
    simp [Node.ran]
  · left
    simp only [Bind.bind, hrun, Reserved.answer]

structure GeneratedSame (s s' : State) : Prop where
  node : ∀ j, (s.nodes j).generated = true ∨ (s'.nodes j).generated = true →
    s'.nodes j = s.nodes j

theorem GeneratedSame.of_nodes {s' : State} (h : s'.nodes = s.nodes) : GeneratedSame s s' :=
  ⟨fun j _ => congrFun h j⟩

instance : IsPreorder State GeneratedSame where
  refl _ := .of_nodes rfl
  trans s s' s'' h h' := by
    refine ⟨fun j hj => ?_⟩
    rcases hj with hj | hj
    · have hsame := h.node j (.inl hj)
      rw [h'.node j (.inl (hsame ▸ hj)), hsame]
    · have hsame := h'.node j (.inr hj)
      rw [hsame] at hj ⊢
      exact h.node j (.inr hj)

theorem generatedSame_of_aside {α : Type} {x : Act State α} (h : Aside x) : Moves GeneratedSame x :=
  Moves.mono h fun _ _ hs => .of_nodes (congrArg Prod.fst hs)

theorem generatedSame_emptied (h : (s.nodes i).plain = true) :
    GeneratedSame s (setNode i (fun n => { n with size := 0 }) s) := by
  have hsynth := (plain_fields h).2.2.2
  refine ⟨fun j hj => ?_⟩
  by_cases hji : j = i
  · subst hji
    simp [Node.generated, setNode, hsynth] at hj
  · exact update_of_ne hji _ _

theorem generatedSame_openSlot (i : Fin maxN) (flags : ℕ) :
    Moves GeneratedSame (openSlot i flags) := by
  intro s
  apply Ends.final
  unfold openSlot
  rw [ends_bind]
  refine .of_eq_some (look_run s) ?_
  cases freeFd s with
  | none => exact refl_of GeneratedSame s
  | some fd =>
    rw [ends_bind, ends_update]
    split_ifs with htrunc
    · rw [ends_bind, ends_update]
      rw [Bool.and_eq_true] at htrunc
      have hopened : GeneratedSame s (setFile fd (fun _ => { File.closed with
          used := true, flags := flags, node := some i, owner := s.who.pid }) s) := .of_nodes rfl
      exact trans_of GeneratedSame hopened (generatedSame_emptied htrunc.2)
    · exact .of_nodes rfl

theorem generatedSame_openOn (h : (s.nodes i).synth = .none) (flags : ℕ) :
    GeneratedSame s (openOn i flags s).2 := by
  have heffects : GeneratedSame s (openEffects i flags s).2 := by
    unfold openEffects
    rw [bind_of_some (look_run s), if_neg (not_not.mpr h)]
    exact generatedSame_of_aside aside_openDevice s
  unfold openOn
  rw [bind_of_some (look_run s)]
  split_ifs
  · exact refl_of GeneratedSame s
  · exact refl_of GeneratedSame s
  · refine Moves.bind_from heffects fun r => ?_
    cases r with
    | error e => exact .pure
    | ok _ => exact generatedSame_openSlot i flags

theorem generatedSame_add {nodes : Nodes} (h : add s.who s.nodes abs false = some (i, nodes)) :
    GeneratedSame s { s with nodes := nodes } ∧ (nodes i).synth = .none := by
  obtain ⟨k, hk, heq⟩ := Option.map_eq_some_iff.mp h
  obtain ⟨rfl, rfl⟩ := Prod.mk.inj heq
  have hfree : (s.nodes k).used = false := by simpa using find?_some hk
  refine ⟨⟨fun j hj => ?_⟩, by rw [update_self]; rfl⟩
  by_cases hjk : j = k
  · subst hjk
    simp [Node.generated, hfree, Node.empty] at hj
  · exact update_of_ne hjk _ _

structure NodeRun (s : State) (run : Option (Except Errno (Fin maxN)) × State) : Prop where
  same : GeneratedSame s run.2
  stored : ∀ i, run.1 = some (.ok i) → (run.2.nodes i).synth = .none

theorem nodeRun_err (s : State) (e : Errno) : NodeRun s (err e s) where
  same := refl_of GeneratedSame s
  stored _ h := by cases h

theorem nodeRun_openNode (flags : ℕ) (hnone : findIndex s.nodes abs = none) :
    NodeRun s (openNode abs flags s) := by
  unfold openNode
  rw [bind_of_some (look_run s)]
  simp only [hnone]
  split_ifs with hcreat
  · exact nodeRun_err s _
  cases parentDir s.nodes abs with
  | none => exact nodeRun_err s _
  | some par =>
    dsimp only
    split_ifs with hacc
    · exact nodeRun_err s _
    cases hadd : add s.who s.nodes abs false with
    | none => exact nodeRun_err s _
    | some q =>
      obtain ⟨k, nodes⟩ := q
      have hadded := generatedSame_add hadd
      dsimp only
      cases hfind : findIndex nodes abs with
      | none => exact ⟨hadded.1, nofun⟩
      | some l =>
        refine ⟨hadded.1, fun i hi => ?_⟩
        obtain rfl := Except.ok.inj (Option.some.inj hi)
        -- the path was not in the table, so it is the new node that is found
        obtain rfl : l = k := by
          by_contra hlk
          have hold := (add_empty hadd).2.2.2 l hlk
          obtain ⟨hused, hpath⟩ := findIndex_some hfind
          rw [hold] at hused hpath
          exact findIndex_none hnone l hused hpath
        exact hadded.2

theorem openOn_regenerated (hdir : ((s.nodes i).dir && has flags oWronly) = false)
    (hacc : haveAccess s.who (s.nodes i) (openAccess flags) = true)
    (hsynth : (s.nodes i).synth ≠ .none) :
    GeneratedSame (regenSynth i s).2 (openOn i flags s).2 := by
  apply Ends.final
  unfold openOn
  rw [ends_bind]
  refine .of_eq_some (look_run s) ?_
  rw [hdir, if_neg Bool.false_ne_true, hacc, if_neg (by simp), ends_bind]
  unfold openEffects
  rw [ends_bind]
  refine .of_eq_some (look_run s) ?_
  rw [if_pos hsynth, ends_bind]
  refine ends_self.mono (fun _ s₁ hs₁ => ?_) fun s₁ hs₁ => ?_
  · rw [hs₁]
    refine (generatedSame_of_aside aside_openDevice).ends.mono (fun r s₂ hs₂ => ?_) fun _ => id
    cases r with
    | error e => exact hs₂
    | ok _ => exact .of_final (trans_of GeneratedSame hs₂ (generatedSame_openSlot i flags s₂))
  · rw [hs₁]
    exact refl_of GeneratedSame s₁

theorem openRam_new (flags : ℕ) (hnone : findIndex s.nodes abs = none) :
    GeneratedSame s (openRam abs flags s).2 := by
  have hnew := nodeRun_openNode flags hnone
  unfold openRam
  rcases hrun : openNode abs flags s with ⟨_ | r, s₁⟩ <;> rw [hrun] at hnew
  · simp only [Bind.bind, hrun]
    exact hnew.same
  · rw [bind_of_some hrun]
    cases r with
    | error e => exact hnew.same
    | ok i =>
      have hmore := generatedSame_openOn (hnew.stored i rfl) flags
      exact trans_of GeneratedSame hnew.same hmore

theorem openRam_found (flags : ℕ) (hfind : findIndex s.nodes abs = some i) :
    openRam abs flags s = openOn i flags s := by
  have hnode : openNode abs flags s = (some (.ok i), s) := by
    unfold openNode
    rw [bind_of_some (look_run s), hfind]
    rfl
  unfold openRam
  rw [bind_of_some hnode]

/-- Of the generated nodes, an `open` changes the one it fills, and that one only by filling it. -/
theorem open_generated (s : State) (path : Str) (flags : ℕ) :
    GeneratedSame (match regenerated s path flags with
      | none => s
      | some i => (regenSynth i s).2) («open» path flags s).2 := by
  rw [«open», bind_of_some (look_run s)]
  unfold regenerated
  cases mountFor s (normalize s.cwd path) with
  | some p => exact generatedSame_of_aside (aside_openMount p.1 p.2 flags) s
  | none =>
    dsimp only
    cases hfind : findIndex s.nodes (normalize s.cwd path) with
    | none => exact openRam_new flags hfind
    | some i =>
      rw [openRam_found flags hfind]
      dsimp only
      split_ifs with hdir hacc hsynth
      · rw [openOn, bind_of_some (look_run s), if_pos hdir]
        exact refl_of GeneratedSame s
      · rw [openOn, bind_of_some (look_run s), if_neg hdir, if_pos hacc]
        exact refl_of GeneratedSame s
      · exact openOn_regenerated (by simpa using hdir) (by simpa using hacc) hsynth
      · exact generatedSame_openOn (not_not.mp hsynth) flags

end Vnu.Vfs
