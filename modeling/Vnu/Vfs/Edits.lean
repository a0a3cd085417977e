import Vnu.Vfs.Tree

/-!
The calls that add an entry to the tree or take one away. Each of them comes to a single `Edit`.
-/
namespace Vnu.Vfs

open Lib List Function Act Option

variable {nodes nodes' : Nodes} {path abs arg at_ af : Str} {i : Fin maxN} {dir : Bool}
  {s' s₁ s₂ : State} {who : Caller} {flags : ℕ} {p : Fin maxMounts × Str}

theorem findIndex_some
    (h : findIndex nodes path = some i) : (nodes i).used = true ∧ (nodes i).path = path := by
  have := find?_some h
  simpa using this

theorem findIndex_none (h : findIndex nodes path = none)
    (i : Fin maxN) (hused : (nodes i).used = true) : (nodes i).path ≠ path := by
  have := find?_eq_none.mp h i (mem_finRange i)
  simpa [hused] using this

theorem tree_of_used {s : State} (h : (s.nodes i).used = true) :
    tree s i = some ((s.nodes i).path, (s.nodes i).dir) := by
  simp [tree, Node.entry, h]

theorem used_of_tree {s : State} (h : tree s i = some (path, dir)) :
    (s.nodes i).used = true ∧ (s.nodes i).path = path ∧ (s.nodes i).dir = dir := by
  unfold tree Node.entry at h
  split_ifs at h with hused
  have := some.inj h
  exact ⟨hused, congrArg Prod.fst this, congrArg Prod.snd this⟩

theorem tree_eq_none {s : State} : tree s i = none ↔ (s.nodes i).used = false := by
  unfold tree Node.entry
  cases (s.nodes i).used <;> simp

theorem tree_findIndex {s : State}
    (h : findIndex s.nodes path = some i) : tree s i = some (path, (s.nodes i).dir) := by
  obtain ⟨hused, hpath⟩ := findIndex_some h
  rw [tree_of_used hused, hpath]

theorem used_iff_findIndex {s : State} : Used s path ↔ (findIndex s.nodes path).isSome = true := by
  constructor
  · rintro ⟨i, dir, hi⟩
    obtain ⟨hused, hpath, -⟩ := used_of_tree hi
    cases hfind : findIndex s.nodes path with
    | none => exact absurd hpath (findIndex_none hfind i hused)
    | some j => rfl
  · intro h
    obtain ⟨i, hi⟩ := isSome_iff_exists.mp h
    exact ⟨i, _, tree_findIndex hi⟩

theorem used_parentDir {s : State}
    (h : parentDir s.nodes path = some i) : Used s (parentPath path) :=
  ⟨i, _, tree_findIndex h⟩

theorem hasChild_congr {s : State} (h : tree s' = tree s) (path : Str) :
    hasChild s'.nodes path = hasChild s.nodes path := by
  unfold hasChild
  congr 1
  funext i
  have hi := congrFun h i
  unfold tree Node.entry at hi
  cases hs : (s.nodes i).used <;> cases hs' : (s'.nodes i).used <;> simp_all

theorem add_some (h : add who nodes path dir = some (i, nodes')) (hfits : path.length < pathCap) :
    (nodes i).used = false ∧ nodes' = Function.update nodes i (nodes' i) ∧
      (nodes' i).entry = some (path, dir) := by
  obtain ⟨j, hj, heq⟩ := map_eq_some_iff.mp h
  obtain ⟨rfl, rfl⟩ := Prod.mk.inj heq
  have hfree := find?_some hj
  refine ⟨by simpa using hfree, by simp, ?_⟩
  have hcopy : copy path pathCap = path := take_of_length_le (by omega)
  simp [Node.entry, hcopy]

theorem add_empty (h : add who nodes path dir = some (i, nodes')) :
    (nodes' i).cap = 0 ∧ (nodes' i).size = 0 ∧ (nodes i).used = false ∧
      ∀ j, j ≠ i → nodes' j = nodes j := by
  obtain ⟨k, hk, heq⟩ := map_eq_some_iff.mp h
  obtain ⟨rfl, rfl⟩ := Prod.mk.inj heq
  have hfree := find?_some hk
  refine ⟨by simp [Node.empty], by simp [Node.empty], by simpa using hfree, ?_⟩
  intro j hj
  exact update_of_ne hj _ _

theorem tree_add {s : State}
    (h : add s.who s.nodes path dir = some (i, nodes')) (hfits : path.length < pathCap) :
    tree s i = none ∧
      tree { s with nodes := nodes' } = Function.update (tree s) i (some (path, dir)) := by
  obtain ⟨hfree, hnodes, hentry⟩ := add_some h hfits
  refine ⟨tree_eq_none.mpr hfree, ?_⟩
  funext j
  by_cases hj : j = i
  · subst hj
    simpa [tree] using hentry
  · have := congrFun hnodes j
    rw [update_of_ne hj] at this ⊢
    exact congrArg Node.entry this

theorem names_tree {s : State} (h : names s' = names s) : tree s' = tree s := congrArg Prod.fst h

theorem names_cwd {s : State} (h : names s' = names s) : s'.cwd = s.cwd :=
  congrArg (fun n => n.2.2) h

theorem Edit.then_same {s : State} (h : Edit s s₁) (hsame : tree s₂ = tree s₁) : Edit s s₂ := by
  cases h with
  | same htree => exact .same (hsame.trans htree)
  | born i path dir free fresh parent written htree =>
    exact .born i path dir free fresh parent written (hsame.trans htree)
  | died i path dir was leaf htree => exact .died i path dir was leaf (hsame.trans htree)

theorem used_congr {s : State} (h : tree s' = tree s) (path : Str) :
    Used s' path ↔ Used s path := by
  unfold Used
  rw [h]

theorem Edit.of_still {s : State} (hsame : names s₁ = names s) (h : Edit s₁ s₂) : Edit s s₂ := by
  have htree := names_tree hsame
  cases h with
  | same h => exact .same (h.trans htree)
  | born i path dir free fresh parent written h =>
    rw [htree] at free h
    rw [used_congr htree] at fresh parent
    rw [names_cwd hsame] at written
    exact .born i path dir free fresh parent written h
  | died i path dir was leaf h =>
    rw [htree] at was h
    rw [hasChild_congr htree] at leaf
    exact .died i path dir was leaf h

/-- What decides whether a path lies below a mount, and what a relative path means. -/
def places (s : State) : (Fin maxMounts → Mount) × Str := (s.mounts, s.cwd)

theorem names_places {s : State} (h : names s' = names s) : places s' = places s :=
  congrArg Prod.snd h

def EditAt {α : Type} (s : State) (x : Act State α) : Prop :=
  Edit s (x s).2 ∧ places (x s).2 = places s

def Edits {α : Type} (x : Act State α) : Prop := ∀ s, IsCwd s.cwd → EditAt s x

variable {α β : Type} {x y : Act State α} {s : State}

theorem EditAt.of_still (h : Still x) : EditAt s x := ⟨.same (names_tree (h s)), names_places (h s)⟩

theorem EditAt.ite {c : Prop} [Decidable c] (hx : c → EditAt s x) (hy : ¬c → EditAt s y) :
    EditAt s (if c then x else y) := by
  split_ifs with hc
  · exact hx hc
  · exact hy hc

theorem editAt_look {f : State → Act State α} (h : EditAt s (f s)) : EditAt s (look >>= f) := h

theorem editAt_err {e : Errno} : EditAt s (err e : Act State (Except Errno α)) :=
  .of_still still_err

theorem editAt_ok {a : α} : EditAt s (ok a) := .of_still still_ok

theorem Still.edits (h : Still x) : Edits x := fun _ _ => .of_still h

/-- The edit is in the second part, as the first one leaves the names alone here. -/
theorem EditAt.after_same {f : α → Act State β} (hx : names (x s).2 = names s)
    (hf : ∀ a s', names s' = names s → EditAt s' (f a)) : EditAt s (x >>= f) := by
  unfold EditAt
  simp only [Bind.bind]
  rcases hxs : x s with ⟨_ | a, s₁⟩
  · rw [hxs] at hx
    exact ⟨.same (names_tree hx), names_places hx⟩
  · rw [hxs] at hx
    obtain ⟨hedit, hplaces⟩ := hf a s₁ hx
    exact ⟨Edit.of_still hx hedit, hplaces.trans (names_places hx)⟩

/-- The edit is in the first part, as the second one leaves the names alone here. -/
theorem EditAt.before_same {f : α → Act State β} (hx : EditAt s x)
    (hf : ∀ a s', x s = (some a, s') → names (f a s').2 = names s') : EditAt s (x >>= f) := by
  unfold EditAt at hx ⊢
  simp only [Bind.bind]
  rcases hxs : x s with ⟨_ | a, s₁⟩
  · rw [hxs] at hx
    exact hx
  · rw [hxs] at hx
    have hsame := hf a s₁ hxs
    exact ⟨hx.1.then_same (names_tree hsame), (names_places hsame).trans hx.2⟩

theorem Edits.after_still {f : α → Act State β} (hx : Still x) (hf : ∀ a, Edits (f a)) :
    Edits (x >>= f) := by
  intro s hcwd
  refine .after_same (hx s) fun a s' hs' => hf a s' ?_
  rw [names_cwd hs']
  exact hcwd

theorem EditAt.before_still {f : α → Act State β} (hx : EditAt s x) (hf : ∀ a, Still (f a)) :
    EditAt s (x >>= f) :=
  hx.before_same fun a s' _ => hf a s'

theorem edit_add {s : State} {par : Fin maxN}
    (hcwd : IsCwd s.cwd) (habs : abs = normalize s.cwd arg) (hnew : findIndex s.nodes abs = none)
    (hpar : parentDir s.nodes abs = some par)
    (hadd : add s.who s.nodes abs dir = some (i, nodes')) :
    Edit s { s with nodes := nodes' } := by
  have hfits : abs.length < pathCap := by
    rw [habs]
    exact (isCwd_normalize hcwd arg).fits
  obtain ⟨hfree, htree⟩ := tree_add hadd hfits
  refine .born i abs dir hfree ?_ (used_parentDir hpar) ⟨arg, habs⟩ htree
  rw [used_iff_findIndex, hnew]
  exact Bool.false_ne_true

theorem editAt_setNodes (h : Edit s { s with nodes := nodes' }) :
    EditAt s (update fun s : State => { s with nodes := nodes' }) := ⟨h, rfl⟩

theorem editAt_addChecked (hcwd : IsCwd s.cwd) (habs : abs = normalize s.cwd arg)
    (hnew : findIndex s.nodes abs = none) (dir : Bool) : EditAt s (addChecked abs dir) := by
  refine editAt_look ?_
  cases hpar : parentDir s.nodes abs with
  | none => exact editAt_err
  | some par =>
    refine .ite (fun _ => editAt_err) fun _ => ?_
    cases hadd : add s.who s.nodes abs dir with
    | none => exact editAt_err
    | some p =>
      exact (editAt_setNodes (edit_add hcwd habs hnew hpar hadd)).before_still fun _ => still_ok

theorem edits_touch (path : Str) : Edits (touch path) := by
  intro s hcwd
  refine editAt_look ?_
  dsimp only
  cases mountFor s (normalize s.cwd path) with
  | some p =>
    exact .of_still
      (.ite still_ok (.ite still_ok aside_onLeaf.still))
  | none =>
    cases hfind : findIndex s.nodes (normalize s.cwd path) with
    | some i => exact .of_still (.ite still_ok still_err)
    | none => exact editAt_addChecked hcwd rfl hfind false

theorem edits_mkdir (path : Str) : Edits (mkdir path) := by
  intro s hcwd
  refine editAt_look ?_
  dsimp only
  cases mountFor s (normalize s.cwd path) with
  | some p =>
    exact .of_still
      (.ite still_err (.ite still_err aside_onLeaf.still))
  | none =>
    refine .ite (fun _ => editAt_err) fun hnew => ?_
    have hfind : findIndex s.nodes (normalize s.cwd path) = none := by simpa using hnew
    exact editAt_addChecked hcwd rfl hfind true

theorem editAt_openNode (hcwd : IsCwd s.cwd) (habs : abs = normalize s.cwd arg)
    (flags : ℕ) : EditAt s (openNode abs flags) := by
  refine editAt_look ?_
  cases hfind : findIndex s.nodes abs with
  | some i => exact editAt_ok
  | none =>
    refine .ite (fun _ => editAt_err) fun _ => ?_
    cases hpar : parentDir s.nodes abs with
    | none => exact editAt_err
    | some par =>
      refine .ite (fun _ => editAt_err) fun _ => ?_
      cases hadd : add s.who s.nodes abs false with
      | none => exact editAt_err
      | some p =>
        refine (editAt_setNodes (edit_add hcwd habs hfind hpar hadd)).before_still fun _ => ?_
        cases findIndex p.2 abs with
        | some i => exact still_ok
        | none => exact still_fail

theorem still_openNode (h : has flags oCreat = false) (abs : Str) : Still (openNode abs flags) := by
  refine .bind still_look fun s => ?_
  cases findIndex s.nodes abs with
  | some i => exact still_ok
  | none =>
    rw [h]
    exact still_err

theorem still_openEffects (i : Fin maxN) (flags : ℕ) : Still (openEffects i flags) :=
  Moves.bind still_look fun _ =>
    Moves.ite (.bind (still_regenSynth i) fun _ => aside_openDevice.still)
      aside_openDevice.still

theorem still_openSlot (i : Fin maxN) (flags : ℕ) : Still (openSlot i flags) := by
  refine .bind still_look fun s => ?_
  cases freeFd s with
  | none => exact still_err
  | some fd =>
    refine .bind still_setFile fun _ => .ite ?_ still_ok
    refine .bind (still_setNode ?_) fun _ => still_ok
    intro n
    rfl

theorem still_openOn (i : Fin maxN) (flags : ℕ) : Still (openOn i flags) := by
  refine .bind still_look fun s => ?_
  refine .ite still_err (.ite still_err ?_)
  refine .bind (still_openEffects i flags) fun r => ?_
  cases r with
  | error e => exact still_err
  | ok _ => exact still_openSlot i flags

theorem still_openFound (flags : ℕ) (r : Except Errno (Fin maxN)) :
    Still (match r with
      | .error e => err e
      | .ok i => openOn i flags) := by
  cases r with
  | error e => exact still_err
  | ok i => exact still_openOn i flags

theorem edits_open (path : Str) (flags : ℕ) : Edits («open» path flags) := by
  intro s hcwd
  refine editAt_look ?_
  dsimp only
  cases mountFor s (normalize s.cwd path) with
  | some p => exact .of_still (aside_openMount _ _ _).still
  | none => exact (editAt_openNode hcwd rfl flags).before_still (still_openFound flags)

theorem still_open (h : has flags oCreat = false) (path : Str) : Still («open» path flags) := by
  refine .bind still_look fun s => ?_
  dsimp only
  cases mountFor s (normalize s.cwd path) with
  | some p => exact (aside_openMount _ _ _).still
  | none => exact .bind (still_openNode h _) (still_openFound flags)

theorem editAt_dropNode (was : tree s i = some (path, dir))
    (leaf : dir = true → path ≠ [slash] ∧ hasChild s.nodes path = false) :
    EditAt s (dropNode i) := by
  refine ⟨.died i path dir was leaf ?_, rfl⟩
  exact tree_setNode i (fun n => { n.release with used := false }) s

theorem edits_rmdir (path : Str) : Edits (rmdir path) := by
  intro s _
  refine editAt_look ?_
  dsimp only
  cases mountFor s (normalize s.cwd path) with
  | some p =>
    refine .ite (fun _ => editAt_err) fun _ => ?_
    cases mountResolve s p.1 p.2 with
    | none => exact editAt_err
    | some q => exact .of_still (.ite still_err aside_onLeaf.still)
  | none =>
    cases hfind : findIndex s.nodes (normalize s.cwd path) with
    | none => exact editAt_err
    | some i =>
      refine .ite (fun _ => editAt_err) fun _ => ?_
      refine .ite (fun _ => editAt_err) fun hroot => ?_
      cases parentDir s.nodes (normalize s.cwd path) with
      | none => exact editAt_err
      | some par =>
        refine .ite (fun _ => editAt_err) fun _ => ?_
        refine .ite (fun _ => editAt_err) fun hchild => ?_
        have hleaf : hasChild s.nodes (normalize s.cwd path) = false := by simpa using hchild
        exact (editAt_dropNode (tree_findIndex hfind) fun _ => ⟨hroot, hleaf⟩).before_still
          fun _ => still_ok

theorem editAt_unlinkRam (abs : Str) : EditAt s (unlinkRam abs) := by
  refine editAt_look ?_
  cases hfind : findIndex s.nodes abs with
  | none => exact editAt_err
  | some i =>
    refine .ite (fun _ => editAt_err) fun hdir => ?_
    cases parentDir s.nodes abs with
    | none => exact editAt_err
    | some par =>
      refine .ite (fun _ => editAt_err) fun _ => ?_
      exact (editAt_dropNode (tree_findIndex hfind) fun h => absurd h hdir).before_still
        fun _ => still_ok

theorem edits_unlink (path : Str) : Edits (unlink path) := by
  intro s _
  refine editAt_look ?_
  cases mountFor s (normalize s.cwd path) with
  | some p => exact .of_still (aside_unlinkMount _ _).still
  | none => exact editAt_unlinkRam _

theorem edits_remove (path : Str) : Edits (remove path) := by
  intro s hcwd
  refine editAt_look ?_
  dsimp only
  cases mountFor s (normalize s.cwd path) with
  | some p =>
    refine Edits.after_still (still_stat _) (fun r => ?_) s hcwd
    match r with
    | .error _ => exact fun _ _ => editAt_err
    | .ok true => exact edits_rmdir _
    | .ok false => exact edits_unlink _
  | none =>
    cases findIndex s.nodes (normalize s.cwd path) with
    | none => exact editAt_err
    | some i =>
      exact .ite (fun _ => edits_rmdir _ s hcwd) fun _ => edits_unlink _ s hcwd

theorem unlink_mounted
    (h : mountFor s (normalize s.cwd path) = some p) : unlink path s = unlinkMount p.1 p.2 s := by
  unfold unlink
  simp only [look, query, Bind.bind]
  rw [h]

theorem still_moveBytes (src dst : Fin maxN) (n : Node) : Still (moveBytes src dst n) := by
  refine .bind still_look fun s => .ite still_fail ?_
  refine .bind (still_setNode ?_) fun _ => ?_
  · intro d
    rfl
  · refine .bind (still_setNode ?_) fun _ => still_ok
    intro d
    rfl

theorem tree_giveBack (dst : Fin maxN) (s : State) :
    tree (giveBack dst s).2 = Function.update (tree s) dst none :=
  tree_setNode dst (fun d => { d with used := false }) s

theorem edit_moveInto {src dst : Fin maxN} {n : Node} (hborn : Edit s s₁)
    (hplaces : places s₁ = places s) (hfree : tree s dst = none)
    (hothers : ∀ j, j ≠ dst → tree s₁ j = tree s j) :
    let r := (nodeReserve dst n.size >>= fun room =>
      if room then moveBytes src dst n else giveBack dst) s₁
    Edit s r.2 ∧ places r.2 = places s := by
  have hsame := still_nodeReserve dst n.size s₁
  simp only [Bind.bind]
  rcases hrun : nodeReserve dst n.size s₁ with ⟨_ | room, s₂⟩
  · rw [hrun] at hsame
    exact ⟨hborn.then_same (names_tree hsame), (names_places hsame).trans hplaces⟩
  rw [hrun] at hsame
  have htree : tree s₂ = tree s₁ := names_tree hsame
  have hplaces₂ : places s₂ = places s := (names_places hsame).trans hplaces
  cases room with
  | true =>
    have hbytes := still_moveBytes src dst n s₂
    exact ⟨hborn.then_same ((names_tree hbytes).trans htree), (names_places hbytes).trans hplaces₂⟩
  | false =>
    have hback : tree (giveBack dst s₂).2 = tree s := by
      rw [tree_giveBack, htree]
      funext j
      by_cases hj : j = dst
      · subst hj
        rw [update_self, hfree]
      · rw [update_of_ne hj, hothers j hj]
    exact ⟨.same hback, hplaces₂⟩

theorem editAt_moveRam (hcwd : IsCwd s.cwd) (af : Str)
    (hat : at_ = normalize s.cwd arg) : EditAt s (moveRam af at_) := by
  refine editAt_look ?_
  cases findIndex s.nodes af with
  | none => exact editAt_err
  | some src =>
    refine .ite (fun _ => editAt_err) fun _ => ?_
    refine .ite (fun _ => editAt_err) fun hnew => ?_
    have hfind : findIndex s.nodes at_ = none := by simpa using hnew
    cases hpar : parentDir s.nodes at_ with
    | none => exact editAt_err
    | some par =>
      cases hadd : add s.who s.nodes at_ false with
      | none => exact editAt_err
      | some p =>
        obtain ⟨dst, nodes⟩ := p
        have hfits : at_.length < pathCap := by
          rw [hat]
          exact (isCwd_normalize hcwd arg).fits
        obtain ⟨hfree, htree⟩ := tree_add hadd hfits
        have howner : tree (setNode dst (fun d => { d with
            perm := (s.nodes src).perm, uid := (s.nodes src).uid, gid := (s.nodes src).gid })
            { s with nodes := nodes }) = tree { s with nodes := nodes } :=
          names_tree (names_setNode rfl)
        refine edit_moveInto ((edit_add hcwd hat hfind hpar hadd).then_same howner) rfl hfree ?_
        intro j hj
        rw [howner, htree, update_of_ne hj]

theorem mountFor_congr {s : State} (h : places s' = places s) (abs : Str) :
    mountFor s' abs = mountFor s abs := by
  have hmounts : s'.mounts = s.mounts := congrArg Prod.fst h
  unfold mountFor
  rw [hmounts]

theorem still_copyAcross (junk : UInt8) (fuel inFd outFd : ℕ) :
    Still (copyAcross junk fuel inFd outFd) := by
  refine .bind (still_copyLoop _ _ _ _) fun done => ?_
  refine .bind (still_close _) fun _ => ?_
  exact .bind (still_close _) fun _ => .pure

theorem names_open_mounted (flags : ℕ) (h : mountFor s (normalize s.cwd path) = some p) :
    names («open» path flags s).2 = names s := by
  have hrun : «open» path flags s = openMount p.1 p.2 flags s := by
    unfold «open»
    simp only [look, query, Bind.bind]
    rw [h]
  rw [hrun]
  exact (aside_openMount p.1 p.2 flags).still s

theorem names_copied
    (h : mountFor s (normalize s.cwd af) = some p) (junk : UInt8) (fuel inFd outFd : ℕ) :
    names ((copyAcross junk fuel inFd outFd >>= fun done => match done with
      | .error e => err e
      | .ok _ => unlink af) s).2 = names s := by
  have hcopy := still_copyAcross junk fuel inFd outFd s
  simp only [Bind.bind]
  rcases hrun : copyAcross junk fuel inFd outFd s with ⟨_ | done, s₁⟩
  · rw [hrun] at hcopy
    exact hcopy
  rw [hrun] at hcopy
  cases done with
  | error e => exact hcopy
  | ok _ =>
    have hsame : names s₁ = names s := hcopy
    have hmounted : mountFor s₁ (normalize s₁.cwd af) = some p := by
      rw [names_cwd hsame, mountFor_congr (names_places hsame)]
      exact h
    have hunlink : names (unlink af s₁).2 = names s₁ := by
      rw [unlink_mounted hmounted]
      exact (aside_unlinkMount p.1 p.2).still s₁
    exact hunlink.trans hsame

/-- One side of a move across a mount is not in the tree, so one entry changes at most. -/
theorem editAt_streamInto (hcwd : IsCwd s.cwd) (junk : UInt8) (fuel inFd : ℕ)
    (haf : normalize s.cwd af = af) (hat : normalize s.cwd at_ = at_)
    (hmount : (mountFor s af).isSome = true ∨ (mountFor s at_).isSome = true) :
    EditAt s (streamInto junk fuel inFd af at_) := by
  cases htarget : mountFor s at_ with
  | some p =>
    -- the target is on a volume: only the removal can change the tree
    have hmounted : mountFor s (normalize s.cwd at_) = some p := by
      rw [hat]
      exact htarget
    have hopen := names_open_mounted (oWronly + oCreat + oTrunc) hmounted
    refine .after_same hopen fun r s₁ hs₁ => ?_
    have hcwd₁ : IsCwd s₁.cwd := by
      rw [names_cwd hs₁]
      exact hcwd
    cases r with
    | error e => exact .of_still (.bind (still_close _) fun _ => still_err)
    | ok outFd =>
      refine Edits.after_still (still_copyAcross _ _ _ _) (fun done => ?_) s₁ hcwd₁
      cases done with
      | error e => exact fun _ _ => editAt_err
      | ok _ => exact edits_unlink af
  | none =>
    -- the source is on a volume: only the opening can change the tree
    obtain ⟨p, hp⟩ : ∃ p, mountFor s af = some p := by
      rw [htarget] at hmount
      exact isSome_iff_exists.mp (hmount.resolve_right Bool.false_ne_true)
    have hopened := edits_open at_ (oWronly + oCreat + oTrunc) s hcwd
    refine hopened.before_same fun r s₁ hrun => ?_
    have hplaces : places s₁ = places s := by
      have := hopened.2
      rw [hrun] at this
      exact this
    cases r with
    | error e =>
      exact (.bind (still_close inFd) fun _ => still_err :
        Still (close inFd >>= fun _ => (err e : Act State (Except Errno Unit)))) s₁
    | ok outFd =>
      have hmounted : mountFor s₁ (normalize s₁.cwd af) = some p := by
        rw [show s₁.cwd = s.cwd from congrArg Prod.snd hplaces, haf, mountFor_congr hplaces]
        exact hp
      exact names_copied hmounted junk fuel inFd outFd

theorem editAt_moveStream (hcwd : IsCwd s.cwd) (junk : UInt8) (fuel : ℕ)
    (haf : normalize s.cwd af = af) (hat : normalize s.cwd at_ = at_)
    (hmount : (mountFor s af).isSome = true ∨ (mountFor s at_).isSome = true) :
    EditAt s (moveStream junk fuel af at_) := by
  refine .after_same (still_stat at_ s) fun r s₁ hs₁ => ?_
  cases r with
  | ok _ => exact editAt_err
  | error _ =>
    refine .after_same (still_open (by decide) af s₁) fun r s₂ hs₂ => ?_
    cases r with
    | error e => exact editAt_err
    | ok inFd =>
      have hs := hs₂.trans hs₁
      have hc := names_cwd hs
      apply editAt_streamInto
      · rw [hc]
        exact hcwd
      · rw [hc]
        exact haf
      · rw [hc]
        exact hat
      · rw [mountFor_congr (names_places hs), mountFor_congr (names_places hs)]
        exact hmount

theorem edits_moveFile (junk : UInt8) (fuel : ℕ) (src dst : Str) :
    Edits (moveFile junk fuel src dst) := by
  intro s hcwd
  refine editAt_look ?_
  refine .ite (fun hmount => ?_) fun _ => editAt_moveRam hcwd _ rfl
  exact editAt_moveStream hcwd junk fuel (normalize_normalize hcwd src)
    (normalize_normalize hcwd dst) hmount

theorem step_edit (s : State) (hcwd : IsCwd s.cwd) (op : Op) :
    Edit s (step s op) ∧ IsCwd (step s op).cwd := by
  have hedits : ∀ {α : Type} {x : Act State α}, Edits x →
      Edit s (ignore x s).2 ∧ IsCwd (ignore x s).2.cwd := by
    intro α x hx
    obtain ⟨hedit, hplaces⟩ := hx s hcwd
    rw [ignore_snd]
    refine ⟨hedit, ?_⟩
    rw [show (x s).2.cwd = s.cwd from congrArg Prod.snd hplaces]
    exact hcwd
  cases op with
  | «open» path flags => exact hedits (edits_open path flags)
  | close fd => exact hedits (Still.edits (still_close fd))
  | read fd count => exact hedits (Still.edits (aside_read fd count).still)
  | write fd bytes => exact hedits (Still.edits (still_write fd bytes))
  | lseek fd offset whence => exact hedits (Still.edits (aside_lseek fd offset whence).still)
  | dup fd => exact hedits (Still.edits (aside_dupFd fd).still)
  | dup2 oldfd newfd => exact hedits (Still.edits (aside_dup2Fd oldfd newfd).still)
  | stat path => exact hedits (Still.edits (still_stat path))
  | touch path => exact hedits (edits_touch path)
  | mkdir path => exact hedits (edits_mkdir path)
  | rmdir path => exact hedits (edits_rmdir path)
  | unlink path => exact hedits (edits_unlink path)
  | remove path => exact hedits (edits_remove path)
  | move junk fuel src dst => exact hedits (edits_moveFile junk fuel src dst)
  | setPath path bytes => exact hedits (Still.edits (still_setPath path bytes))
  | getdents fd count => exact hedits (Still.edits (aside_getdents fd count).still)
  | chdir path =>
    have hstep : step s (.chdir path) = (chdir path s).2 := ignore_snd _ s
    rw [hstep]
    exact ⟨.same (tree_chdir path s), (keeps_chdir path).final hcwd⟩
  | chmod path mode | chown path uid gid =>
    exact hedits (Still.edits (still_changeNode path _ fun _ => rfl))
  | setQuota uid limit | switch who => exact ⟨.same rfl, hcwd⟩

end Vnu.Vfs
