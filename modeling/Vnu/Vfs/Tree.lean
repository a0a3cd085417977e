import Vnu.Vfs.Aside
import Vnu.Vfs.Normal

/-!
What a call can do to the tree of paths: nothing, one entry more, or one less.
-/
namespace Vnu.Vfs

open Lib Act

variable {i : Fin maxN} {f : Node → Node} {α : Type}

def Node.entry (n : Node) : Option (Str × Bool) := if n.used then some (n.path, n.dir) else none

def tree (s : State) (i : Fin maxN) : Option (Str × Bool) := (s.nodes i).entry

def names (s : State) : (Fin maxN → Option (Str × Bool)) × (Fin maxMounts → Mount) × Str :=
  (tree s, s.mounts, s.cwd)

def Used (s : State) (path : Str) : Prop := ∃ i dir, tree s i = some (path, dir)

inductive Edit (s s' : State) : Prop
  | same (tree : tree s' = tree s)
  | born (i : Fin maxN) (path : Str) (dir : Bool) (free : tree s i = none)
      (fresh : ¬ Used s path) (parent : Used s (parentPath path))
      (written : ∃ arg, path = normalize s.cwd arg)
      (tree : tree s' = Function.update (tree s) i (some (path, dir)))
  | died (i : Fin maxN) (path : Str) (dir : Bool) (was : tree s i = some (path, dir))
      (leaf : dir = true → path ≠ [slash] ∧ hasChild s.nodes path = false)
      (tree : tree s' = Function.update (tree s) i none)

theorem tree_setNode (i : Fin maxN) (f : Node → Node) (s : State) :
    tree (setNode i f s) = Function.update (tree s) i (f (s.nodes i)).entry := by
  funext j
  by_cases h : j = i
  · subst h
    simp [tree, setNode]
  · simp [tree, setNode, h]

theorem names_setNode {s : State}
    (h : (f (s.nodes i)).entry = (s.nodes i).entry) : names (setNode i f s) = names s := by
  have htree : tree (setNode i f s) = tree s := by
    rw [tree_setNode, h]
    exact Function.update_eq_self i (tree s)
  simp only [names, htree]
  rfl

abbrev Still {α : Type} (x : Act State α) : Prop := Moves (Same names) x

theorem Aside.still {x : Act State α} (h : Aside x) : Still x := by
  refine .mono h fun s s' hs => ?_
  obtain ⟨hnodes, hmounts, hcwd, -⟩ : s'.nodes = s.nodes ∧ s'.mounts = s.mounts ∧ s'.cwd = s.cwd ∧
      _ := by
    simpa only [Same, apart, Prod.mk.injEq] using hs
  unfold Same names tree
  rw [hnodes, hmounts, hcwd]

theorem still_setFile {fd : Fin maxFd} {f : File → File} : Still (update (setFile fd f)) :=
  aside_setFile.still

theorem still_look : Still look := aside_look.still

theorem still_ask : Still ask := aside_ask.still

theorem still_onDisk {m : Fin maxMounts} {x : Fat16.Fs → Act Fat16.Disk α} :
    Still (onDisk m x) := aside_onDisk.still

theorem still_err {e : Errno} : Still (err e : Act State (Except Errno α)) := aside_err.still

theorem still_ok {a : α} : Still (ok a) := aside_ok.still

theorem still_fail : Still (fail : Act State α) := aside_fail.still

theorem still_close (fd : ℕ) : Still (close fd) := (aside_close fd).still

theorem still_setNode (h : ∀ n, (f n).entry = n.entry) : Still (update (setNode i f)) :=
  Moves.update fun _ => names_setNode (h _)

theorem still_nodeReserve (i : Fin maxN) (need : ℕ) : Still (nodeReserve i need) := by
  intro s
  unfold nodeReserve
  simp only
  generalize hs' : (if (s.nodes i).cap < need ∧ reservePages (s.nodes i).cap need ≠ 0 ∧
    reservePages (s.nodes i).cap need ≤ s.poolFrames then
      { s with frames := s.frames.tail } else s) = s'
  have hsame : names s' = names s ∧ s'.nodes = s.nodes := by
    rw [← hs']
    split_ifs <;> exact ⟨rfl, rfl⟩
  unfold Node.reserve
  simp only
  split_ifs
  · exact hsame.1
  · exact hsame.1
  · exact hsame.1
  have hgrown : names (setNode i (fun _ => (s.nodes i).moved (reservePages (s.nodes i).cap need))
      s') = names s' := by
    apply names_setNode
    rw [hsame.2]
    rfl
  exact hgrown.trans hsame.1

theorem still_regenSynth (i : Fin maxN) : Still (regenSynth i) := by
  refine .bind still_ask fun text => ?_
  refine .bind (still_setNode ?_) fun _ => ?_
  · intro n
    rfl
  refine .bind (still_nodeReserve i _) fun room => .ite (still_setNode ?_) .pure
  intro n
  rfl

theorem still_storeAt (ni : Fin maxN) (pos : ℕ) (bytes : Str) : Still (storeAt ni pos bytes) := by
  intro s
  unfold storeAt
  simp only
  split_ifs
  · rfl
  · dsimp only
    apply names_setNode
    rfl

theorem still_writeStored (fd : Fin maxFd) (ni : Fin maxN) (pos : ℕ) (bytes : Str) :
    Still (writeStored fd ni pos bytes) := by
  refine .bind still_look fun s => .ite still_err ?_
  refine .bind (still_nodeReserve _ _) fun room => ?_
  refine .bind still_look fun s => ?_
  refine .bind (still_storeAt _ _ _) fun _ => ?_
  exact .bind still_setFile fun _ => still_ok

theorem still_write (fd : ℕ) (bytes : Str) : Still (write fd bytes) := by
  refine .bind still_look fun s => ?_
  cases fileOf s fd with
  | none => exact still_err
  | some p =>
    obtain ⟨i, f⟩ := p
    dsimp only
    cases f.mount with
    | some m =>
      refine .ite still_err ?_
      refine .bind still_setFile fun _ => ?_
      refine .bind still_onDisk fun r => ?_
      cases r with
      | none => exact still_err
      | some got => exact .bind still_setFile fun _ => still_ok
    | none =>
      cases f.node with
      | none => exact still_err
      | some ni =>
        refine .ite still_err (.ite still_err
          (.ite still_err (.ite ?_ (.ite ?_ ?_))))
        · refine .bind aside_writeDevice.still fun r => ?_
          cases r with
          | error e => exact still_err
          | ok put =>
            exact .ite (.bind aside_advance.still fun _ => still_ok)
              still_ok
        · exact .ite (aside_setSysctlName _).still still_err
        · exact .bind still_setFile fun _ => still_writeStored _ _ _ _

theorem still_stat (path : Str) : Still (stat path) := by
  refine .bind still_look fun s => ?_
  dsimp only
  cases mountFor s (normalize s.cwd path) with
  | some p =>
    refine .ite still_ok ?_
    cases mountResolve s p.1 p.2 with
    | none => exact still_err
    | some p => exact still_ok
  | none =>
    cases findIndex s.nodes (normalize s.cwd path) with
    | none => exact still_err
    | some i =>
      exact .ite (.bind (still_regenSynth i) fun _ => still_ok) still_ok

theorem still_writeAll (fd fuel : ℕ) (bytes : Str) : Still (writeAll fd fuel bytes) := by
  induction fuel generalizing bytes with
  | zero => exact .ite still_ok still_fail
  | succ fuel ih =>
    refine .ite still_ok (.bind (still_write fd bytes) fun r => ?_)
    cases r with
    | error e => exact still_err
    | ok put => exact ih _

theorem still_copyLoop (junk : UInt8) (inFd outFd fuel : ℕ) :
    Still (copyLoop junk inFd outFd fuel) := by
  induction fuel with
  | zero => exact still_fail
  | succ fuel ih =>
    refine .bind (aside_read inFd 4096).still fun r => ?_
    match r with
    | .error e => exact still_err
    | .ok [] => exact still_ok
    | .ok (b :: got) =>
      refine .bind (still_writeAll outFd _ _) fun r => ?_
      cases r with
      | error e => exact still_err
      | ok _ => exact ih

theorem still_nodeSet (i : Fin maxN) (bytes : Str) : Still (nodeSet i bytes) := by
  refine .bind (still_nodeReserve i _) fun room => .ite ?_ Moves.pure
  refine .bind still_look fun s => .ite still_fail ?_
  apply still_setNode
  intro n
  rfl

theorem still_setPath (path bytes : Str) : Still (setPath path bytes) := by
  refine .bind still_look fun s => ?_
  dsimp only
  cases mountFor s (normalize s.cwd path) with
  | some p => exact (aside_setMounted _ _ _).still
  | none =>
    cases findIndex s.nodes (normalize s.cwd path) with
    | none => exact still_err
    | some i =>
      exact .ite still_err (.ite still_err (.ite still_err
        (.bind (still_nodeSet i bytes) fun _ => still_ok)))

theorem still_changeNode (path : Str) (may : State → Node → Bool)
    (h : ∀ n, (f n).entry = n.entry) : Still (changeNode path may f) := by
  refine .bind still_look fun s => ?_
  dsimp only
  cases mountFor s (normalize s.cwd path) with
  | some p => exact .ite still_ok still_err
  | none =>
    cases findIndex s.nodes (normalize s.cwd path) with
    | none => exact still_err
    | some i =>
      exact .ite still_err (.bind (still_setNode h) fun _ => still_ok)

theorem tree_chdir (path : Str) : Moves (Same tree) (chdir path) := by
  have herr : ∀ e, Moves (Same tree) (err e : Act State (Except Errno Unit)) :=
    fun _ => .pure
  refine .bind Moves.query fun s => ?_
  dsimp only
  have henter : Moves (Same tree) (do
      update fun t : State => { t with cwd := copy (normalize s.cwd path) pathCap }
      ok ()) :=
    Moves.bind (.update fun _ => rfl) fun _ => .pure
  cases mountFor s (normalize s.cwd path) with
  | some p =>
    refine .ite henter ?_
    cases mountResolve s p.1 p.2 with
    | none => exact herr _
    | some q => exact .ite henter (herr _)
  | none =>
    cases findIndex s.nodes (normalize s.cwd path) with
    | none => exact herr _
    | some i => exact .ite (herr _) (.ite (herr _) henter)

theorem keeps_chdir (path : Str) :
    Keeps (fun s : State => IsCwd s.cwd) (chdir path) fun _ => True := by
  have herr : ∀ e, Keeps (fun s : State => IsCwd s.cwd)
      (err e : Act State (Except Errno Unit)) fun _ => True := fun _ => .pure trivial
  refine .bind (P := fun s => IsCwd s.cwd) Keeps.query_self fun s hs => ?_
  dsimp only
  have henter : Keeps (fun s : State => IsCwd s.cwd) (do
      update fun t : State => { t with cwd := copy (normalize s.cwd path) pathCap }
      ok ()) fun _ => True := by
    refine .bind (.update fun t _ => ?_) fun _ _ => .pure trivial
    have hkept := isCwd_normalize hs path
    have hcopy : copy (normalize s.cwd path) pathCap = normalize s.cwd path := by
      have := hkept.fits
      exact List.take_of_length_le (by omega)
    rw [hcopy]
    exact hkept
  cases mountFor s (normalize s.cwd path) with
  | some p =>
    refine .ite (fun _ => henter) fun _ => ?_
    cases mountResolve s p.1 p.2 with
    | none => exact herr _
    | some q => exact .ite (fun _ => henter) fun _ => herr _
  | none =>
    cases findIndex s.nodes (normalize s.cwd path) with
    | none => exact herr _
    | some i =>
      exact .ite (fun _ => herr _) fun _ => .ite (fun _ => herr _) fun _ => henter

end Vnu.Vfs
