import Vnu.Vfs.Io

/-!
The calls that leave the node table alone.
-/
namespace Vnu.Vfs

open Lib Act

theorem fileOf_some {s : State} {fd : ℕ} {i : Fin maxFd} {f : File}
    (h : fileOf s fd = some (i, f)) : fd = i.val ∧ f = s.files i ∧ f.used = true := by
  unfold fileOf at h
  split_ifs at h with hlt hused
  obtain ⟨rfl, rfl⟩ := Prod.mk.inj (Option.some.inj h)
  exact ⟨rfl, rfl, hused⟩

/-- The state apart from the descriptors, the disks and the answers of the drivers. -/
def apart (s : State) : Nodes × (Fin maxMounts → Mount) × Str × Caller × ℕ × List Bool :=
  (s.nodes, s.mounts, s.cwd, s.who, s.poolFrames, s.frames)

abbrev Aside {α : Type} (x : Act State α) : Prop := Moves (Same apart) x

theorem aside_setFile {fd : Fin maxFd} {f : File → File} : Aside (update (setFile fd f)) :=
  Moves.update fun _ => rfl

theorem aside_look : Aside look := Moves.query

theorem aside_ask : Aside ask := fun _ => rfl

theorem aside_onDisk {α : Type} {m : Fin maxMounts} {x : Fat16.Fs → Act Fat16.Disk α} :
    Aside (onDisk m x) := fun _ => rfl

theorem aside_advance {fd : Fin maxFd} {n : ℕ} : Aside (advance fd n) := aside_setFile

theorem aside_err {α : Type} {e : Errno} : Aside (err e : Act State (Except Errno α)) :=
  Moves.pure

theorem aside_ok {α : Type} {a : α} : Aside (ok a) := Moves.pure

theorem aside_fail {α : Type} : Aside (fail : Act State α) := Moves.fail

theorem aside_close (fd : ℕ) : Aside (close fd) := by
  refine .bind aside_look fun s => ?_
  cases fileOf s fd with
  | none => exact aside_err
  | some p =>
    refine .ite aside_err ?_
    exact .bind aside_setFile fun _ => aside_ok

theorem aside_readDevice (dev : DevKind) (count : ℕ) : Aside (readDevice dev count) := by
  cases dev with
  | none | null | zero | full => exact aside_ok
  | tty | audio => exact aside_err
  | random | clipboard => exact .bind aside_ask fun _ => aside_ok
  | framebuffer =>
    refine .ite aside_err (.bind aside_ask fun r => ?_)
    cases r with
    | none => exact aside_err
    | some _ => exact aside_ok
  | block =>
    refine .bind aside_ask fun r => ?_
    cases r with
    | none => exact aside_err
    | some _ => exact aside_ok

theorem aside_read (fd count : ℕ) : Aside (read fd count) := by
  refine .bind aside_look fun s => ?_
  cases fileOf s fd with
  | none => exact aside_err
  | some p =>
    obtain ⟨i, f⟩ := p
    dsimp only
    cases f.mount with
    | some m =>
      refine .ite aside_err ?_
      cases Fat16.read (s.mounts m).fs f.dirClu f.fname f.position count
          (s.disks (s.mounts m).blk) with
      | none => exact aside_err
      | some bytes => exact .bind aside_advance fun _ => aside_ok
    | none =>
      cases f.node with
      | none => exact aside_err
      | some ni =>
        refine .ite aside_err (.ite aside_err
          (.ite aside_err (.ite ?_ ?_)))
        · refine .bind (aside_readDevice _ _) fun r => ?_
          cases r with
          | error e => exact aside_err
          | ok bytes =>
            exact .ite (.bind aside_advance fun _ => aside_ok)
              aside_ok
        · cases readStored (s.nodes ni) f.position count with
          | none => exact aside_fail
          | some bytes => exact .bind aside_advance fun _ => aside_ok

theorem aside_writeDevice {dev : DevKind} {count : ℕ} : Aside (writeDevice dev count) := by
  cases dev with
  | none | null | zero | random => exact aside_ok
  | full | tty | audio => exact aside_err
  | clipboard => exact .bind aside_ask fun _ => aside_ok
  | framebuffer | block =>
    refine .bind aside_ask fun r => ?_
    cases r with
    | none => exact aside_err
    | some _ => exact aside_ok

theorem aside_setSysctlName (bytes : Str) : Aside (setSysctlName bytes) := by
  refine .ite aside_err (.ite aside_err ?_)
  refine .bind aside_ask fun r => ?_
  cases r with
  | none => exact aside_err
  | some _ => exact aside_ok

theorem aside_seekEnd (n : Node) : Aside (seekEnd n) := by
  unfold seekEnd
  cases n.dev with
  | block | framebuffer => exact .bind aside_ask fun _ => .pure
  | _ => exact .pure

theorem aside_lseek (fd : ℕ) (offset : ℤ) (whence : Whence) : Aside (lseek fd offset whence) := by
  refine .bind aside_look fun s => ?_
  cases fileOf s fd with
  | none => exact aside_err
  | some p =>
    obtain ⟨i, f⟩ := p
    dsimp only
    cases f.mount with
    | some m => exact .bind aside_setFile fun _ => aside_ok
    | none =>
      cases f.node with
      | none => exact aside_ok
      | some ni =>
        refine .ite aside_err (.bind (aside_seekEnd _) fun e => ?_)
        exact .bind aside_setFile fun _ => aside_ok

theorem aside_dupFd (fd : ℕ) : Aside (dupFd fd) := by
  refine .bind aside_look fun s => ?_
  cases fileOf s fd with
  | none => exact aside_err
  | some p =>
    cases freeFd s with
    | none => exact aside_err
    | some i => exact .bind aside_setFile fun _ => aside_ok

theorem aside_dup2Fd (oldfd newfd : ℕ) : Aside (dup2Fd oldfd newfd) := by
  refine .bind aside_look fun s => ?_
  cases fileOf s oldfd with
  | none => exact aside_err
  | some p =>
    dsimp only
    by_cases h : newfd < maxFd
    · rw [dif_pos h]
      exact .ite aside_ok (.bind aside_setFile fun _ => aside_ok)
    · rw [dif_neg h]
      exact aside_err

theorem aside_handOut {fd : Fin maxFd} {all : List Dirent} {count : ℕ} :
    Aside (handOut fd all count) :=
  Moves.bind aside_look fun _ => .bind aside_advance fun _ => aside_ok

theorem aside_getdents (fd count : ℕ) : Aside (getdents fd count) := by
  refine .bind aside_look fun s => ?_
  cases fileOf s fd with
  | none => exact aside_err
  | some p =>
    obtain ⟨i, f⟩ := p
    dsimp only
    cases f.mount with
    | some m => exact .ite aside_err aside_handOut
    | none =>
      cases f.node with
      | none => exact aside_err
      | some ni =>
        exact .ite aside_err (.ite aside_err
          (.ite aside_err aside_handOut))

theorem aside_refill {m : Fin maxMounts} {c : ℕ} {leaf bytes : Str} :
    Aside (refill m c leaf bytes) := by
  refine .bind aside_onDisk fun r => ?_
  cases r with
  | none => exact aside_err
  | some _ =>
    refine .ite aside_ok (.bind aside_onDisk fun r => ?_)
    cases r with
    | none => exact aside_err
    | some got => exact .ite aside_err aside_ok

theorem aside_setMounted (m : Fin maxMounts) (rel bytes : Str) :
    Aside (setMounted m rel bytes) := by
  refine .bind aside_look fun s => ?_
  rcases splitParent rel pathCap with ⟨parent, leaf⟩
  refine .ite aside_err ?_
  cases mountDirCluster s m parent with
  | none => exact aside_err
  | some c =>
    refine .ite aside_refill (.bind aside_onDisk fun r => ?_)
    cases r with
    | none => exact aside_err
    | some _ => exact aside_refill

theorem aside_onLeaf {m : Fin maxMounts} {rel : Str} {failed : Errno}
    {x : Fat16.Fs → ℕ → Str → Act Fat16.Disk Unit} : Aside (onLeaf m rel failed x) := by
  refine .bind aside_look fun s => ?_
  dsimp only
  cases mountDirCluster s m (splitParent rel pathCap).1 with
  | none => exact aside_err
  | some c =>
    refine .bind aside_onDisk fun r => ?_
    cases r with
    | none => exact aside_err
    | some _ => exact aside_ok

theorem aside_unlinkMount (m : Fin maxMounts) (rel : Str) : Aside (unlinkMount m rel) := by
  refine .bind aside_look fun s => .ite aside_err ?_
  cases mountResolve s m rel with
  | none => exact aside_err
  | some p => exact .ite aside_err aside_onLeaf

theorem aside_mountTarget (m : Fin maxMounts) (rel : Str) (flags : ℕ) :
    Aside (mountTarget m rel flags) := by
  refine .bind aside_look fun s => .ite ?_ ?_
  · cases mountDirCluster s m [] with
    | none => exact aside_err
    | some c => exact aside_ok
  cases mountResolve s m rel with
  | some p =>
    refine .ite aside_ok ?_
    rcases splitParent rel pathCap with ⟨parent, leaf⟩
    dsimp only
    cases mountDirCluster s m parent with
    | none => exact aside_err
    | some c => exact aside_ok
  | none =>
    refine .ite aside_err ?_
    rcases splitParent rel pathCap with ⟨parent, leaf⟩
    refine .ite aside_err ?_
    cases mountDirCluster s m parent with
    | none => exact aside_err
    | some c =>
      refine .bind aside_onDisk fun r => ?_
      cases r with
      | none => exact aside_err
      | some _ => exact aside_ok

theorem aside_openMount (m : Fin maxMounts) (rel : Str) (flags : ℕ) :
    Aside (openMount m rel flags) := by
  refine .bind (aside_mountTarget m rel flags) fun r => ?_
  cases r with
  | error e => exact aside_err
  | ok t =>
    refine .ite aside_err (.bind aside_look fun s => ?_)
    cases freeFd s with
    | none => exact aside_err
    | some fd =>
      refine .bind aside_setFile fun _ => .ite ?_ aside_ok
      refine .bind aside_onDisk fun r => ?_
      cases r with
      | none => exact aside_err
      | some _ => exact .bind aside_setFile fun _ => aside_ok

theorem aside_openDevice {dev : DevKind} {flags : ℕ} : Aside (openDevice dev flags) := by
  refine .ite (.bind aside_ask fun r => ?_)
    (.ite (.bind aside_ask fun _ => aside_ok) aside_ok)
  cases r with
  | none => exact aside_err
  | some _ => exact aside_ok

end Vnu.Vfs
