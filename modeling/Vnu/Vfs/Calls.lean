import Mathlib.Data.Int.Basic
import Vnu.Vfs.State

/-!
The calls on paths and descriptors. A path below a mount is served by the volume, every other one by
the node table. A call gives up where the code accesses memory it must not.
-/
namespace Vnu.Vfs

open Lib Act

def look : Act State State := query some

def err {α : Type} (e : Errno) : Act State (Except Errno α) := pure (.error e)

def ok {α : Type} (a : α) : Act State (Except Errno α) := pure (.ok a)

def fileOf (s : State) (fd : ℕ) : Option (Fin maxFd × File) :=
  if h : fd < maxFd then
    if (s.files ⟨fd, h⟩).used then some (⟨fd, h⟩, s.files ⟨fd, h⟩) else none
  else none

/-- The size is set first, so a run that has to grow is copied as if it had the new text already.
-/
def regenSynth (i : Fin maxN) : Act State Unit := do
  let text := (← ask).getD []
  update (setNode i fun n => { n with size := text.length })
  if ← nodeReserve i text.length then
    update (setNode i fun n => { n.store 0 text with size := text.length })

def mountTarget (m : Fin maxMounts) (rel : Str) (flags : ℕ) :
    Act State (Except Errno (Bool × ℕ × ℕ × Str)) := do
  let s ← look
  if rel = [] then
    match mountDirCluster s m [] with
    | none => err .noent
    | some c => ok (true, c, 0, [])
  else match mountResolve s m rel with
    | some p =>
      if isDirAttr p.attr then ok (true, p.cluster, p.size, [])
      else
        let (parent, leaf) := splitParent rel pathCap
        match mountDirCluster s m parent with
        | none => err .noent
        | some c => ok (false, c, p.size, copy leaf 64)
    | none =>
      if !has flags oCreat then err .noent
      else
        let (parent, leaf) := splitParent rel pathCap
        if leaf = [] then err .inval
        else match mountDirCluster s m parent with
          | none => err .noent
          | some c => do
            match ← onDisk m fun fs => Fat16.create fs c leaf with
            | none => err .io
            | some _ => ok (false, c, 0, copy leaf 64)

def openMount (m : Fin maxMounts) (rel : Str) (flags : ℕ) : Act State (Except Errno ℕ) := do
  match ← mountTarget m rel flags with
  | .error e => err e
  | .ok (isDir, dirClu, size, name) =>
    if isDir && flags % 4 == oWronly then err .isdir
    else do
      let s ← look
      match freeFd s with
      | none => err .nospc
      | some fd => do
        update (setFile fd fun _ =>
          { File.closed with
            used := true
            flags := flags
            owner := s.who.pid
            mount := some m
            dirClu := dirClu
            fsize := if isDir then 0 else size
            fname := name })
        if !isDir && has flags oTrunc && size != 0 then do
          -- a failed truncation leaves the descriptor behind
          match ← onDisk m fun fs => Fat16.truncate fs dirClu name 0 with
          | none => err .io
          | some _ => do
            update (setFile fd fun f => { f with fsize := 0 })
            ok fd.val
        else ok fd.val

def openNode (abs : Str) (flags : ℕ) : Act State (Except Errno (Fin maxN)) := do
  let s ← look
  match findIndex s.nodes abs with
  | some i => ok i
  | none =>
    if !has flags oCreat then err .noent
    else match parentDir s.nodes abs with
      | none => err .noent
      | some par =>
        if !haveAccess s.who (s.nodes par) accW then err .acces
        else match add s.who s.nodes abs false with
          | none => err .nospc
          | some (_, nodes) => do
            update fun s => { s with nodes := nodes }
            match findIndex nodes abs with
            | some i => ok i
            -- the code would index the table with -1
            | none => fail

def openAccess (flags : ℕ) : ℕ :=
  if flags % 4 = 1 then accW else if flags % 4 = 2 then accR ||| accW else accR

def openDevice (dev : DevKind) (flags : ℕ) : Act State (Except Errno Unit) := do
  if dev = .framebuffer then do
    match ← ask with
    | none => err .nodev
    | some _ => ok ()
  else if dev = .clipboard ∧ flags % 4 ≠ 0 then do
    let _ ← ask
    ok ()
  else ok ()

def openEffects (i : Fin maxN) (flags : ℕ) : Act State (Except Errno Unit) := do
  let s ← look
  if (s.nodes i).synth ≠ .none then do
    regenSynth i
    openDevice (s.nodes i).dev flags
  else openDevice (s.nodes i).dev flags

def openSlot (i : Fin maxN) (flags : ℕ) : Act State (Except Errno ℕ) := do
  let s ← look
  match freeFd s with
  | none => err .nospc
  | some fd => do
    update (setFile fd fun _ =>
      { File.closed with used := true, flags := flags, node := some i, owner := s.who.pid })
    if has flags oTrunc && (s.nodes i).plain then
      update (setNode i fun n => { n with size := 0 })
    ok fd.val

def openOn (i : Fin maxN) (flags : ℕ) : Act State (Except Errno ℕ) := do
  let s ← look
  if (s.nodes i).dir && has flags oWronly then err .acces
  else if !haveAccess s.who (s.nodes i) (openAccess flags) then err .acces
  else do
    match ← openEffects i flags with
    | .error e => err e
    | .ok _ => openSlot i flags

def openRam (abs : Str) (flags : ℕ) : Act State (Except Errno ℕ) := do
  match ← openNode abs flags with
  | .error e => err e
  | .ok i => openOn i flags

def «open» (path : Str) (flags : ℕ) : Act State (Except Errno ℕ) := do
  let s ← look
  let abs := normalize s.cwd path
  match mountFor s abs with
  | some (m, rel) => openMount m rel flags
  | none => openRam abs flags

def close (fd : ℕ) : Act State (Except Errno Unit) := do
  let s ← look
  match fileOf s fd with
  | none => err .badf
  | some (i, _) => if fd < 3 then err .badf else do
    update (setFile i fun _ => File.closed)
    ok ()

def addChecked (abs : Str) (dir : Bool) : Act State (Except Errno Unit) := do
  let s ← look
  match parentDir s.nodes abs with
  | none => err .noent
  | some par =>
    if !haveAccess s.who (s.nodes par) accW then err .acces
    else match add s.who s.nodes abs dir with
      | none => err .nospc
      | some (_, nodes) => do
        update fun s => { s with nodes := nodes }
        ok ()

def onLeaf (m : Fin maxMounts) (rel : Str) (failed : Errno)
    (x : Fat16.Fs → ℕ → Str → Act Fat16.Disk Unit) : Act State (Except Errno Unit) := do
  let s ← look
  let (parent, leaf) := splitParent rel pathCap
  match mountDirCluster s m parent with
  | none => err .noent
  | some c => do
    match ← onDisk m fun fs => x fs c leaf with
    | none => err failed
    | some _ => ok ()

def touch (path : Str) : Act State (Except Errno Unit) := do
  let s ← look
  let abs := normalize s.cwd path
  match mountFor s abs with
  | some (m, rel) =>
    if rel = [] then ok ()
    else if (mountResolve s m rel).isSome then ok ()
    else onLeaf m rel .io Fat16.create
  | none => match findIndex s.nodes abs with
    | some i => if haveAccess s.who (s.nodes i) accW then ok () else err .acces
    | none => addChecked abs false

def mkdir (path : Str) : Act State (Except Errno Unit) := do
  let s ← look
  let abs := normalize s.cwd path
  match mountFor s abs with
  | some (m, rel) =>
    if rel = [] then err .exist
    else if (mountResolve s m rel).isSome then err .exist
    else onLeaf m rel .io Fat16.mkdir
  | none => if (findIndex s.nodes abs).isSome then err .exist else addChecked abs true

def dropNode (i : Fin maxN) : Act State Unit :=
  update (setNode i fun n => { n.release with used := false })

def hasChild (nodes : Nodes) (abs : Str) : Bool :=
  (List.finRange maxN).any fun i => (nodes i).used && isPrefixChild abs (nodes i).path

def rmdir (path : Str) : Act State (Except Errno Unit) := do
  let s ← look
  let abs := normalize s.cwd path
  match mountFor s abs with
  | some (m, rel) =>
    if rel = [] then err .perm
    else match mountResolve s m rel with
      | none => err .noent
      | some p => if !isDirAttr p.attr then err .notdir else onLeaf m rel .notempty Fat16.rmdir
  | none => match findIndex s.nodes abs with
    | none => err .noent
    | some i =>
      if !(s.nodes i).dir then err .notdir
      else if abs = [slash] then err .perm
      else match parentDir s.nodes abs with
        | none => err .noent
        | some par =>
          if !haveAccess s.who (s.nodes par) accW then err .acces
          else if hasChild s.nodes abs then err .notempty
          else do
            dropNode i
            ok ()

def unlinkMount (m : Fin maxMounts) (rel : Str) : Act State (Except Errno Unit) := do
  let s ← look
  if rel = [] then err .isdir
  else match mountResolve s m rel with
    | none => err .noent
    | some p => if isDirAttr p.attr then err .isdir else onLeaf m rel .io Fat16.unlink

def unlinkRam (abs : Str) : Act State (Except Errno Unit) := do
  let s ← look
  match findIndex s.nodes abs with
  | none => err .noent
  | some i =>
    if (s.nodes i).dir then err .isdir
    else match parentDir s.nodes abs with
      | none => err .noent
      | some par =>
        if !haveAccess s.who (s.nodes par) accW then err .acces
        else do
          dropNode i
          ok ()

def unlink (path : Str) : Act State (Except Errno Unit) := do
  let s ← look
  match mountFor s (normalize s.cwd path) with
  | some (m, rel) => unlinkMount m rel
  | none => unlinkRam (normalize s.cwd path)

end Vnu.Vfs
