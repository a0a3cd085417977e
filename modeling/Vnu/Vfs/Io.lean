import Vnu.Vfs.Calls

/-!
Reading, writing and seeking through descriptors, the calls built on them, and the file system as a
state machine. Positions and sizes are 32 bits wide.
-/
namespace Vnu.Vfs

open Lib Act List

def readDevice (dev : DevKind) (count : ℕ) : Act State (Except Errno Str) := do
  match dev with
  | .none | .null => ok []
  | .zero | .full => ok (replicate count 0)
  | .random => ok (((← ask).getD []).takeD count 0)
  | .tty | .audio => err .io
  | .framebuffer =>
    if count < 24 then err .inval
    else match ← ask with
      | none => err .nodev
      | some info => ok (info.takeD 24 0)
  | .block => match ← ask with
    | none => err .io
    | some bytes => ok (bytes.take count)
  | .clipboard => ok (((← ask).getD []).take count)

def DevKind.seekable : DevKind → Bool
  | .block | .clipboard => true
  | _ => false

def advance (fd : Fin maxFd) (n : ℕ) : Act State Unit :=
  update (setFile fd fun f => { f with position := (f.position + n) % word })

def readStored (n : Node) (pos count : ℕ) : Option (List (Option UInt8)) :=
  let take := min (n.size - pos) count
  if n.cap = 0 then some (replicate take none)
  else if take ≠ 0 ∧ n.cap < pos + take then none
  else some ((range take).map fun i => some (n.buf (pos + i)))

def read (fd count : ℕ) : Act State (Except Errno (List (Option UInt8))) := do
  let s ← look
  match fileOf s fd with
  | none => err .badf
  | some (i, f) => match f.mount with
    | some m =>
      if f.fname = [] then err .isdir
      else
        let disk := s.disks (s.mounts m).blk
        match Fat16.read (s.mounts m).fs f.dirClu f.fname f.position count disk with
        | none => err .io
        | some bytes => do
          advance i bytes.length
          ok (bytes.map some)
    | none => match f.node with
      | none => err .badf
      | some ni =>
        let n := s.nodes ni
        if !n.used then err .badf
        else if n.dir then err .isdir
        else if !haveAccess s.who n accR then err .acces
        else if n.dev ≠ .none then do
          match ← readDevice n.dev count with
          | .error e => err e
          | .ok bytes => do
            if n.dev.seekable then advance i bytes.length
            ok (bytes.map some)
        else match readStored n f.position count with
          | none => fail
          | some bytes => do
            advance i bytes.length
            ok bytes

def writeDevice (dev : DevKind) (count : ℕ) : Act State (Except Errno ℕ) := do
  match dev with
  | .none | .null | .zero | .random => ok count
  | .full => err .nospc
  | .tty | .audio => err .io
  | .framebuffer => match ← ask with
    | none => err .nodev
    | some put => ok (min put.length count)
  | .block => match ← ask with
    | none => err .io
    | some put => ok (min put.length count)
  | .clipboard => ok (min ((← ask).getD []).length count)

def isBlank (c : UInt8) : Bool := c == 10 || c == 13 || c == 32 || c == 9

def setSysctlName (bytes : Str) : Act State (Except Errno ℕ) := do
  if bytes.length = 0 ∨ 64 ≤ bytes.length then err .inval
  else if bytes.all isBlank then err .inval
  else match ← ask with
    | none => err .inval
    | some _ => ok bytes.length

def overQuota (s : State) (n : Node) (last : ℕ) : Bool :=
  let limit := quotaLimit s n.uid
  let used := quotaUsed s.nodes n.uid
  n.size < last && limit != 0 && (limit ≤ used || limit - used < last - n.size)

def storeAt (ni : Fin maxN) (pos : ℕ) (bytes : Str) : Act State Unit := fun s =>
  let n := s.nodes ni
  if bytes ≠ [] ∧ n.cap < pos + bytes.length then (none, s)
  else (some (), setNode ni (fun n =>
    { n.store pos bytes with size := max n.size (pos + bytes.length) }) s)

def writeStored (fd : Fin maxFd) (ni : Fin maxN) (pos : ℕ) (bytes : Str) :
    Act State (Except Errno ℕ) := do
  let bytes := bytes.take (word - 1 - pos)
  let s ← look
  if overQuota s (s.nodes ni) (pos + bytes.length) then err .dquot
  else do
    let room ← nodeReserve ni (pos + bytes.length)
    let s ← look
    let bytes := if room then bytes else bytes.take ((s.nodes ni).cap - pos)
    storeAt ni pos bytes
    update (setFile fd fun f => { f with position := pos + bytes.length })
    ok bytes.length

def write (fd : ℕ) (bytes : Str) : Act State (Except Errno ℕ) := do
  let s ← look
  match fileOf s fd with
  | none => err .badf
  | some (i, f) => match f.mount with
    | some m =>
      if f.fname = [] then err .isdir
      else do
        let pos := if has f.flags oAppend then f.fsize else f.position
        update (setFile i fun f => { f with position := pos })
        match ← onDisk m fun fs => Fat16.write fs f.dirClu f.fname pos bytes with
        | none => err .io
        | some got => do
          let last := (pos + got) % word
          update (setFile i fun f => { f with position := last, fsize := max f.fsize last })
          ok got
    | none => match f.node with
      | none => err .badf
      | some ni =>
        let n := s.nodes ni
        if !n.used then err .badf
        else if n.dir then err .isdir
        else if !haveAccess s.who n accW then err .acces
        else if n.dev ≠ .none then do
          match ← writeDevice n.dev bytes.length with
          | .error e => err e
          | .ok put => do
            if n.dev.seekable || n.dev == .framebuffer then advance i put
            ok put
        else if n.synth ≠ .none then
          if n.synth = .sysHostname ∨ n.synth = .sysDomainname then setSysctlName bytes
          else err .acces
        else do
          let pos := if has f.flags oAppend then n.size else f.position
          update (setFile i fun f => { f with position := pos })
          writeStored i ni pos bytes

inductive Whence where
  | set | cur | «end»

def signed (n : ℕ) : ℤ := Int.bmod n word

def seekTo (base : ℕ) (offset : ℤ) : ℕ := (Int.bmod (signed base + offset) word).toNat

def seekEnd (n : Node) : Act State ℕ := do
  match n.dev with
  | .none => pure n.size
  | .block | .framebuffer => pure ((← ask).getD []).length
  | _ => pure 0

def lseek (fd : ℕ) (offset : ℤ) (whence : Whence) : Act State (Except Errno ℕ) := do
  let s ← look
  match fileOf s fd with
  | none => err .badf
  | some (i, f) =>
    let goTo (fileEnd : ℕ) : Act State (Except Errno ℕ) := do
      let base := match whence with
        | .set => 0
        | .cur => f.position
        | .«end» => fileEnd
      update (setFile i fun f => { f with position := seekTo base offset })
      ok (seekTo base offset)
    match f.mount, f.node with
    | some _, _ => goTo (if f.fname = [] then 0 else f.fsize)
    | none, none => ok 0
    | none, some ni =>
      if !(s.nodes ni).used then err .badf
      else do goTo (← seekEnd (s.nodes ni))

def dupFd (fd : ℕ) : Act State (Except Errno ℕ) := do
  let s ← look
  match fileOf s fd with
  | none => err .badf
  | some (_, f) => match freeFd s with
    | none => err .nospc
    | some i => do
      update (setFile i fun _ => { f with owner := s.who.pid })
      ok i.val

def dup2Fd (oldfd newfd : ℕ) : Act State (Except Errno ℕ) := do
  let s ← look
  match fileOf s oldfd with
  | none => err .badf
  | some (_, f) =>
    if h : newfd < maxFd then
      if oldfd = newfd then ok newfd
      else do
        update (setFile ⟨newfd, h⟩ fun _ => { f with owner := s.who.pid })
        ok newfd
    else err .badf

def stat (path : Str) : Act State (Except Errno Bool) := do
  let s ← look
  let abs := normalize s.cwd path
  match mountFor s abs with
  | some (m, rel) =>
    if rel = [] then ok true
    else match mountResolve s m rel with
      | none => err .noent
      | some p => ok (isDirAttr p.attr)
  | none => match findIndex s.nodes abs with
    | none => err .noent
    | some i => do
      if (s.nodes i).synth ≠ .none then regenSynth i
      ok ((s.nodes i).dev == .none && (s.nodes i).dir)

def remove (path : Str) : Act State (Except Errno Unit) := do
  let s ← look
  let abs := normalize s.cwd path
  match mountFor s abs with
  | some _ => do
    match ← stat abs with
    | .error _ => err .noent
    | .ok true => rmdir abs
    | .ok false => unlink abs
  | none => match findIndex s.nodes abs with
    | none => err .noent
    | some i => if (s.nodes i).dir then rmdir abs else unlink abs

/-- The inner loop of `move_stream`. A write that takes nothing is tried again, for ever if need be.
-/
def writeAll (fd : ℕ) : ℕ → Str → Act State (Except Errno Unit)
  | 0, bytes => if bytes = [] then ok () else fail
  | fuel + 1, bytes =>
    if bytes = [] then ok ()
    else do
      match ← write fd bytes with
      | .error e => err e
      | .ok put => writeAll fd fuel (bytes.drop put)

/-- The outer loop; `junk` is what the buffer holds where a read copies nothing. -/
def copyLoop (junk : UInt8) (inFd outFd : ℕ) : ℕ → Act State (Except Errno Unit)
  | 0 => fail
  | fuel + 1 => do
    match ← read inFd 4096 with
    | .error e => err e
    | .ok [] => ok ()
    | .ok got => do
      match ← writeAll outFd (fuel + 1) (got.map fun b => b.getD junk) with
      | .error e => err e
      | .ok _ => copyLoop junk inFd outFd fuel

def copyAcross (junk : UInt8) (fuel inFd outFd : ℕ) : Act State (Except Errno Unit) := do
  let done ← copyLoop junk inFd outFd fuel
  let _ ← close inFd
  let _ ← close outFd
  pure done

def streamInto (junk : UInt8) (fuel inFd : ℕ) (af at_ : Str) : Act State (Except Errno Unit) := do
  match ← «open» at_ (oWronly + oCreat + oTrunc) with
  | .error e => do
    let _ ← close inFd
    err e
  | .ok outFd => do
    match ← copyAcross junk fuel inFd outFd with
    | .error e => err e
    | .ok _ => unlink af

def moveStream (junk : UInt8) (fuel : ℕ) (af at_ : Str) : Act State (Except Errno Unit) := do
  match ← stat at_ with
  | .ok _ => err .exist
  | .error _ => do
    match ← «open» af 0 with
    | .error e => err e
    | .ok inFd => streamInto junk fuel inFd af at_

def moveBytes (src dst : Fin maxN) (n : Node) : Act State (Except Errno Unit) := do
  let s ← look
  if n.cap < n.size ∨ (s.nodes dst).cap < n.size then fail
  else do
    update (setNode dst fun d => { d.store 0 n.bytes with size := n.size })
    update (setNode src Node.release)
    ok ()

def giveBack (dst : Fin maxN) : Act State (Except Errno Unit) := do
  update (setNode dst fun d => { d with used := false })
  err .nospc

/-- A new node takes the bytes, and the old one is emptied but stays. -/
def moveRam (af at_ : Str) : Act State (Except Errno Unit) := do
  let s ← look
  match findIndex s.nodes af with
  | none => err .noent
  | some src =>
    if (s.nodes src).dir then err .isdir
    else if (findIndex s.nodes at_).isSome then err .exist
    else match parentDir s.nodes at_ with
      | none => err .noent
      | some _ => match add s.who s.nodes at_ false with
        | none => err .nospc
        | some (dst, nodes) => do
          let n := s.nodes src
          update fun s => { s with nodes := nodes }
          update (setNode dst fun d => { d with perm := n.perm, uid := n.uid, gid := n.gid })
          if ← nodeReserve dst n.size then moveBytes src dst n else giveBack dst

def moveFile (junk : UInt8) (fuel : ℕ) (src dst : Str) : Act State (Except Errno Unit) := do
  let s ← look
  let af := normalize s.cwd src
  let at_ := normalize s.cwd dst
  if (mountFor s af).isSome ∨ (mountFor s at_).isSome then moveStream junk fuel af at_
  else moveRam af at_

def nodeSet (i : Fin maxN) (bytes : Str) : Act State Unit := do
  if ← nodeReserve i bytes.length then do
    let s ← look
    if (s.nodes i).cap < bytes.length then fail
    else update (setNode i fun n => { n.store 0 bytes with size := bytes.length })

def refill (m : Fin maxMounts) (c : ℕ) (leaf bytes : Str) : Act State (Except Errno Unit) := do
  match ← onDisk m fun fs => Fat16.truncate fs c leaf 0 with
  | none => err .io
  | some _ =>
    if bytes = [] then ok ()
    else do
      match ← onDisk m fun fs => Fat16.write fs c leaf 0 bytes with
      | none => err .io
      | some got => if got ≠ bytes.length then err .io else ok ()

def setMounted (m : Fin maxMounts) (rel bytes : Str) : Act State (Except Errno Unit) := do
  let s ← look
  let (parent, leaf) := splitParent rel pathCap
  if leaf = [] then err .noent
  else match mountDirCluster s m parent with
    | none => err .noent
    | some c =>
      if (mountResolve s m rel).isSome then refill m c leaf bytes
      else do
        match ← onDisk m fun fs => Fat16.create fs c leaf with
        | none => err .io
        | some _ => refill m c leaf bytes

def setPath (path bytes : Str) : Act State (Except Errno Unit) := do
  let s ← look
  let abs := normalize s.cwd path
  match mountFor s abs with
  | some (m, rel) => setMounted m rel bytes
  | none => match findIndex s.nodes abs with
    | none => err .noent
    | some i =>
      if (s.nodes i).dir then err .noent
      else if (s.nodes i).synth ≠ .none then err .acces
      else if !haveAccess s.who (s.nodes i) accW then err .acces
      else do
        nodeSet i bytes
        ok ()

structure Dirent where
  ino : ℕ
  type : ℕ
  name : Str
  deriving DecidableEq

def direntBytes : ℕ := 63
def direntName : ℕ := 56

def direntAt (nodes : Nodes) (i : Fin maxN) : Dirent :=
  ⟨i.val + 1, if (nodes i).dir then 4 else if (nodes i).dev ≠ .none then 2 else 8,
    copy (basename (nodes i).path) direntName⟩

def childSlots (nodes : Nodes) (dir : Str) : List (Fin maxN) :=
  (finRange maxN).filter fun i => (nodes i).used && isPrefixChild dir (nodes i).path

def mountDirents (fs : Fat16.Fs) (d : Fat16.Disk) : ℕ → Fat16.Iter → List Dirent
  | 0, _ => []
  | fuel + 1, it =>
    match Fat16.readdir fs it Fat16.nameMax d with
    | none => []
    | some (name, (_, _, attr), it) =>
      ⟨1, if isDirAttr attr then 4 else 8, copy name direntName⟩ :: mountDirents fs d fuel it

def handOut (fd : Fin maxFd) (all : List Dirent) (count : ℕ) :
    Act State (Except Errno (List Dirent)) := do
  let s ← look
  let got := (all.drop (s.files fd).position).take (count / direntBytes)
  advance fd got.length
  ok got

def getdents (fd count : ℕ) : Act State (Except Errno (List Dirent)) := do
  let s ← look
  match fileOf s fd with
  | none => err .badf
  | some (i, f) => match f.mount with
    | some m =>
      if f.fname ≠ [] then err .notdir
      else
        let fs := (s.mounts m).fs
        let disk := s.disks (s.mounts m).blk
        let it := Fat16.opendir fs f.dirClu disk
        handOut i (mountDirents fs disk (it.total / 32 + 1) it) count
    | none => match f.node with
      | none => err .badf
      | some ni =>
        let n := s.nodes ni
        if !n.used then err .badf
        else if !n.dir then err .notdir
        else if !haveAccess s.who n accR then err .acces
        else handOut i ((childSlots s.nodes n.path).map (direntAt s.nodes)) count

def chdir (path : Str) : Act State (Except Errno Unit) := do
  let s ← look
  let abs := normalize s.cwd path
  let enter : Act State (Except Errno Unit) := do
    update fun s => { s with cwd := copy abs pathCap }
    ok ()
  match mountFor s abs with
  | some (m, rel) =>
    if rel = [] then enter
    else match mountResolve s m rel with
      | none => err .noent
      | some p => if isDirAttr p.attr then enter else err .notdir
  | none => match findIndex s.nodes abs with
    | none => err .noent
    | some i =>
      if !(s.nodes i).dir then err .notdir
      else if !haveAccess s.who (s.nodes i) accX then err .acces
      else enter

/-- `chmod` and `chown`: of a mounted path only its presence is asked. -/
def changeNode (path : Str) (may : State → Node → Bool) (f : Node → Node) :
    Act State (Except Errno Unit) := do
  let s ← look
  let abs := normalize s.cwd path
  match mountFor s abs with
  | some (m, rel) =>
    if rel = [] ∨ (mountResolve s m rel).isSome then ok () else err .noent
  | none => match findIndex s.nodes abs with
    | none => err .noent
    | some i =>
      if !may s (s.nodes i) then err .perm
      else do
        update (setNode i f)
        ok ()

def chmod (path : Str) (mode : ℕ) : Act State (Except Errno Unit) :=
  changeNode path (fun s n => s.who.uid == 0 || s.who.uid == n.uid) fun n =>
    { n with perm := mode % 0o1000 }

def chown (path : Str) (uid gid : Option ℕ) : Act State (Except Errno Unit) :=
  changeNode path (fun s _ => s.who.uid == 0) fun n =>
    { n with uid := uid.getD n.uid, gid := gid.getD n.gid }

inductive Op where
  | open (path : Str) (flags : ℕ)
  | close (fd : ℕ)
  | read (fd count : ℕ)
  | write (fd : ℕ) (bytes : Str)
  | lseek (fd : ℕ) (offset : ℤ) (whence : Whence)
  | dup (fd : ℕ)
  | dup2 (oldfd newfd : ℕ)
  | stat (path : Str)
  | touch (path : Str)
  | mkdir (path : Str)
  | rmdir (path : Str)
  | unlink (path : Str)
  | remove (path : Str)
  | move (junk : UInt8) (fuel : ℕ) (src dst : Str)
  | setPath (path bytes : Str)
  | getdents (fd count : ℕ)
  | chdir (path : Str)
  | chmod (path : Str) (mode : ℕ)
  | chown (path : Str) (uid gid : Option ℕ)
  | setQuota (uid limit : ℕ)
  | switch (who : Caller)

def ignore {α : Type} (x : Act State α) : Act State Unit := do
  let _ ← x
  pure ()

def perform : Op → Act State Unit
  | .open path flags => ignore («open» path flags)
  | .close fd => ignore (close fd)
  | .read fd count => ignore (read fd count)
  | .write fd bytes => ignore (write fd bytes)
  | .lseek fd offset whence => ignore (lseek fd offset whence)
  | .dup fd => ignore (dupFd fd)
  | .dup2 oldfd newfd => ignore (dup2Fd oldfd newfd)
  | .stat path => ignore (stat path)
  | .touch path => ignore (touch path)
  | .mkdir path => ignore (mkdir path)
  | .rmdir path => ignore (rmdir path)
  | .unlink path => ignore (unlink path)
  | .remove path => ignore (remove path)
  | .move junk fuel src dst => ignore (moveFile junk fuel src dst)
  | .setPath path bytes => ignore (setPath path bytes)
  | .getdents fd count => ignore (getdents fd count)
  | .chdir path => ignore (chdir path)
  | .chmod path mode => ignore (chmod path mode)
  | .chown path uid gid => ignore (chown path uid gid)
  | .setQuota uid limit => update fun s => { s with quotas := (uid, limit) :: s.quotas }
  | .switch who => update fun s => { s with who := who }

def step (s : State) (op : Op) : State := (perform op s).2

theorem ignore_snd {α : Type} (x : Act State α) (s : State) : (ignore x s).2 = (x s).2 := by
  unfold ignore
  simp only [Bind.bind]
  rcases x s with ⟨_ | a, s'⟩ <;> rfl

end Vnu.Vfs
