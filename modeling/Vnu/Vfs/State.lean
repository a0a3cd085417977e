import Vnu.Fat16.Operations
import Vnu.Vfs.Nodes

/-!
The state the calls of the file system work on, shared by every process. The answers of the page
frame pool and of the drivers are lists that are used up one by one.
-/
namespace Vnu.Vfs

open Lib Function List

def maxFd : ℕ := 64
def maxMounts : ℕ := 8

structure File where
  used : Bool
  position : ℕ
  flags : ℕ
  node : Option (Fin maxN)
  owner : ℕ
  mount : Option (Fin maxMounts)
  dirClu : ℕ
  fsize : ℕ
  fname : Str

def File.closed : File := ⟨false, 0, 0, none, 0, none, 0, 0, []⟩

structure Mount where
  used : Bool
  path : Str
  subdir : Str
  blk : ℕ
  fs : Fat16.Fs

structure State where
  nodes : Nodes
  files : Fin maxFd → File
  mounts : Fin maxMounts → Mount
  disks : ℕ → Fat16.Disk
  cwd : Str
  who : Caller
  quotas : List (ℕ × ℕ)
  quotaDefault : ℕ
  poolFrames : ℕ
  frames : List Bool
  driver : List (Option Str)

def oWronly : ℕ := 1
def oRdwr : ℕ := 2
def oCreat : ℕ := 0x40
def oTrunc : ℕ := 0x200
def oAppend : ℕ := 0x400

def has (flags bit : ℕ) : Bool := flags &&& bit != 0

/-- The last of the longest mounts that cover a path, and the path inside it. -/
def mountFor (s : State) (abs : Str) : Option (Fin maxMounts × Str) :=
  let best := (finRange maxMounts).foldl (fun best i =>
    if (s.mounts i).used && prefixAt abs (s.mounts i).path then
      match best with
      | none => some i
      | some b => if (s.mounts b).path.length ≤ (s.mounts i).path.length then some i else some b
    else best) none
  best.map fun i =>
    let rest := abs.drop (s.mounts i).path.length
    (i, if rest.head? = some slash then rest.tail else rest)

def mountVolPath (m : Mount) (rel : Str) : Str :=
  let base := m.subdir.take 127
  let base := if base ≠ [] ∧ rel ≠ [] ∧ base.length < 127 then base ++ [slash] else base
  base ++ rel.take (127 - base.length)

def mountResolve (s : State) (m : Fin maxMounts) (rel : Str) : Option Fat16.Place :=
  Fat16.resolve (s.mounts m).fs (mountVolPath (s.mounts m) rel) (s.disks (s.mounts m).blk)

def isDirAttr (attr : UInt8) : Bool := attr &&& Fat16.attrDir != 0

def mountDirCluster (s : State) (m : Fin maxMounts) (rel : Str) : Option ℕ :=
  if mountVolPath (s.mounts m) rel = [] then some 0
  else match mountResolve s m rel with
    | none => none
    | some p => if isDirAttr p.attr then some p.cluster else none

/-- A call of the volume driver; one that fails keeps what it wrote. -/
def onDisk {α : Type} (m : Fin maxMounts) (x : Fat16.Fs → Act Fat16.Disk α) :
    Act State (Option α) :=
  fun s =>
    let mt := s.mounts m
    let r := x mt.fs (s.disks mt.blk)
    (some r.1, { s with disks := update s.disks mt.blk r.2 })

def setNode (i : Fin maxN) (f : Node → Node) (s : State) : State :=
  { s with nodes := update s.nodes i (f (s.nodes i)) }

def setFile (fd : Fin maxFd) (f : File → File) (s : State) : State :=
  { s with files := update s.files fd (f (s.files fd)) }

def freeFd (s : State) : Option (Fin maxFd) :=
  (finRange maxFd).find? fun i => decide (3 ≤ i.val) && !(s.files i).used

def ask : Act State (Option Str) := fun s =>
  (some (s.driver.head?.join), { s with driver := s.driver.tail })

def nodeReserve (i : Fin maxN) (need : ℕ) : Act State Bool := fun s =>
  let n := s.nodes i
  let pages := reservePages n.cap need
  let granted := decide (pages ≤ s.poolFrames) && s.frames.headD false
  -- the pool is asked only for a run it could hold
  let s' := if n.cap < need ∧ pages ≠ 0 ∧ pages ≤ s.poolFrames then
    { s with frames := s.frames.tail } else s
  match n.reserve need fun _ => granted with
  | .enough => (some true, s')
  | .refused => (some false, s')
  | .fault => (none, s')
  | .grown n' => (some true, setNode i (fun _ => n') s')

def quotaLimit (s : State) (uid : ℕ) : ℕ := (s.quotas.lookup uid).getD s.quotaDefault

def bare : State where
  nodes := update (fun _ => Node.empty) ⟨0, by decide⟩
    { Node.empty with used := true, dir := true, path := [slash], perm := 0o755 }
  files := fun _ => File.closed
  mounts := fun _ => ⟨false, [], [], 0,
    ⟨⟨fun _ => false, fun _ => false⟩, 0, 0, 0, 0, 0, 0, 0, 0, 0, 0, 0, false⟩⟩
  disks := fun _ _ _ => 0
  cwd := [slash]
  who := ⟨0, 0, 0⟩
  quotas := []
  quotaDefault := 0
  poolFrames := 0
  frames := []
  driver := []

end Vnu.Vfs
