import Mathlib.Data.List.Basic
import Mathlib.Data.List.FinRange
import Mathlib.Data.Nat.Basic
import Mathlib.Logic.Function.Basic
import Mathlib.Tactic.NormNum
import Vnu.Lib.Act

/-!
The path strings of the file system and its node table. A node is found by its path alone. A file
lies in a run of page frames, and an action gives up where the code would access a byte outside it.
-/
namespace Vnu.Vfs

open Lib List

abbrev Str := List UInt8

def pathCap : ℕ := 64

def slash : UInt8 := 47
def dot : UInt8 := 46

def copy (s : Str) (n : ℕ) : Str := s.take (n - 1)

def rawBase (cwd : Str) : Str :=
  let base := cwd.take (pathCap - 2)
  if 1 < base.length ∧ base.getLast? ≠ some slash then base ++ [slash] else base

def rawPath (cwd path : Str) : Str :=
  if path = [] then copy cwd pathCap
  else if path.head? = some slash then copy path pathCap
  else rawBase cwd ++ path.take (pathCap - 1 - (rawBase cwd).length)

def maxDepth : ℕ := 16

/-- `.` is skipped, `..` takes the last one away, and one past the sixteenth is dropped. -/
def pushSegment (segs : List Str) (seg : Str) : List Str :=
  if seg = [dot] then segs
  else if seg = [dot, dot] then segs.dropLast
  else if segs.length < maxDepth then segs ++ [seg]
  else segs

def segmentLoop : ℕ → Str → List Str → List Str
  | 0, _, segs => segs
  | fuel + 1, raw, segs =>
    let raw := raw.dropWhile (· == slash)
    if raw = [] then segs
    else
      segmentLoop fuel (raw.dropWhile (· != slash))
        (pushSegment segs (raw.takeWhile (· != slash)))

def render (segs : List Str) : Str := slash :: intercalate [slash] segs

def normalize (cwd path : Str) : Str :=
  let raw := rawPath cwd path
  copy (render (segmentLoop (raw.length + 1) raw [])) pathCap

def prefixAt : (path point : Str) → Bool
  | path, [] => path.isEmpty || path.head? == some slash
  | [], _ :: _ => false
  | c :: path, d :: point => c == d && prefixAt path point

def lastSlash (s : Str) : Option ℕ :=
  if s.contains slash then some (s.length - 1 - s.reverse.idxOf slash) else none

/-- "a/b/c" as its directory "a/b" (cut to `cap`) and its last component. -/
def splitParent (rel : Str) (cap : ℕ) : Str × Str :=
  match lastSlash rel with
  | none => ([], rel)
  | some i => (copy (rel.take i) cap, rel.drop (i + 1))

def parentPath (abs : Str) : Str :=
  match lastSlash abs with
  | none | some 0 => [slash]
  | some i => (copy abs pathCap).take i

def isPrefixChild (parent child : Str) : Bool :=
  if parent = child then false
  else if parent = [slash] then
    child.head? == some slash && !(child.drop 1).contains slash && child.length != 1
  else
    parent.isPrefixOf child && child[parent.length]? == some slash &&
      !(child.drop (parent.length + 1)).contains slash && child.length != parent.length + 1

def basename (path : Str) : Str := (path.reverse.takeWhile (· != slash)).reverse

inductive DevKind where
  | none | null | zero | full | random | tty | audio | framebuffer | block | clipboard
  deriving DecidableEq

inductive SynthKind where
  | none | version | cpuInfo | memInfo | selfStatus | mounts | uptime | disks | dfStat | images
  | gfx | boot | stat | netDev | sysOstype | sysOsrelease | sysOsrevision | sysVersion
  | sysHostname | sysDomainname
  deriving DecidableEq

inductive Errno where
  | perm | noent | io | badf | acces | exist | nodev | notdir | isdir | inval | nospc | range
  | notempty | dquot
  deriving DecidableEq

structure Node where
  used : Bool
  dir : Bool
  dev : DevKind
  synth : SynthKind
  blk : ℕ
  path : Str
  buf : ℕ → UInt8
  cap : ℕ
  size : ℕ
  perm : ℕ
  uid : ℕ
  gid : ℕ

def Node.empty : Node :=
  ⟨false, false, .none, .none, 0, [], fun _ => 0, 0, 0, 0, 0, 0⟩

def Node.plain (n : Node) : Bool :=
  n.used && !n.dir && n.dev == .none && n.synth == .none

def maxN : ℕ := 1024

abbrev Nodes := Fin maxN → Node

structure Caller where
  pid : ℕ
  uid : ℕ
  gid : ℕ

def findIndex (nodes : Nodes) (path : Str) : Option (Fin maxN) :=
  (finRange maxN).find? fun i => (nodes i).used && (nodes i).path == path

def freeIndex (nodes : Nodes) : Option (Fin maxN) :=
  (finRange maxN).find? fun i => !(nodes i).used

/-- The node `parent_dir` finds; it does not ask whether that is a directory. -/
def parentDir (nodes : Nodes) (abs : Str) : Option (Fin maxN) :=
  findIndex nodes (parentPath abs)

def add (who : Caller) (nodes : Nodes) (path : Str) (dir : Bool) : Option (Fin maxN × Nodes) :=
  (freeIndex nodes).map fun i =>
    (i, Function.update nodes i
      { Node.empty with
        used := true
        dir := dir
        path := copy path pathCap
        perm := if dir then 0o755 else 0o644
        uid := who.uid
        gid := who.gid })

def accR : ℕ := 4
def accW : ℕ := 2
def accX : ℕ := 1

def haveAccess (who : Caller) (n : Node) (want : ℕ) : Bool :=
  if who.uid = 0 then true
  else if who.uid = n.uid then n.perm &&& (want <<< 6) == want <<< 6
  else if who.gid = n.gid then n.perm &&& (want <<< 3) == want <<< 3
  else n.perm &&& want == want

def pageBytes : ℕ := 4096

def word : ℕ := 2 ^ 32

def Node.release (n : Node) : Node := { n with buf := fun _ => 0, cap := 0, size := 0 }

def reservePages (cap need : ℕ) : ℕ :=
  let pages := (need + pageBytes - 1) % word / pageBytes
  let twice := cap / pageBytes * 2
  if pages < twice then twice else pages

def Node.moved (n : Node) (pages : ℕ) : Node :=
  { n with
    buf := fun i => if i < n.size then n.buf i else 0
    cap := pages * pageBytes % word }

inductive Reserved where
  | enough
  | refused
  | fault
  | grown (n : Node)

/-- `pool` is the answer of `alloc_contig` for a run of so many pages. -/
def Node.reserve (n : Node) (need : ℕ) (pool : ℕ → Bool) : Reserved :=
  if need ≤ n.cap then .enough
  else
    let pages := reservePages n.cap need
    if pages = 0 ∨ pool pages = false then .refused
    else if n.cap < n.size ∨ (n.moved pages).cap < n.size then .fault
    else .grown (n.moved pages)

def Node.store (n : Node) (pos : ℕ) (bytes : Str) : Node :=
  { n with
    buf := fun i =>
      if pos ≤ i ∧ i < pos + bytes.length then bytes.getD (i - pos) 0 else n.buf i }

def Node.bytes (n : Node) : Str := (range n.size).map n.buf

def quotaUsed (nodes : Nodes) (uid : ℕ) : ℕ :=
  (finRange maxN).foldl (fun total i =>
    if (nodes i).plain && (nodes i).uid == uid then min (word - 1) (total + (nodes i).size)
    else total) 0

end Vnu.Vfs
