import Mathlib.Data.List.FinRange
import Mathlib.Logic.Function.Basic

/-!
The kernel's pipes and the descriptor tables that refer to them. Every call names the process that
makes it.
-/
namespace Vnu.Pipes

open Function List

def maxPipes : ℕ := 8
def maxFd : ℕ := 64
def maxTables : ℕ := 16
def bufSize : ℕ := 256

def enospc : ℤ := 28
def ebadf : ℤ := 9
def eagain : ℤ := 11
def epipe : ℤ := 32

structure Pipe where
  used : Bool
  data : ℕ → UInt8
  r : ℕ
  w : ℕ
  len : ℕ
  readers : ℤ
  writers : ℤ

def Pipe.empty : Pipe := ⟨false, fun _ => 0, 0, 0, 0, 0, 0⟩

structure Fd where
  used : Bool
  isPipe : Bool
  pipeId : Fin maxPipes
  writeEnd : Bool

def Fd.empty : Fd := ⟨false, false, ⟨0, by decide⟩, false⟩

structure Table where
  used : Bool
  pid : ℕ
  e : Fin maxFd → Fd

def Table.empty : Table := ⟨false, 0, fun _ => Fd.empty⟩

structure State where
  pipes : Fin maxPipes → Pipe
  tables : Fin maxTables → Table

def init : State := ⟨fun _ => Pipe.empty, fun _ => Table.empty⟩

namespace State

variable (s : State)

def setPipe (p : Fin maxPipes) (v : Pipe) : State :=
  { s with pipes := update s.pipes p v }

def setTable (i : Fin maxTables) (t : Table) : State :=
  { s with tables := update s.tables i t }

def setFd (i : Fin maxTables) (j : Fin maxFd) (v : Fd) : State :=
  s.setTable i { s.tables i with e := update (s.tables i).e j v }

end State

def allocIn (t : Table) : Option (Fin maxFd) :=
  (finRange maxFd).find? fun j => decide (3 ≤ j.val) && !(t.e j).used

def find (s : State) (pid : ℕ) : Option (Fin maxTables) :=
  (finRange maxTables).find? fun i => (s.tables i).used && decide ((s.tables i).pid = pid)

def freeTable (s : State) : Option (Fin maxTables) :=
  (finRange maxTables).find? fun i => !(s.tables i).used

def tableFor (s : State) (pid : ℕ) : Option (Fin maxTables) × State :=
  match find s pid with
  | some i => (some i, s)
  | none =>
    match freeTable s with
    | some i => (some i, s.setTable i { Table.empty with used := true, pid := pid })
    | none => (none, s)

def pipeFd (s : State) (pid : ℕ) (fd : ℤ) : Option (Fin maxTables × Fin maxFd) :=
  (find s pid).bind fun i =>
    if h : 0 ≤ fd ∧ fd.toNat < maxFd then
      let j : Fin maxFd := ⟨fd.toNat, h.2⟩
      if (s.tables i).e j |>.used then
        if (s.tables i).e j |>.isPipe then some (i, j) else none
      else none
    else none

def Pipe.count (p : Pipe) (fd : Fd) (d : ℤ) : Pipe :=
  if fd.writeEnd then { p with writers := p.writers + d } else { p with readers := p.readers + d }

def addRef (s : State) (fd : Fd) : State :=
  s.setPipe fd.pipeId ((s.pipes fd.pipeId).count fd 1)

def Pipe.retire (p : Pipe) : Pipe :=
  if p.readers ≤ 0 ∧ p.writers ≤ 0 then { p with used := false } else p

def dropFd (s : State) (i : Fin maxTables) (j : Fin maxFd) : State :=
  let fd := (s.tables i).e j
  (s.setFd i j Fd.empty).setPipe fd.pipeId ((s.pipes fd.pipeId).count fd (-1)).retire

def releaseLoop (i : Fin maxTables) : List (Fin maxFd) → State → State
  | [], s => s
  | j :: js, s => releaseLoop i js (if ((s.tables i).e j).used then dropFd s i j else s)

def release (s : State) (i : Fin maxTables) : State := releaseLoop i (finRange maxFd) s

def freePipe (s : State) : Option (Fin maxPipes) :=
  (finRange maxPipes).find? fun p => !(s.pipes p).used

def create (s : State) (pid : ℕ) : ℤ × ℕ × ℕ × State :=
  match freePipe s with
  | none => (-enospc, 0, 0, s)
  | some pi =>
    match tableFor s pid with
    | (none, s) => (-enospc, 0, 0, s)
    | (some i, s) =>
      match allocIn (s.tables i) with
      | none => (-enospc, 0, 0, s)
      | some rfd =>
        let s := s.setFd i rfd ⟨true, true, pi, false⟩
        match allocIn (s.tables i) with
        | none => (-enospc, 0, 0, s.setFd i rfd Fd.empty)
        | some wfd =>
          let s := s.setFd i wfd ⟨true, true, pi, true⟩
          (0, rfd, wfd, s.setPipe pi { Pipe.empty with used := true, readers := 1, writers := 1 })

def readLoop : ℕ → Pipe → List UInt8 × Pipe
  | 0, p => ([], p)
  | n + 1, p =>
    if 0 < p.len then
      let (rest, q) := readLoop n { p with r := (p.r + 1) % bufSize, len := p.len - 1 }
      (p.data p.r :: rest, q)
    else ([], p)

def readFd (s : State) (pid : ℕ) (fd : ℤ) (n : ℕ) : ℤ × List UInt8 × State :=
  match pipeFd s pid fd with
  | none => (-ebadf, [], s)
  | some (i, j) =>
    let e := (s.tables i).e j
    if e.writeEnd then (-ebadf, [], s)
    else
      let (out, p) := readLoop n (s.pipes e.pipeId)
      let s := s.setPipe e.pipeId p
      if out.length = 0 ∧ p.writers = 0 then (0, out, s)
      else if out.length = 0 then (-eagain, out, s)
      else (out.length, out, s)

def writeLoop : List UInt8 → Pipe → ℕ × Pipe
  | [], p => (0, p)
  | b :: bs, p =>
    if p.len < bufSize then
      let (put, q) := writeLoop bs
        { p with data := update p.data p.w b, w := (p.w + 1) % bufSize, len := p.len + 1 }
      (put + 1, q)
    else (0, p)

def writeFd (s : State) (pid : ℕ) (fd : ℤ) (buf : List UInt8) : ℤ × State :=
  match pipeFd s pid fd with
  | none => (-ebadf, s)
  | some (i, j) =>
    let e := (s.tables i).e j
    if e.writeEnd = false then (-ebadf, s)
    else if (s.pipes e.pipeId).readers = 0 then (-epipe, s)
    else
      let (put, p) := writeLoop buf (s.pipes e.pipeId)
      (put, s.setPipe e.pipeId p)

def closeFd (s : State) (pid : ℕ) (fd : ℤ) : ℤ × State :=
  match pipeFd s pid fd with
  | none => (-ebadf, s)
  | some (i, j) => (0, dropFd s i j)

def dupFd (s : State) (pid : ℕ) (oldfd : ℤ) : ℤ × State :=
  match pipeFd s pid oldfd with
  | none => (-ebadf, s)
  | some (i, j) =>
    match allocIn (s.tables i) with
    | none => (-enospc, s)
    | some n =>
      let fd := (s.tables i).e j
      (n.val, addRef (s.setFd i n fd) fd)

def dup2Fd (s : State) (pid : ℕ) (oldfd newfd : ℤ) : ℤ × State :=
  match pipeFd s pid oldfd with
  | none => (-ebadf, s)
  | some (i, j) =>
    if h : 0 ≤ newfd ∧ newfd.toNat < maxFd then
      if oldfd = newfd then (newfd, s)
      else
        let n : Fin maxFd := ⟨newfd.toNat, h.2⟩
        -- The target is closed first, as POSIX asks.
        let s := if ((s.tables i).e n).used ∧ ((s.tables i).e n).isPipe
          then (closeFd s pid newfd).2 else s
        let fd := (s.tables i).e j
        (newfd, addRef (s.setFd i n fd) fd)
    else (-ebadf, s)

def closeAllOf (s : State) (pid : ℕ) : State :=
  match find s pid with
  | none => s
  | some i => (release s i).setTable i Table.empty

def shareLoop (i : Fin maxTables) : List (Fin maxFd) → State → State
  | [], s => s
  | j :: js, s =>
    shareLoop i js (if ((s.tables i).e j).used then addRef s ((s.tables i).e j) else s)

def forkCopy (s : State) (pid child : ℕ) : State :=
  match find s pid with
  | none => s
  | some src =>
    match tableFor s child with
    | (none, s) => s
    | (some dst, s) =>
      let s := if (s.tables dst).used then release s dst else s
      shareLoop dst (finRange maxFd)
        (s.setTable dst { s.tables dst with e := (s.tables src).e })

end Vnu.Pipes
