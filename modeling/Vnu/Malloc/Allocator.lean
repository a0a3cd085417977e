import Mathlib.Logic.Function.Basic
import Mathlib.Tactic.NormNum

/-!
The heap allocator of vlibc on the 32-bit target, modulo `2 ^ 32`. A loop answers `none` when its
fuel runs out, so a call terminates exactly when some fuel gives an answer.
-/
namespace Vnu.Malloc

open Function

/-- The header in front of every payload: 12 bytes on i386. -/
structure Block where
  size : ℕ
  next : ℕ
  free : Bool

abbrev Mem := ℕ → Block

def blockSize : ℕ := 12
def minAlloc : ℕ := 16
def heapLump : ℕ := 1024 * 1024

structure Kernel where
  brk : ℕ
  asked : ℕ
  refused : ℕ

def brkMin : ℕ := 0x03000000
def brkMax : ℕ := 0x03800000
def enomem : ℕ := 12

def pageUp (n : ℕ) : ℕ := (n + 4095) / 4096 * 4096

def Kernel.refuse (kn : Kernel) : ℕ × Kernel :=
  (2 ^ 32 - enomem, { kn with refused := kn.refused + 1 })

/-- `frames i` says whether the i-th request for new pages can be served. -/
def brkSet (frames : ℕ → Bool) (requested : ℕ) (kn : Kernel) : ℕ × Kernel :=
  if brkMax < requested then kn.refuse
  else if kn.brk < requested ∧ pageUp (kn.brk - brkMin) < pageUp (requested - brkMin) then
    if frames kn.asked then
      (requested, { kn with brk := requested, asked := kn.asked + 1 })
    else { kn with asked := kn.asked + 1 }.refuse
  else (requested, { kn with brk := requested })

def sysBrk (frames : ℕ → Bool) (req : ℕ) (kn : Kernel) : ℕ × Kernel :=
  if req = 0 then (kn.brk, kn)
  else if req < brkMin ∨ brkMax < req then kn.refuse
  else brkSet frames req kn

structure Heap where
  start : ℕ
  mem : Mem
  kern : Kernel

/-- A process that has not allocated yet. The memory below the break is unknown. -/
def Heap.fresh (mem : Mem) : Heap := ⟨0, mem, ⟨brkMin, 0, 0⟩⟩

def growTo (need : ℕ) : ℕ → ℕ → Option ℕ
  | 0, _ => none
  | fuel + 1, grow =>
      if grow < (need + blockSize + minAlloc) % 2 ^ 32 then
        growTo need fuel (grow * 2 % 2 ^ 32)
      else some grow

def lastBlock (mem : Mem) : ℕ → ℕ → Option ℕ
  | 0, _ => none
  | fuel + 1, c => if (mem c).next = 0 then some c else lastBlock mem fuel (mem c).next

def setNext (mem : Mem) (c n : ℕ) : Mem :=
  update mem c { mem c with next := n }

def appendLump (fuel cur grow : ℕ) (h : Heap) : Option Heap :=
  let b : Block := ⟨(grow + 2 ^ 32 - blockSize) % 2 ^ 32, 0, true⟩
  let mem := update h.mem cur b
  if h.start = 0 then some { h with start := cur, mem := mem }
  else (lastBlock mem fuel h.start).map fun c => { h with mem := setNext mem c cur }

def moreHeap (frames : ℕ → Bool) (fuel need : ℕ) (h : Heap) : Option (Bool × Heap) :=
  let (cur, kn) := sysBrk frames 0 h.kern
  if cur = 2 ^ 32 - 1 then some (false, { h with kern := kn })
  else
    (growTo need fuel heapLump).bind fun grow =>
      let want := (cur + grow) % 2 ^ 32
      let (got, kn) := sysBrk frames want kn
      if got ≠ want then some (false, { h with kern := kn })
      else (appendLump fuel cur grow { h with kern := kn }).map fun h => (true, h)

def mergeNext (mem : Mem) (b : ℕ) : Mem :=
  let c := (mem b).next
  update mem b
    { mem b with size := ((mem b).size + (blockSize + (mem c).size)) % 2 ^ 32, next :=
    (mem c).next }

def coalesceFrom : ℕ → ℕ → Mem → Option Mem
  | 0, _, _ => none
  | fuel + 1, b, mem =>
      if b = 0 ∨ (mem b).next = 0 then some mem
      else if (mem b).free && (mem (mem b).next).free then
        coalesceFrom fuel b (mergeNext mem b)
      else coalesceFrom fuel (mem b).next mem

def coalesce (fuel : ℕ) (h : Heap) : Option Heap :=
  (coalesceFrom fuel h.start h.mem).map fun mem => { h with mem := mem }

def findFrom (mem : Mem) (size : ℕ) : ℕ → ℕ → Option ℕ
  | 0, _ => none
  | fuel + 1, c =>
      if c = 0 then some 0
      else if (mem c).free && decide (size ≤ (mem c).size) then some c
      else findFrom mem size fuel (mem c).next

def findBlock (fuel size : ℕ) (h : Heap) : Option ℕ := findFrom h.mem size fuel h.start

def splitBlock (mem : Mem) (b size : ℕ) : Mem :=
  let rest := (b + blockSize + size) % 2 ^ 32
  let tail : Block := ⟨((mem b).size + 2 ^ 32 - size - blockSize) % 2 ^ 32, (mem b).next, true⟩
  update (update mem rest tail) b ⟨size, rest, (mem b).free⟩

def takeMem (mem : Mem) (b size : ℕ) : Mem :=
  let mem := if (size + blockSize + minAlloc) % 2 ^ 32 < (mem b).size
    then splitBlock mem b size else mem
  update mem b { mem b with free := false }

def take (b size : ℕ) (h : Heap) : ℕ × Heap :=
  ((b + blockSize) % 2 ^ 32, { h with mem := takeMem h.mem b size })

def mallocLoop (frames : ℕ → Bool) (size : ℕ) : ℕ → Bool → Heap → Option (ℕ × Heap)
  | 0, _, _ => none
  | fuel + 1, coalesced, h =>
      (findBlock (fuel + 1) size h).bind fun block =>
        if block ≠ 0 then some (take block size h)
        else if coalesced = false then
          (coalesce (fuel + 1) h).bind fun h => mallocLoop frames size fuel true h
        else
          (moreHeap frames (fuel + 1) size h).bind fun (ok, h) =>
            if ok then mallocLoop frames size fuel false h else some (0, h)

def roundUp8 (n : ℕ) : ℕ := (n + 7) % 2 ^ 32 / 8 * 8

def malloc (frames : ℕ → Bool) (fuel n : ℕ) (h : Heap) : Option (ℕ × Heap) :=
  if n = 0 then some (0, h) else mallocLoop frames (roundUp8 n) fuel false h

def free (ptr : ℕ) (h : Heap) : Heap :=
  if ptr = 0 then h
  else
    let b := (ptr + 2 ^ 32 - blockSize) % 2 ^ 32
    { h with mem := update h.mem b { h.mem b with free := true } }

end Vnu.Malloc
