import Mathlib.Data.List.FinRange
import Mathlib.Logic.Function.Basic
import Mathlib.Tactic.NormNum

/-!
The process table: fork, spawn, exit, waitpid, fatal signals and the scheduler's slices. Slot 0 is
the scheduler, and `cur` has the CPU.
-/
namespace Vnu.Proc

open Function

abbrev maxProcs : ℕ := 8
abbrev nsig : ℕ := 32

scoped instance (priority := high) neZero_maxProcs : NeZero maxProcs := ⟨by decide⟩

scoped instance (priority := high) neZero_nsig : NeZero nsig := ⟨by decide⟩

def enoent : ℤ := 2
def esrch : ℤ := 3
def eintr : ℤ := 4
def enoexec : ℤ := 8
def echild : ℤ := 10
def eagain : ℤ := 11
def enomem : ℤ := 12
def einval : ℤ := 22

def sigkill : Fin nsig := 9
def sigalrm : Fin nsig := 14
def sigwinch : Fin nsig := 28
def sigDfl : ℕ := 0
def sigIgn : ℕ := 1

inductive PState where
  | unused | runnable | running | blocked | zombie
  deriving DecidableEq, Repr

structure Usage where
  uticks : UInt32 := 0
  sticks : UInt32 := 0
  nvcsw : UInt32 := 0
  nivcsw : UInt32 := 0

def Usage.add (a b : Usage) : Usage :=
  ⟨a.uticks + b.uticks, a.sticks + b.sticks, a.nvcsw + b.nvcsw, a.nivcsw + b.nivcsw⟩

structure Process where
  pid : ℤ := 0
  ppid : ℤ := 0
  state : PState := .unused
  exitCode : ℤ := 0
  pgdir : ℕ := 0
  uid : ℕ := 0
  gid : ℕ := 0
  coro : Bool := false
  waitChan : UInt32 := 0
  sleepUntil : UInt32 := 0
  /-- The handler of each signal. -/
  sigAction : Fin nsig → ℕ := fun _ => 0
  sigPending : Fin nsig → Bool := fun _ => false
  sigMask : Fin nsig → Bool := fun _ => false
  own : Usage := {}
  /-- What the children that ended had used. -/
  kids : Usage := {}
  /-- The `waitpid` call the process sleeps in. -/
  parked : Option (ℤ × ℤ) := none

structure Sys where
  table : Fin maxProcs → Process
  cur : Fin maxProcs := 0
  nextPid : ℤ := 1
  consoleSession : Bool := false
  /-- The slot init lives in, none while no init was spawned. -/
  initSlot : Option (Fin maxProcs) := none
  jiffies : UInt32 := 0

def boot : Sys where
  table := fun i => if i = 0 then { state := .running } else {}

namespace Process

variable (p : Process)

def used : Bool := p.state != .unused

def live : Bool := p.state == .runnable || p.state == .running || p.state == .blocked

def ready (sig : Fin nsig) : Bool := sig != 0 && p.sigPending sig && !p.sigMask sig

def pendingDelivery : Option (Fin nsig) := (List.finRange nsig).find? p.ready

def awake : Process := { p with state := .runnable, waitChan := 0, sleepUntil := 0 }

end Process

namespace Sys

variable (s : Sys)

def modify (i : Fin maxProcs) (f : Process → Process) : Sys :=
  { s with table := update s.table i (f (s.table i)) }

def current : Process := s.table s.cur

def first (q : Process → Bool) : Option (Fin maxProcs) :=
  (List.finRange maxProcs).find? fun i => q (s.table i)

end Sys

def allocSlot (s : Sys) : Option (Fin maxProcs) := s.first fun p => !p.used

def waitZombieAny : UInt32 := 0x01000000

def waitChanOfChild (pid : ℤ) : UInt32 := waitZombieAny ||| UInt32.ofNat (pid % 65536).toNat

def wakeup (s : Sys) (chan : UInt32) : Sys :=
  { s with table := fun i =>
      let p := s.table i
      if i ≠ 0 ∧ p.state = .blocked ∧ p.waitChan = chan then p.awake else p }

def wakeupOne (s : Sys) (chan : UInt32) : Sys :=
  match (List.finRange maxProcs).find? fun i =>
      i != 0 && (s.table i).state == .blocked && (s.table i).waitChan == chan with
  | some i => s.modify i Process.awake
  | none => s

def wakeWaiterOf (s : Sys) (pid : ℤ) : Sys :=
  wakeup (wakeup s waitZombieAny) (waitChanOfChild pid)

/-- The end of `run_slice(i)`: the scheduler takes a corpse nobody else will ask for. -/
def sliceEnd (s : Sys) (i : Fin maxProcs) : Sys :=
  let s := { s with cur := 0 }
  if (s.table i).state = .zombie ∧ (s.table i).ppid = 0 then s.modify i fun _ => {} else s

def Usage.voluntary (u : Usage) : Usage := { u with nvcsw := u.nvcsw + 1 }

def Usage.involuntary (u : Usage) : Usage := { u with nivcsw := u.nivcsw + 1 }

def yieldCurrent (s : Sys) : Sys :=
  if s.current.coro then
    sliceEnd (s.modify s.cur fun p => { p with own := p.own.voluntary }) s.cur
  else s

def preempt (s : Sys) : Sys :=
  sliceEnd (s.modify s.cur fun p => { p with own := p.own.involuntary }) s.cur

def sleepOn (s : Sys) (chan untilJiffies : UInt32) : Sys :=
  if s.current.coro then
    yieldCurrent (s.modify s.cur fun p =>
      { p with state := .blocked, waitChan := chan, sleepUntil := untilJiffies })
  else s

def wakeTimed (s : Sys) : Sys :=
  { s with table := fun i =>
      let p := s.table i
      if i ≠ 0 ∧ p.state = .blocked ∧ p.sleepUntil ≠ 0 ∧
          (s.jiffies - p.sleepUntil).toNat < 2 ^ 31 then
        { p with state := .runnable, sleepUntil := 0 }
      else p }

def adopter (s : Sys) (dead : ℤ) : ℤ :=
  match s.initSlot with
  | none => 0
  | some k =>
    let p := s.table k
    if k ≠ 0 ∧ p.pid ≠ 0 ∧ p.pid ≠ dead ∧ p.live then p.pid else 0

def reparentOrphans (s : Sys) (dead : ℤ) : Sys :=
  { s with table := fun i =>
      let c := s.table i
      if i = 0 ∨ i = s.cur ∨ c.state = .unused ∨ c.ppid ≠ dead then c
      else if c.state = .zombie then {}
      else { c with ppid := adopter s dead } }

def payParent (s : Sys) : Sys :=
  let p := s.current
  if p.coro ∧ p.ppid ≠ 0 then
    match s.first fun par => par.coro && par.pid == p.ppid with
    | some j => s.modify j fun par => { par with kids := par.kids.add (p.own.add p.kids) }
    | none => s
  else s

def giveCpu (s : Sys) (i : Fin maxProcs) : Sys :=
  { s.modify i fun p => { p with state := .running } with cur := i }

def handOver (s : Sys) (ppid : ℤ) : Sys :=
  match s.first fun p => p.pid == ppid && (p.state == .runnable || p.state == .running) with
  | some i => giveCpu s i
  | none =>
    match s.first fun p => p.state == .runnable with
    | some i => giveCpu s i
    | none => giveCpu s 0

def sysExit (s : Sys) (status : ℤ) : Sys :=
  let me := s.cur
  let s := s.modify me fun p => { p with exitCode := status }
  let s := reparentOrphans s s.current.pid
  let s := payParent s
  let p := s.current
  if p.coro then
    let s := s.modify me fun p => { p with state := .zombie }
    sliceEnd (wakeWaiterOf s p.pid) me
  else if s.consoleSession ∧ p.ppid = 0 then
    let s := s.modify me fun p => { p with state := .unused }
    giveCpu { s with consoleSession := false } 0
  else handOver (s.modify me fun p => { p with state := .zombie }) p.ppid

def sysFork (s : Sys) (frame : Bool) (pgdir : ℕ) : ℤ × Sys :=
  let parent := s.current
  if !parent.coro ∨ parent.pgdir = 0 ∨ frame = false then (-eagain, s)
  else
    match allocSlot s with
    | none => (-enomem, s)
    | some slot =>
      if slot = 0 ∨ pgdir = 0 then (-enomem, s)
      else
        (s.nextPid,
          { s.modify slot fun _ =>
              { pid := s.nextPid, ppid := parent.pid, state := .runnable, uid := parent.uid,
                gid := parent.gid, pgdir := pgdir, coro := true } with nextPid := s.nextPid + 1 })

/-- `spawn`, with the page directory and the entry point (0 for none). Returns the slot too. -/
def sysSpawn (s : Sys) (found : Bool) (pgdir entry : ℕ) : ℤ × Option (Fin maxProcs) × Sys :=
  if found = false then (-enoent, none, s)
  else
    match allocSlot s with
    | none => (-enomem, none, s)
    | some slot =>
      if slot = 0 ∨ pgdir = 0 then (-enomem, none, s)
      else if entry = 0 then (-enoexec, none, s)
      else
        (s.nextPid, some slot,
          { s.modify slot fun _ =>
              { pid := s.nextPid, ppid := s.current.pid, state := .runnable, uid := s.current.uid,
                gid := s.current.gid, pgdir := pgdir, coro := true } with nextPid :=
                  s.nextPid + 1 })

inductive Answer where
  /-- The call returned, with what `*status` was set to. -/
  | ret (r : ℤ) (status : Option ℤ)
  /-- The caller gave the CPU up inside the call. -/
  | blocks
  /-- The caller is gone. -/
  | gone
  deriving DecidableEq, Repr

def Process.waitable (self pid : ℤ) (c : Process) : Bool :=
  c.state == .zombie && c.ppid == self && (pid == -1 || c.pid == pid)

def Process.childOf (self : ℤ) (c : Process) : Bool := c.pid != 0 && c.used && c.ppid == self

def sysWaitpid (s : Sys) (pid options : ℤ) : Answer × Sys :=
  let self := s.current.pid
  if s.current.pendingDelivery.isSome then (.ret (-eintr) none, s)
  else
    match s.first (Process.waitable self pid) with
    | some i =>
      (.ret (s.table i).pid (some (s.table i).exitCode), s.modify i fun _ => {})
    | none =>
      if (s.first (Process.childOf self)).isNone then (.ret (-echild) none, s)
      else if options ≠ 0 then (.ret 0 none, s)
      else if s.current.coro = false then (.ret (-echild) none, s)
      else
        let chan := if pid = -1 then waitZombieAny else waitChanOfChild pid
        (.blocks, sleepOn (s.modify s.cur fun p => { p with parked := some (pid, options) }) chan 0)

inductive Fate where
  | ignored | ends | handled
  deriving DecidableEq

def Process.fate (p : Process) (sig : Fin nsig) : Fate :=
  if sig = sigkill then .ends
  else if p.sigAction sig = sigIgn then .ignored
  else if p.sigAction sig = sigDfl then
    if sig = sigwinch then .ignored else .ends
  else .handled

def Process.raised (p : Process) (sig : Fin nsig) : Process :=
  { p with sigPending := update p.sigPending sig true }

def Process.signalled (p : Process) (sig : Fin nsig) : Process :=
  if p.state = .blocked then (p.raised sig).awake else p.raised sig

def endOther (s : Sys) (i : Fin maxProcs) (sig : Fin nsig) : Sys :=
  wakeWaiterOf (s.modify i fun p => { p with exitCode := 128 + sig, state := .zombie })
    (s.table i).pid

def signalSlot (s : Sys) (i : Fin maxProcs) (sig : Fin nsig) : Answer × Sys :=
  match (s.table i).fate sig with
  | .ignored => (.ret 0 none, s)
  | .ends => if i = s.cur then (.gone, sysExit s (128 + sig)) else (.ret 0 none, endOther s i sig)
  | .handled => (.ret 0 none, s.modify i fun p => p.signalled sig)

def signal? (sig : ℤ) : Option (Fin nsig) :=
  if h : 0 < sig ∧ sig.toNat < nsig then some ⟨sig.toNat, h.2⟩ else none

def signalKill (s : Sys) (pid sig : ℤ) : Answer × Sys :=
  match signal? sig with
  | none => (.ret (-einval) none, s)
  | some sig =>
    match s.first fun p => p.used && p.pid == pid with
    | some i => signalSlot s i sig
    | none => (.ret (-esrch) none, s)

def sysKill (s : Sys) (pid sig : ℤ) : Answer × Sys :=
  if sig = 0 then
    (.ret (if (s.first fun p => p.used && p.pid == pid).isSome then 0 else -esrch) none, s)
  else signalKill s pid sig

def sysSigraise (s : Sys) (sig : ℤ) : Answer × Sys :=
  match signal? sig with
  | none => (.ret (-einval) none, s)
  | some sig =>
    if sig = sigkill ∨ s.current.sigAction sig = sigDfl then (.gone, sysExit s (128 + sig))
    else (.ret 0 none, s.modify s.cur fun p => p.raised sig)

/-- The part of a timer tick that finds the alarm of the running process run out. -/
def alarmTick (s : Sys) : Answer × Sys :=
  let p := s.current
  if p.coro = false ∨ p.sigAction sigalrm = sigIgn then (.ret 0 none, s)
  else if p.sigAction sigalrm = sigDfl then (.gone, sysExit s (128 + sigalrm))
  else (.ret 0 none, s.modify s.cur fun p => p.raised sigalrm)

def sysSigaction (s : Sys) (sig : ℤ) (handler restorer : ℕ) : ℤ × Sys :=
  match signal? sig with
  | none => (-einval, s)
  | some sig =>
    if sig = sigkill ∨ sigIgn < handler ∧ restorer = 0 then (-einval, s)
    else (0, s.modify s.cur fun p =>
      { p with sigAction := update p.sigAction sig handler })

inductive How where
  | block | unblock | setmask

def sysSigprocmask (s : Sys) (how : How) (set : Fin nsig → Bool) : Sys :=
  let add := fun i => set i && i != sigkill
  s.modify s.cur fun p =>
    { p with sigMask := fun i =>
        match how with
        | .block => p.sigMask i || add i
        | .unblock => p.sigMask i && !add i
        | .setmask => add i }

/-- Delivery of a signal, or the return from its handler: the two words change. -/
def setSignals (s : Sys) (i : Fin maxProcs) (pending mask : Fin nsig → Bool) : Sys :=
  s.modify i fun p => { p with sigPending := pending, sigMask := mask }

/-- `run_slice(i)`: a process asleep in `waitpid` goes on with its loop. -/
def runSlice (s : Sys) (i : Fin maxProcs) : Answer × Sys :=
  if i = 0 ∨ (s.table i).coro = false ∨ (s.table i).state ≠ .runnable then (.ret 0 none, s)
  else
    let goOn := { s.modify i fun p => { p with parked := none, waitChan := 0, sleepUntil := 0 } with
      cur := i }
    match (s.table i).parked with
    | none => (.ret 0 none, goOn)
    | some (pid, options) => sysWaitpid goOn pid options

def initVacant (s : Sys) : Bool :=
  match s.initSlot with
  | none => true
  | some k => !(s.table k).used

def respawnInit (s : Sys) (found : Bool) (pgdir entry : ℕ) : ℤ × Sys :=
  if initVacant s then
    match sysSpawn s found pgdir entry with
    | (r, some slot, s) => (r, { s with initSlot := some slot })
    | (r, none, s) => (r, s)
  else (0, s)

inductive Call where
  | respawn (found : Bool) (pgdir entry : ℕ)
  | slice (i : Fin maxProcs)
  | wakeTimed
  | tick
  | deliver (i : Fin maxProcs) (pending mask : Fin nsig → Bool)
  | yield
  | preempt
  | sleep (chan untilJiffies : UInt32)
  | wakeup (chan : UInt32)
  | wakeupOne (chan : UInt32)
  | fork (frame : Bool) (pgdir : ℕ)
  | spawn (found : Bool) (pgdir entry : ℕ)
  | exit (status : ℤ)
  | waitpid (pid options : ℤ)
  | kill (pid sig : ℤ)
  | raise (sig : ℤ)
  | alarm
  | sigaction (sig : ℤ) (handler restorer : ℕ)
  | sigprocmask (how : How) (set : Fin nsig → Bool)

def Call.ofScheduler : Call → Bool
  | .respawn .. | .slice _ | .wakeTimed => true
  | _ => false

def Call.anytime : Call → Bool
  | .tick | .deliver .. => true
  | _ => false

def perform (s : Sys) : Call → Answer × Sys
  | .respawn found pgdir entry =>
    let r := respawnInit s found pgdir entry
    (.ret r.1 none, r.2)
  | .slice i => runSlice s i
  | .wakeTimed => (.ret 0 none, wakeTimed s)
  | .tick => (.ret 0 none, { s with jiffies := s.jiffies + 1 })
  | .deliver i pending mask => (.ret 0 none, setSignals s i pending mask)
  | .yield => (.ret 0 none, yieldCurrent s)
  | .preempt => (.ret 0 none, preempt s)
  | .sleep chan untilJiffies => (.blocks, sleepOn s chan untilJiffies)
  | .wakeup chan => (.ret 0 none, wakeup s chan)
  | .wakeupOne chan => (.ret 0 none, wakeupOne s chan)
  | .fork frame pgdir =>
    let r := sysFork s frame pgdir
    (.ret r.1 none, r.2)
  | .spawn found pgdir entry =>
    let r := sysSpawn s found pgdir entry
    (.ret r.1 none, r.2.2)
  | .exit status => (.gone, sysExit s status)
  | .waitpid pid options => sysWaitpid s pid options
  | .kill pid sig => sysKill s pid sig
  | .raise sig => sysSigraise s sig
  | .alarm => alarmTick s
  | .sigaction sig handler restorer =>
    let r := sysSigaction s sig handler restorer
    (.ret r.1 none, r.2)
  | .sigprocmask how set => (.ret 0 none, sysSigprocmask s how set)

/-- The scheduler steps while it has the CPU, the calls happen while a process has it. -/
def enabled (s : Sys) (c : Call) : Bool := c.anytime || c.ofScheduler == (s.cur == 0)

def step (s : Sys) (c : Call) : Answer × Sys :=
  if enabled s c then perform s c else (.ret 0 none, s)

def next (s : Sys) (c : Call) : Sys := (step s c).2

end Vnu.Proc
