import Vnu.Lib.Ring
import Vnu.Pipes.Refcount

/-!
Pipes as queues. The ring of a pipe holds the bytes that were accepted and not yet returned in the
current life of its slot.
-/
namespace Vnu.Pipes

open Lib.Ring List Function Nat

variable {p q : Pipe} {s s' : State}

structure RingOk (p : Pipe) : Prop where
  r_lt : p.r < bufSize
  len_le : p.len ≤ bufSize
  w_eq : p.w = (p.r + p.len) % bufSize

def Pipe.queue (p : Pipe) : List UInt8 := contents bufSize p.data p.r p.len

theorem queue_congr (h : q.ring = p.ring) : q.queue = p.queue := by
  simp only [Pipe.ring, Prod.mk.injEq] at h
  simp only [Pipe.queue, h]

theorem RingOk.congr (hp : RingOk p) (h : q.ring = p.ring) : RingOk q := by
  simp only [Pipe.ring, Prod.mk.injEq] at h
  obtain ⟨-, hr, hw, hlen⟩ := h
  exact ⟨hr ▸ hp.r_lt, hlen ▸ hp.len_le, by rw [hr, hw, hlen]; exact hp.w_eq⟩

inductive Call where
  | create (pid : ℕ)
  | read (pid : ℕ) (fd : ℤ) (n : ℕ)
  | write (pid : ℕ) (fd : ℤ) (buf : List UInt8)
  | close (pid : ℕ) (fd : ℤ)
  | dup (pid : ℕ) (oldfd : ℤ)
  | dup2 (pid : ℕ) (oldfd newfd : ℤ)
  | exit (pid : ℕ)
  | fork (pid child : ℕ)

def step (s : State) : Call → State
  | .create pid => (create s pid).2.2.2
  | .read pid fd n => (readFd s pid fd n).2.2
  | .write pid fd buf => (writeFd s pid fd buf).2
  | .close pid fd => (closeFd s pid fd).2
  | .dup pid oldfd => (dupFd s pid oldfd).2
  | .dup2 pid oldfd newfd => (dup2Fd s pid oldfd newfd).2
  | .exit pid => closeAllOf s pid
  | .fork pid child => forkCopy s pid child

def target (s : State) (pid : ℕ) (fd : ℤ) (w : Bool) : Option (Fin maxPipes) :=
  (pipeFd s pid fd).bind fun ij =>
    let e := (s.tables ij.1).e ij.2
    if e.writeEnd = w then some e.pipeId else none

/-- What went into and came out of a slot since it was last created. -/
structure Life where
  given : List UInt8
  taken : List UInt8

variable {h : Fin maxPipes → Life}

def record (s : State) (h : Fin maxPipes → Life) : Call → Fin maxPipes → Life
  | .create pid =>
    match freePipe s with
    | some p => if (create s pid).1 = 0 then update h p ⟨[], []⟩ else h
    | none => h
  | .read pid fd n =>
    match target s pid fd false with
    | some p =>
      update h p { h p with taken := (h p).taken ++ (readFd s pid fd n).2.1 }
    | none => h
  | .write pid fd buf =>
    match target s pid fd true with
    | some p => update h p
        { h p with given := (h p).given ++ buf.take (writeFd s pid fd buf).1.toNat }
    | none => h
  | _ => h

inductive Run : State → (Fin maxPipes → Life) → Prop
  | boot : Run init fun _ => ⟨[], []⟩
  | call {s : State} {h : Fin maxPipes → Life} : Run s h → ∀ c, Run (step s c) (record s h c)

structure Delivers (s : State) (h : Fin maxPipes → Life) : Prop where
  counted : Counted s
  ring : ∀ p, RingOk (s.pipes p)
  queue : ∀ p, (h p).given = (h p).taken ++ (s.pipes p).queue

theorem Delivers.update (hd : Delivers s h)
    (hc : Counted s') (p : Fin maxPipes) (q : Pipe) (l : Life)
    (hpipes : s'.pipes = update s.pipes p q) (hq : RingOk q)
    (hl : l.given = l.taken ++ q.queue) : Delivers s' (update h p l) := by
  refine ⟨hc, ?_, ?_⟩
  · intro p'
    rw [hpipes]
    by_cases hp : p' = p
    · subst hp
      simpa using hq
    · simpa [hp] using hd.ring p'
  · intro p'
    rw [hpipes]
    by_cases hp : p' = p
    · subst hp
      simpa using hl
    · simpa [hp] using hd.queue p'

theorem Delivers.keep (hd : Delivers s h) (hs' : Keeps s s') : Delivers s' h := by
  refine ⟨hs'.counted, fun p => (hd.ring p).congr (hs'.ring p), ?_⟩
  intro p
  rw [queue_congr (hs'.ring p)]
  exact hd.queue p

end Vnu.Pipes
