import Vnu.Lib.History
import Vnu.Proc.Table

/-!
The signals of one process with their handlers. The process keeps the context and the mask of one
interrupted program only.
-/
namespace Vnu.Proc

open Lib Function

def saNodefer : UInt32 := 0x40000000
def saResethand : UInt32 := 0x80000000

structure ActionRest where
  mask : Fin nsig → Bool := fun _ => false
  flags : UInt32 := 0
  restorer : ℕ := 0

structure SigAction extends ActionRest where
  handler : ℕ := 0

/-- A process, what the table leaves out of its signals, and the interrupted context (`sig_frame`).
-/
structure Handling (Ctx : Type) where
  proc : Process
  rest : Fin nsig → ActionRest := fun _ => {}
  savedMask : Fin nsig → Bool := fun _ => false
  frame : Option Ctx := none

variable {Ctx : Type}

namespace Handling

variable (h : Handling Ctx)

def handler (sig : Fin nsig) : ℕ := h.proc.sigAction sig

def action (sig : Fin nsig) : SigAction := { h.rest sig with handler := h.handler sig }

def setAction (sig : Fin nsig) (a : SigAction) : Handling Ctx :=
  { h with
    proc := { h.proc with sigAction := update h.proc.sigAction sig a.handler }
    rest := update h.rest sig a.toActionRest }

def rtSigaction (sig : ℤ) (act : Option SigAction) : ℤ × Option SigAction × Handling Ctx :=
  match signal? sig with
  | none => (-einval, none, h)
  | some sig =>
    if sig = sigkill then (-einval, none, h)
    else
      match act with
      | none => (0, some (h.action sig), h)
      | some a =>
        if sigIgn < a.handler ∧ a.restorer = 0 then (-einval, some (h.action sig), h)
        else
          (0, some (h.action sig),
            h.setAction sig { a with mask := fun i => a.mask i && i != sigkill })

def blocked (how : How) (set : Fin nsig → Bool) (i : Fin nsig) : Bool :=
  let add := set i && i != sigkill
  match how with
  | .block => h.proc.sigMask i || add
  | .unblock => h.proc.sigMask i && !add
  | .setmask => add

def rtSigprocmask (how : How) (set : Option (Fin nsig → Bool)) :
    (Fin nsig → Bool) × Handling Ctx :=
  match set with
  | none => (h.proc.sigMask, h)
  | some set => (h.proc.sigMask, { h with proc := { h.proc with sigMask := h.blocked how set } })

def enter (ctx : Ctx) (sig : Fin nsig) : Handling Ctx :=
  let a := h.rest sig
  let once := a.flags &&& saResethand != 0
  { proc :=
      { h.proc with
        sigPending := update h.proc.sigPending sig false
        sigMask := fun i =>
          h.proc.sigMask i || a.mask i || (a.flags &&& saNodefer == 0 && i == sig)
        sigAction :=
          if once then update h.proc.sigAction sig sigDfl else h.proc.sigAction }
    rest := if once then update h.rest sig { a with restorer := 0 } else h.rest
    savedMask := h.proc.sigMask
    frame := some ctx }

def deliverCommon (ctx : Ctx) : Option (Fin nsig) → Option (Fin nsig) × Handling Ctx
  | none => (none, h)
  | some sig =>
    if h.handler sig ≤ sigIgn ∨ (h.rest sig).restorer = 0 then (none, h)
    else (some sig, h.enter ctx sig)

/-- The way back to user mode, where no other switch of stacks is on its way. -/
def deliverPending (ctx : Ctx) : Option (Fin nsig) × Handling Ctx :=
  if h.proc.coro then h.deliverCommon ctx h.proc.pendingDelivery else (none, h)

/-- The context the process goes on in, none if the call returns to its caller. -/
def rtSigreturn : Option Ctx × Handling Ctx :=
  match h.frame with
  | none => (none, h)
  | some ctx =>
    (some ctx, { h with
        proc := { h.proc with sigMask := h.savedMask }
        savedMask := fun _ => false
        frame := none })

def raised (sig : Fin nsig) : Handling Ctx := { h with proc := h.proc.raised sig }

/-- A signal from `kill`; none if it ends the process. -/
def kill (sig : Fin nsig) : Option (Handling Ctx) :=
  match h.proc.fate sig with
  | .ignored => some h
  | .ends => none
  | .handled => some { h with proc := h.proc.signalled sig }

def sigraise (sig : Fin nsig) : Option (Handling Ctx) :=
  if sig = sigkill ∨ h.handler sig = sigDfl then none else some (h.raised sig)

def alarm : Option (Handling Ctx) :=
  if h.proc.coro = false ∨ h.handler sigalrm = sigIgn then some h
  else if h.handler sigalrm = sigDfl then none
  else some (h.raised sigalrm)

def execve : Handling Ctx :=
  { proc := { h.proc with sigAction := fun i => if h.handler i = sigIgn then sigIgn else 0 }
    rest := fun i => if h.handler i = sigIgn then h.rest i else {} }

end Handling

inductive SigOp (Ctx : Type) where
  | sigaction (sig : ℤ) (act : Option SigAction)
  | sigprocmask (how : How) (set : Option (Fin nsig → Bool))
  | kill (sig : ℤ)
  | raise (sig : ℤ)
  | alarm
  | execve
  | deliver (ctx : Ctx)
  | sigreturn

def Handling.perform (h : Handling Ctx) : SigOp Ctx → Option (Handling Ctx)
  | .sigaction sig act => some (h.rtSigaction sig act).2.2
  | .sigprocmask how set => some (h.rtSigprocmask how set).2
  | .kill sig =>
    match signal? sig with
    | none => some h
    | some sig => h.kill sig
  | .raise sig =>
    match signal? sig with
    | none => some h
    | some sig => h.sigraise sig
  | .alarm => h.alarm
  | .execve => some h.execve
  | .deliver ctx => some (h.deliverPending ctx).2
  | .sigreturn => some h.rtSigreturn.2

def sigStep (s : Option (Handling Ctx)) (op : SigOp Ctx) : Option (Handling Ctx) :=
  s.bind fun h => h.perform op

def Handling.fresh : Handling Ctx := { proc := { state := .runnable, coro := true } }

end Vnu.Proc
