import Vnu.Proc.Handlers

/-!
Handlers that interrupt handlers. The process has room for one context; once the handler on top has
returned, the one below has nothing to return to.
-/
namespace Vnu.Proc

open Lib Option List

variable {Ctx : Type}

/-- What was in force when a handler was entered, and whether it was interrupted. -/
structure Entry (Ctx : Type) where
  ctx : Ctx
  mask : Fin nsig → Bool
  interrupted : Bool

structure Nest (Ctx : Type) where
  now : Option (Handling Ctx)
  /-- The handlers that are running, the innermost first. -/
  running : List (Entry Ctx)

def Entry.cut (e : Entry Ctx) : Entry Ctx := { e with interrupted := true }

def Handling.running (h : Handling Ctx) (es : List (Entry Ctx)) : SigOp Ctx → List (Entry Ctx)
  | .deliver ctx =>
    if (h.deliverPending ctx).1.isSome then ⟨ctx, h.proc.sigMask, false⟩ :: es.map Entry.cut
    else es
  | .sigreturn => es.tail
  | .execve => []
  | _ => es

def Nest.step (n : Nest Ctx) (op : SigOp Ctx) : Nest Ctx where
  now := sigStep n.now op
  running :=
    match n.now with
    | none => n.running
    | some h => h.running n.running op

def Nest.fresh : Nest Ctx := ⟨some Handling.fresh, []⟩

def Restores (n : Nest Ctx) (op : SigOp Ctx) : Prop :=
  ∀ h e es, n.now = some h → op = .sigreturn → n.running = e :: es →
    h.rtSigreturn.1 = some e.ctx ∧ h.rtSigreturn.2.proc.sigMask = e.mask

def Undisturbed (n : Nest Ctx) (op : SigOp Ctx) : Prop :=
  ∀ h e es, n.now = some h → op = .sigreturn → n.running = e :: es → e.interrupted = false

/-- The one place belongs to the innermost handler, if that was not interrupted. -/
def Handling.Holds (h : Handling Ctx) : List (Entry Ctx) → Prop
  | [] => h.frame = none
  | e :: es =>
    (if e.interrupted then h.frame = none else h.frame = some e.ctx ∧ h.savedMask = e.mask) ∧
      ∀ e' ∈ es, e'.interrupted = true

def Nest.Holds (n : Nest Ctx) : Prop := ∀ h, n.now = some h → h.Holds n.running

theorem Handling.Holds.congr {h h' : Handling Ctx} {es : List (Entry Ctx)} (hh : h.Holds es)
    (hframe : h'.frame = h.frame) (hsaved : h'.savedMask = h.savedMask) : h'.Holds es := by
  cases es with
  | nil => exact hframe.trans hh
  | cons e es =>
    unfold Handling.Holds
    rw [hframe, hsaved]
    exact hh

theorem Handling.Holds.of_empty {h : Handling Ctx} {es : List (Entry Ctx)}
    (hframe : h.frame = none) (hes : ∀ e ∈ es, e.interrupted = true) : h.Holds es := by
  cases es with
  | nil => exact hframe
  | cons e es =>
    refine ⟨?_, fun e' he' => hes e' (mem_cons_of_mem _ he')⟩
    rw [if_pos (hes e mem_cons_self)]
    exact hframe

theorem Handling.Holds.tail {h : Handling Ctx} {es : List (Entry Ctx)} (hh : h.Holds es) :
    ∀ e ∈ es.tail, e.interrupted = true := by
  cases es with
  | nil => exact fun _ he => nomatch he
  | cons e es => exact hh.2

theorem frame_rtSigaction (h : Handling Ctx) (sig : ℤ) (act : Option SigAction) :
    (h.rtSigaction sig act).2.2.frame = h.frame ∧
      (h.rtSigaction sig act).2.2.savedMask = h.savedMask := by
  unfold Handling.rtSigaction
  cases signal? sig with
  | none => exact ⟨rfl, rfl⟩
  | some g =>
    simp only
    split_ifs
    · exact ⟨rfl, rfl⟩
    cases act with
    | none => exact ⟨rfl, rfl⟩
    | some a =>
      simp only
      split_ifs <;> exact ⟨rfl, rfl⟩

theorem holds_kill {h h' : Handling Ctx} {es : List (Entry Ctx)} (hh : h.Holds es)
    {sig : Fin nsig} (hrun : h.kill sig = some h') : h'.Holds es := by
  unfold Handling.kill at hrun
  cases hfate : h.proc.fate sig with
  | ignored =>
    rw [hfate] at hrun
    exact some.inj hrun ▸ hh
  | ends =>
    rw [hfate] at hrun
    cases hrun
  | handled =>
    rw [hfate] at hrun
    obtain rfl := some.inj hrun
    exact hh.congr rfl rfl

theorem holds_sigraise {h h' : Handling Ctx} {es : List (Entry Ctx)} (hh : h.Holds es)
    {sig : Fin nsig} (hrun : h.sigraise sig = some h') : h'.Holds es := by
  unfold Handling.sigraise at hrun
  split_ifs at hrun
  obtain rfl := some.inj hrun
  exact hh.congr rfl rfl

theorem holds_deliver {h : Handling Ctx} {es : List (Entry Ctx)} (hh : h.Holds es) (ctx : Ctx) :
    (h.deliverPending ctx).2.Holds (h.running es (.deliver ctx)) := by
  have hcases : h.deliverPending ctx = (none, h) ∨
      ∃ sig, h.deliverPending ctx = (some sig, h.enter ctx sig) := by
    unfold Handling.deliverPending Handling.deliverCommon
    split_ifs
    · cases h.proc.pendingDelivery with
      | none => exact .inl rfl
      | some sig =>
        simp only
        split_ifs
        · exact .inl rfl
        · exact .inr ⟨sig, rfl⟩
    · exact .inl rfl
  rcases hcases with hrun | ⟨sig, hrun⟩
  · simp only [Handling.running, hrun]
    exact hh
  · simp only [Handling.running, hrun]
    refine ⟨⟨rfl, rfl⟩, fun e he => ?_⟩
    obtain ⟨e₀, -, rfl⟩ := mem_map.mp he
    rfl

theorem holds_sigreturn {h : Handling Ctx} {es : List (Entry Ctx)} (hh : h.Holds es) :
    h.rtSigreturn.2.Holds es.tail := by
  apply Handling.Holds.of_empty _ hh.tail
  unfold Handling.rtSigreturn
  cases hframe : h.frame with
  | none => exact hframe
  | some ctx => rfl

/-- A second handler overwrites the one place for an interrupted context. -/
theorem holds_perform {h h' : Handling Ctx} {es : List (Entry Ctx)} (hh : h.Holds es)
    {op : SigOp Ctx} (hrun : h.perform op = some h') : h'.Holds (h.running es op) := by
  cases op with
  | sigaction sig act =>
    obtain rfl := some.inj hrun
    obtain ⟨hframe, hsaved⟩ := frame_rtSigaction h sig act
    exact hh.congr hframe hsaved
  | sigprocmask how set =>
    obtain rfl := some.inj hrun
    cases set <;> exact hh.congr rfl rfl
  | kill sig =>
    simp only [Handling.perform] at hrun
    cases hsig : signal? sig with
    | none =>
      rw [hsig] at hrun
      exact some.inj hrun ▸ hh
    | some g =>
      rw [hsig] at hrun
      exact holds_kill hh hrun
  | raise sig =>
    simp only [Handling.perform] at hrun
    cases hsig : signal? sig with
    | none =>
      rw [hsig] at hrun
      exact some.inj hrun ▸ hh
    | some g =>
      rw [hsig] at hrun
      exact holds_sigraise hh hrun
  | alarm =>
    simp only [Handling.perform, Handling.alarm] at hrun
    split_ifs at hrun
    · exact some.inj hrun ▸ hh
    · obtain rfl := some.inj hrun
      exact hh.congr rfl rfl
  | execve =>
    obtain rfl := some.inj hrun
    rfl
  | deliver ctx =>
    obtain rfl := some.inj hrun
    exact holds_deliver hh ctx
  | sigreturn =>
    obtain rfl := some.inj hrun
    exact holds_sigreturn hh

theorem holds_step {n : Nest Ctx} (hn : n.Holds) (op : SigOp Ctx) : (n.step op).Holds := by
  intro h' hrun
  unfold Nest.step at hrun ⊢
  cases hnow : n.now with
  | none =>
    simp only [hnow] at hrun
    cases hrun
  | some h =>
    simp only [hnow] at hrun
    exact holds_perform (hn h hnow) hrun

theorem restores_iff {n : Nest Ctx} (hn : n.Holds) (op : SigOp Ctx) :
    Restores n op ↔ Undisturbed n op := by
  refine forall_congr' fun h => forall_congr' fun e => forall_congr' fun es =>
    forall_congr' fun hnow => forall_congr' fun _ => forall_congr' fun hes => ?_
  have hh := hn h hnow
  rw [hes] at hh
  cases hcut : e.interrupted with
  | true =>
    have hframe : h.frame = none := by simpa [hcut] using hh.1
    refine iff_of_false (fun hback => ?_) Bool.noConfusion
    unfold Handling.rtSigreturn at hback
    rw [hframe] at hback
    cases hback.1
  | false =>
    have hplace : h.frame = some e.ctx ∧ h.savedMask = e.mask := by
      simpa [hcut] using hh.1
    refine iff_of_true ?_ rfl
    unfold Handling.rtSigreturn
    rw [hplace.1]
    exact ⟨rfl, hplace.2⟩

/-- Every `sigreturn` restores the context and the mask its handler was entered with, exactly when
no handler returns that another had interrupted. -/
theorem sigreturns_restore_iff (ops : List (SigOp Ctx)) :
    Throughout Nest.step Restores Nest.fresh ops ↔
      Throughout Nest.step Undisturbed Nest.fresh ops := by
  have hfresh : (Nest.fresh : Nest Ctx).Holds := by
    intro h hh
    obtain rfl := some.inj hh
    rfl
  have hkeeps : ∀ (n : Nest Ctx) op, n.Holds → (n.step op).Holds := fun n op hn => holds_step hn op
  exact throughout_congr hkeeps (fun n op hn => restores_iff hn op) hfresh ops

/-- `SIGUSR2` interrupts the handler of `SIGUSR1`. When both have returned the process is not back
in context 1, and `SIGUSR1` is still blocked. -/
theorem outer_handler_not_restored :
    (after Nest.step (Nest.fresh : Nest ℕ)
      [.sigaction 10 (some { handler := 4096, restorer := 8192 }),
        .sigaction 12 (some { handler := 4096, restorer := 8192 }), .kill 10, .deliver 1,
        .kill 12, .deliver 2, .sigreturn]).now.map (fun h =>
          (h.rtSigreturn.1, h.rtSigreturn.2.proc.sigMask 10)) = some (none, true) ∧
    (after Nest.step (Nest.fresh : Nest ℕ)
      [.sigaction 10 (some { handler := 4096, restorer := 8192 }),
        .sigaction 12 (some { handler := 4096, restorer := 8192 }), .kill 10, .deliver 1,
        .kill 12, .deliver 2, .sigreturn]).running.map (fun e => (e.ctx, e.mask 10)) =
      [(1, false)] := by
  decide +kernel

end Vnu.Proc
