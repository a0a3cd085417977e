import Vnu.Proc.Handlers

/-!
Signals that wait for a handler. Delivery gives up at the lowest signal if its action is not a
handler; such a signal keeps those behind it from being delivered.
-/
namespace Vnu.Proc

open Lib Function Option

variable {p : Process} {sig : Fin nsig}

variable {Ctx : Type} {h : Handling Ctx}

def Taken (h : Handling Ctx) (sig : Fin nsig) : Prop :=
  ∀ ctx, (h.deliverCommon ctx (some sig)).1 = some sig ∧
    (h.deliverCommon ctx (some sig)).2.proc.sigPending sig = false

def Handling.Served (h : Handling Ctx) : Prop := ∀ sig, h.proc.ready sig = true → Taken h sig

def Served (s : Option (Handling Ctx)) : Prop := ∀ h, s = some h → h.Served

def Handling.Heeds (h : Handling Ctx) : SigOp Ctx → Prop
  | .sigaction sig act => ∀ g a, signal? sig = some g → g ≠ sigkill → act = some a →
      h.proc.ready g = true → sigIgn < a.handler
  | .sigprocmask how set => ∀ new, set = some new → ∀ g, g ≠ 0 → h.proc.sigPending g = true →
      h.blocked how new g = false → sigIgn < h.handler g
  | .raise sig => ∀ g, signal? sig = some g → g ≠ sigkill → h.handler g = sigIgn →
      h.proc.sigMask g = true
  | .execve => ∀ g, h.proc.ready g = false
  | .sigreturn => h.frame ≠ none → ∀ g, g ≠ 0 → h.proc.sigPending g = true →
      h.savedMask g = false → sigIgn < h.handler g
  | .kill _ | .alarm | .deliver _ => True

def Heeds (s : Option (Handling Ctx)) (op : SigOp Ctx) : Prop := ∀ h, s = some h → h.Heeds op

structure Returns (h : Handling Ctx) : Prop where
  restorer : ∀ sig, sigIgn < h.handler sig → (h.rest sig).restorer ≠ 0
  coro : h.proc.coro = true

theorem ready_iff :
    p.ready sig = true ↔ sig ≠ 0 ∧ p.sigPending sig = true ∧ p.sigMask sig = false := by
  simp [Process.ready, and_assoc]

theorem taken_of_handler (hr : Returns h) (hsig : sigIgn < h.handler sig) : Taken h sig := by
  intro ctx
  have hgo : ¬ (h.handler sig ≤ sigIgn ∨ (h.rest sig).restorer = 0) :=
    not_or.mpr ⟨not_le.mpr hsig, hr.restorer sig hsig⟩
  have hrun : h.deliverCommon ctx (some sig) = (some sig, h.enter ctx sig) := if_neg hgo
  rw [hrun]
  exact ⟨rfl, update_self ..⟩

theorem deliverCommon_stuck (hsig : h.handler sig ≤ sigIgn) (ctx : Ctx) :
    h.deliverCommon ctx (some sig) = (none, h) := if_pos (.inl hsig)

section Step

variable [Inhabited Ctx]

theorem taken_iff (hr : Returns h) : Taken h sig ↔ sigIgn < h.handler sig := by
  refine ⟨fun htaken => ?_, taken_of_handler hr⟩
  by_contra hnot
  have hgot := (htaken default).1
  rw [deliverCommon_stuck (not_lt.mp hnot)] at hgot
  cases hgot

theorem served_iff (hr : Returns h) :
    h.Served ↔ ∀ sig, h.proc.ready sig = true → sigIgn < h.handler sig :=
  forall_congr' fun _ => imp_congr_right fun _ => taken_iff hr

structure Exact (h : Handling Ctx) (op : SigOp Ctx) (r : Option (Handling Ctx)) : Prop where
  returns : ∀ h', r = some h' → Returns h'
  served : Served r ↔ h.Heeds op

omit [Inhabited Ctx] in
theorem Exact.same (hr : Returns h) (hserved : h.Served) {op : SigOp Ctx} (hop : h.Heeds op) :
    Exact h op (some h) := by
  refine ⟨fun h' hh => some.inj hh ▸ hr, iff_of_true (fun h' hh => ?_) hop⟩
  exact some.inj hh ▸ hserved

omit [Inhabited Ctx] in
theorem Exact.ended {op : SigOp Ctx} (hop : h.Heeds op) : Exact h op none :=
  ⟨fun _ hh => (nomatch hh), iff_of_true (fun _ hh => (nomatch hh)) hop⟩

theorem Exact.moved {op : SigOp Ctx} {h' : Handling Ctx} (hr' : Returns h')
    (hiff : (∀ g, h'.proc.ready g = true → sigIgn < h'.handler g) ↔ h.Heeds op) :
    Exact h op (some h') := by
  refine ⟨fun k hk => some.inj hk ▸ hr', ?_⟩
  rw [← hiff, ← served_iff hr']
  exact ⟨fun hall => hall h' rfl, fun hserved k hk => some.inj hk ▸ hserved⟩

theorem Exact.pends (hr : Returns h) (hserved : h.Served) {op : SigOp Ctx} (hop : h.Heeds op)
    (hsig : sigIgn < h.handler sig)
    (haction : p.sigAction = h.proc.sigAction) (hcoro : p.coro = h.proc.coro)
    (hpending : p.sigPending = Function.update h.proc.sigPending sig true)
    (hmask : p.sigMask = h.proc.sigMask) : Exact h op (some { h with proc := p }) := by
  have hhandler : ∀ g, ({ h with proc := p } : Handling Ctx).handler g = h.handler g :=
    fun g => congrFun haction g
  refine Exact.moved ⟨fun g hg => hr.restorer g (hhandler g ▸ hg), hcoro.trans hr.coro⟩
    (iff_of_true (fun g hg => ?_) hop)
  rw [hhandler]
  by_cases hgs : g = sig
  · rw [hgs]
    exact hsig
  · refine (served_iff hr).mp hserved g ?_
    rw [ready_iff] at hg ⊢
    rw [hpending, hmask, update_of_ne hgs] at hg
    exact hg

theorem exact_sigaction (hr : Returns h) (hserved : h.Served) (sig : ℤ) (act : Option SigAction) :
    Exact h (.sigaction sig act) (h.perform (.sigaction sig act)) := by
  simp only [Handling.perform, Handling.rtSigaction]
  cases hsig : signal? sig with
  | none =>
    refine .same hr hserved fun g a hg => ?_
    rw [hsig] at hg
    cases hg
  | some g =>
    simp only
    split_ifs with hkill
    · refine .same hr hserved fun g' a hg hk => ?_
      rw [hsig] at hg
      exact absurd (some.inj hg ▸ hkill) hk
    cases act with
    | none => exact .same hr hserved fun _ _ _ _ ha => nomatch ha
    | some a =>
      simp only
      split_ifs with hbad
      · refine .same hr hserved fun g' a' _ _ ha _ => ?_
        rw [← some.inj ha]
        exact hbad.1
      refine .moved ⟨fun k hk => ?_, hr.coro⟩ ⟨fun hall g' a' hg _ ha hready => ?_, ?_⟩
      · unfold Handling.setAction Handling.handler at *
        by_cases hkg : k = g
        · subst hkg
          simp only [update_self] at hk ⊢
          exact fun hzero => hbad ⟨hk, hzero⟩
        · simp only [update_of_ne hkg] at hk ⊢
          exact hr.restorer k hk
      · obtain rfl := some.inj (hsig.symm.trans hg)
        obtain rfl := some.inj ha
        have hlt := hall g hready
        unfold Handling.setAction Handling.handler at hlt
        simpa using hlt
      · intro hop k hready
        unfold Handling.setAction Handling.handler
        by_cases hkg : k = g
        · subst hkg
          simp only [update_self]
          exact hop k a hsig hkill rfl hready
        · simp only [update_of_ne hkg]
          exact (served_iff hr).mp hserved k hready

theorem exact_sigprocmask (hr : Returns h) (hserved : h.Served) (how : How)
    (set : Option (Fin nsig → Bool)) :
    Exact h (.sigprocmask how set) (h.perform (.sigprocmask how set)) := by
  cases set with
  | none => exact .same hr hserved fun _ hset => nomatch hset
  | some set =>
    refine .moved ⟨hr.restorer, hr.coro⟩ ⟨fun hall new hset g hg hp hm => ?_, ?_⟩
    · obtain rfl := some.inj hset
      exact hall g (ready_iff.mpr ⟨hg, hp, hm⟩)
    · intro hop g hready
      obtain ⟨hg, hp, hm⟩ := ready_iff.mp hready
      exact hop set rfl g hg hp hm

omit [Inhabited Ctx] in
theorem handler_of_handled (hfate : h.proc.fate sig = .handled) : sigIgn < h.handler sig := by
  unfold Process.fate at hfate
  unfold Handling.handler
  split_ifs at hfate with hkill hign hdfl
  unfold sigIgn sigDfl at *
  omega

theorem exact_kill (hr : Returns h) (hserved : h.Served) (sig : ℤ) :
    Exact h (.kill sig) (h.perform (.kill sig)) := by
  simp only [Handling.perform]
  cases signal? sig with
  | none => exact .same hr hserved trivial
  | some g =>
    simp only [Handling.kill]
    cases hfate : h.proc.fate g with
    | ignored => exact .same hr hserved trivial
    | ends => exact .ended trivial
    | handled =>
      have hlt := handler_of_handled hfate
      have hop : h.Heeds (.kill sig) := trivial
      simp only [Process.signalled]
      split_ifs
      all_goals exact .pends hr hserved hop hlt rfl rfl rfl rfl

theorem exact_raise (hr : Returns h) (hserved : h.Served) (sig : ℤ) :
    Exact h (.raise sig) (h.perform (.raise sig)) := by
  simp only [Handling.perform]
  cases hsig : signal? sig with
  | none =>
    refine .same hr hserved fun g hg => ?_
    rw [hsig] at hg
    cases hg
  | some g =>
    have hop : (g ≠ sigkill → h.handler g = sigIgn → h.proc.sigMask g = true) ↔
        h.Heeds (.raise sig) := by
      refine ⟨fun hone k hk => ?_, fun hall => hall g hsig⟩
      obtain rfl := some.inj (hsig.symm.trans hk)
      exact hone
    simp only [Handling.sigraise]
    by_cases hkill : g = sigkill
    · rw [if_pos (.inl hkill)]
      exact .ended (hop.mp fun hne => absurd hkill hne)
    by_cases hdfl : h.handler g = sigDfl
    · rw [if_pos (.inr hdfl)]
      refine .ended (hop.mp fun _ hign => ?_)
      rw [hdfl] at hign
      exact absurd hign (by decide)
    rw [if_neg (not_or.mpr ⟨hkill, hdfl⟩)]
    by_cases hign : h.handler g = sigIgn
    · -- the signal is pending now, whether it can be delivered or not
      refine .moved ⟨hr.restorer, hr.coro⟩ ((Iff.trans ?_) hop)
      constructor
      · intro hall _ _
        by_contra hmask
        have hg : g ≠ 0 := by
          rintro rfl
          unfold signal? at hsig
          split_ifs at hsig with hrange
          have hzero := congrArg Fin.val (some.inj hsig)
          have hnat : sig.toNat = 0 := hzero
          omega
        have hlt := hall g (ready_iff.mpr
          ⟨hg, by simp [Handling.raised, Process.raised], Bool.eq_false_iff.mpr hmask⟩)
        have hsame : (h.raised g).handler g = h.handler g := rfl
        rw [hsame, hign] at hlt
        exact absurd hlt (lt_irrefl _)
      · intro hmask k hready
        obtain ⟨hk, hp, hm⟩ := ready_iff.mp hready
        have hm' : h.proc.sigMask k = false := hm
        have hkg : k ≠ g := by
          rintro rfl
          rw [hmask hkill hign] at hm'
          cases hm'
        refine (served_iff hr).mp hserved k (ready_iff.mpr ⟨hk, ?_, hm'⟩)
        simpa [Handling.raised, Process.raised, hkg] using hp
    · have hlt : sigIgn < h.handler g := by
        unfold sigIgn sigDfl at *
        omega
      exact .pends hr hserved (hop.mp fun _ h' => absurd h' hign) hlt rfl rfl rfl rfl

theorem exact_alarm (hr : Returns h) (hserved : h.Served) : Exact h .alarm (h.perform .alarm) := by
  have hop : h.Heeds .alarm := trivial
  simp only [Handling.perform, Handling.alarm]
  split_ifs with hign hdfl
  · exact .same hr hserved hop
  · exact .ended hop
  · have hlt : sigIgn < h.handler sigalrm := by
      unfold sigIgn sigDfl at *
      omega
    exact .pends hr hserved hop hlt rfl rfl rfl rfl

theorem exact_execve (hr : Returns h) : Exact h .execve (h.perform .execve) := by
  have hnone : ∀ g, ¬ sigIgn < h.execve.handler g := by
    intro g
    unfold Handling.execve Handling.handler
    dsimp only
    split_ifs
    · exact lt_irrefl _
    · decide
  refine .moved ⟨fun g hg => absurd hg (hnone g), hr.coro⟩ ⟨fun hall g => ?_, ?_⟩
  · by_contra hready
    exact hnone g (hall g (Bool.not_eq_false _ ▸ hready))
  · intro hop g hready
    rw [show h.execve.proc.ready g = h.proc.ready g from rfl, hop g] at hready
    cases hready

/-- A delivery clears the bit of the signal it hands over, and blocks more. -/
theorem exact_deliver (hr : Returns h) (hserved : h.Served) (ctx : Ctx) :
    Exact h (.deliver ctx) (h.perform (.deliver ctx)) := by
  have hop : h.Heeds (.deliver ctx) := trivial
  have hall := (served_iff hr).mp hserved
  simp only [Handling.perform, Handling.deliverPending, if_pos hr.coro]
  cases hfirst : h.proc.pendingDelivery with
  | none => exact .same hr hserved hop
  | some sig =>
    have hready : h.proc.ready sig = true := List.find?_some hfirst
    have hgo : ¬ (h.handler sig ≤ sigIgn ∨ (h.rest sig).restorer = 0) :=
      not_or.mpr ⟨not_le.mpr (hall sig hready), hr.restorer sig (hall sig hready)⟩
    have hrun : h.deliverCommon ctx (some sig) = (some sig, h.enter ctx sig) := if_neg hgo
    have hother : ∀ g, g ≠ sig → (h.enter ctx sig).handler g = h.handler g ∧
        (h.enter ctx sig).rest g = h.rest g := by
      intro g hg
      unfold Handling.enter Handling.handler
      dsimp only
      split_ifs
      · rw [update_of_ne hg, update_of_ne hg]
        exact ⟨rfl, rfl⟩
      · exact ⟨rfl, rfl⟩
    have hself : sigIgn < (h.enter ctx sig).handler sig →
        ((h.enter ctx sig).rest sig).restorer ≠ 0 := by
      unfold Handling.enter Handling.handler
      dsimp only
      split_ifs
      · rw [update_self]
        exact fun hlt => absurd hlt (by decide)
      · exact hr.restorer sig
    rw [hrun]
    refine .moved ⟨fun g hg => ?_, hr.coro⟩ (iff_of_true (fun g hg => ?_) hop)
    · by_cases hgs : g = sig
      · rw [hgs] at hg ⊢
        exact hself hg
      · rw [(hother g hgs).1] at hg
        rw [(hother g hgs).2]
        exact hr.restorer g hg
    · obtain ⟨hne, hp, hm⟩ := ready_iff.mp hg
      have hgs : g ≠ sig := by
        rintro rfl
        rw [show (h.enter ctx g).proc.sigPending g = false from update_self ..] at hp
        cases hp
      rw [(hother g hgs).1]
      refine hall g (ready_iff.mpr ⟨hne, ?_, ?_⟩)
      · simpa [Handling.enter, update_of_ne hgs] using hp
      · simp only [Handling.enter, Bool.or_eq_false_iff] at hm
        exact hm.1.1

theorem exact_sigreturn (hr : Returns h) (hserved : h.Served) :
    Exact h .sigreturn (h.perform .sigreturn) := by
  simp only [Handling.perform, Handling.rtSigreturn]
  cases hframe : h.frame with
  | none => exact .same hr hserved fun hne => absurd hframe hne
  | some ctx =>
    refine .moved ⟨hr.restorer, hr.coro⟩ ⟨fun hall _ g hg hp hm => ?_, ?_⟩
    · exact hall g (ready_iff.mpr ⟨hg, hp, hm⟩)
    · intro hop g hready
      obtain ⟨hg, hp, hm⟩ := ready_iff.mp hready
      exact hop (by rw [hframe]; simp) g hg hp hm

theorem exact_perform (hr : Returns h) (hserved : h.Served) (op : SigOp Ctx) :
    Exact h op (h.perform op) := by
  cases op with
  | sigaction sig act => exact exact_sigaction hr hserved sig act
  | sigprocmask how set => exact exact_sigprocmask hr hserved how set
  | kill sig => exact exact_kill hr hserved sig
  | raise sig => exact exact_raise hr hserved sig
  | alarm => exact exact_alarm hr hserved
  | execve => exact exact_execve hr
  | deliver ctx => exact exact_deliver hr hserved ctx
  | sigreturn => exact exact_sigreturn hr hserved

end Step

theorem served_fresh : (Handling.fresh : Handling Ctx).Served := by
  intro sig hready
  have hp : (Handling.fresh : Handling Ctx).proc.sigPending sig = true := (ready_iff.mp hready).2.1
  cases hp

theorem returns_fresh : Returns (Handling.fresh : Handling Ctx) :=
  ⟨fun _ hlt => absurd hlt (Nat.not_lt_zero sigIgn), rfl⟩

/-- Every signal that is pending and not blocked is one that a return to user mode delivers, exactly
when no step leaves one behind that has no handler. -/
theorem signals_served_iff [Inhabited Ctx] (ops : List (SigOp Ctx)) :
    Always sigStep Served (some Handling.fresh) ops ↔
      Throughout sigStep Heeds (some Handling.fresh) ops := by
  have hexact : ∀ (s : Option (Handling Ctx)) (op : SigOp Ctx),
      (∀ h, s = some h → Returns h ∧ h.Served) →
      (Served (sigStep s op) ↔ Heeds s op) ∧ ∀ h, sigStep s op = some h → Returns h := by
    intro s op hs
    cases s with
    | none => exact ⟨iff_of_true (fun _ hh => nomatch hh) (fun _ hh => nomatch hh),
        fun _ hh => nomatch hh⟩
    | some h =>
      obtain ⟨hreturns, hserved⟩ := exact_perform (hs h rfl).1 (hs h rfl).2 op
      refine ⟨hserved.trans ⟨fun hop k hk => ?_, fun hop => hop h rfl⟩, hreturns⟩
      exact some.inj hk ▸ hop
  refine always_iff_throughout_of (Q := fun s => ∀ h, s = some h → Returns h ∧ h.Served)
    (fun s hs h hh => (hs h hh).2)
    (fun s op hs hnext h hh => ⟨(hexact s op hs).2 h hh, hnext h hh⟩)
    (fun s op hs => (hexact s op hs).1) ?_ ops
  intro h hh
  obtain rfl := some.inj hh
  exact ⟨returns_fresh, served_fresh⟩

/-- A process takes the default action back: the signal stays, and `SIGUSR2` waits behind it. -/
theorem defaulted_signal_stuck :
    (after sigStep (some (Handling.fresh : Handling ℕ))
      [.sigaction 10 (some { handler := 4096, restorer := 8192 }),
        .sigaction 12 (some { handler := 4096, restorer := 8192 }), .kill 10, .kill 12,
        .sigaction 10 (some {})]).map (fun h =>
          (h.proc.pendingDelivery, (h.deliverPending 0).1, (h.deliverPending 0).2.proc.ready 10,
            (h.deliverPending 0).2.proc.ready 12)) =
      some (some 10, none, true, true) := by
  decide +kernel

end Vnu.Proc
