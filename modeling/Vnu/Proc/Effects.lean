import Vnu.Proc.Views

/-!
What a step can do to parents and corpses: a birth, an exit, a corpse that is taken, or a signal
that ends another process.
-/
namespace Vnu.Proc

open Function

variable {s : Sys} {c : Call} {e : Core} {i : Fin maxProcs} {sig : Fin nsig}

def ending (s : Sys) : Call → Option (Fin maxProcs × Fin nsig)
  | .kill pid sig =>
    match signal? sig, s.first fun p => p.used && p.pid == pid with
    | some sig, some i =>
      if (s.table i).fate sig = .ends ∧ i ≠ s.cur ∧ s.cur ≠ 0 then some (i, sig) else none
    | _, _ => none
  | _ => none

/-- The status with which the caller of the call ends itself. -/
def ownEnd (s : Sys) : Call → Option ℤ
  | .exit status => some status
  | .kill pid sig =>
    match signal? sig, s.first fun p => p.used && p.pid == pid with
    | some sig, some i =>
      if (s.table i).fate sig = .ends ∧ i = s.cur then some (128 + sig) else none
    | _, _ => none
  | .raise sig => (signal? sig).bind fun sig =>
      if sig = sigkill ∨ s.current.sigAction sig = sigDfl then some (128 + sig) else none
  | .alarm =>
    if s.current.coro = true ∧ s.current.sigAction sigalrm = sigDfl then some (128 + sigalrm)
    else none
  | _ => none

def afterExit (s : Sys) (status : ℤ) (j : Fin maxProcs) : Option Core :=
  if j = s.cur then
    if s.current.ppid = 0 then none
    else some ⟨s.current.pid, s.current.ppid, some status, s.current.coro⟩
  else
    (view s j).bind fun e =>
      if j = 0 ∨ e.ppid ≠ s.current.pid then some e
      else if e.dead.isSome then none
      else some { e with ppid := adopter s s.current.pid }

def Answer.quiet : Answer → Bool
  | .ret _ none | .blocks => true
  | _ => false

inductive Effect (s : Sys) (c : Call) : Answer → Sys → Prop
  | same {a : Answer} {s' : Sys} (quiet : a.quiet = true)
      (spares : ending s c = none) (keeps : Same s s') (seated : Seated s') : Effect s c a s'
  | born {a : Answer} {s' : Sys} (i : Fin maxProcs) (quiet : a.quiet = true)
      (spares : ending s c = none) (other : i ≠ 0) (free : view s i = none)
      (view : view s' = update (view s) i (some ⟨s.nextPid, s.current.pid, none, true⟩))
      (next : s'.nextPid = s.nextPid + 1) (cur : s'.cur = s.cur) : Effect s c a s'
  | reaped {s' : Sys} (i : Fin maxProcs) (e : Core) (code : ℤ) (spares : ending s c = none)
      (corpse : view s i = some e) (dead : e.dead = some code) (asks : s'.cur ≠ 0)
      (parent : ∃ f, view s s'.cur = some f ∧ e.ppid = f.pid)
      (view : view s' = update (view s) i none) (next : s'.nextPid = s.nextPid)
      (seated : Seated s') : Effect s c (.ret e.pid (some code)) s'
  | ended {s' : Sys} (i : Fin maxProcs) (e : Core) (sig : Fin nsig)
      (hits : ending s c = some (i, sig)) (victim : view s i = some e) (other : i ≠ s.cur)
      (view : view s' = update (view s) i (some { e with dead := some (128 + sig) }))
      (next : s'.nextPid = s.nextPid) (cur : s'.cur = s.cur) : Effect s c (.ret 0 none) s'
  | exited {s' : Sys} (status : ℤ) (spares : ending s c = none) (alive : s.cur ≠ 0)
      (view : view s' = afterExit s status) (next : s'.nextPid = s.nextPid) (cur : s'.cur = 0) :
      Effect s c .gone s'

theorem sysWaitpid_effect {s₀ : Sys} (hsame : Same s₀ s)
    (hspares : ending s₀ c = none) (hcur : s.cur ≠ 0) (hseat : Seat (view s) s.cur)
    (pid options : ℤ) :
    Effect s₀ c (sysWaitpid s pid options).1 (sysWaitpid s pid options).2 := by
  rcases sysWaitpid_cases s pid options with
    ⟨-, hrun⟩ | ⟨-, ⟨i, hfound, hrun⟩ | ⟨-, ⟨-, hrun⟩ | ⟨-, ⟨-, hrun⟩ | ⟨-, -, hrun⟩⟩⟩⟩
  · rw [hrun]
    exact .same rfl hspares hsame (.inr hseat)
  · rw [hrun]
    have hwait := first_some hfound
    simp only [Process.waitable, Bool.and_eq_true, beq_iff_eq] at hwait
    have hne : s.cur ≠ i := by
      rintro rfl
      exact live_not_zombie (seat_live hseat).1 hwait.1.1
    obtain ⟨e, he, hrest⟩ := hseat
    have hview : view (s.modify i fun _ => {}) = update (view s) i none :=
      view_modify s i _
    have hparent : view s₀ s.cur = some e ∧ (s.table i).ppid = e.pid := by
      rw [← hsame.view]
      exact ⟨he, hwait.1.2.trans (core_fields he).1.symm⟩
    have hcorpse : view s₀ i = some ⟨(s.table i).pid, (s.table i).ppid,
        some (s.table i).exitCode, (s.table i).coro⟩ := by
      rw [← hsame.view]
      exact core_of_zombie hwait.1.1
    refine .reaped i _ _ hspares hcorpse rfl hcur ⟨e, hparent⟩ ?_ hsame.next (.inr ⟨e, ?_, hrest⟩)
    · rw [hview, hsame.view]
    · have hkeep : (s.modify i fun _ => {}).cur = s.cur := rfl
      rw [hview, hkeep, update_of_ne hne]
      exact he
  · rw [hrun]
    exact .same rfl hspares hsame (.inr hseat)
  · rw [hrun]
    exact .same rfl hspares hsame (.inr hseat)
  · obtain ⟨hmod, hseat'⟩ :=
      hseat.modify (f := fun p => { p with parked := some (pid, options) }) rfl
    obtain ⟨hsleep, hleft⟩ := sleepOn_same hseat'
      (if pid = -1 then waitZombieAny else waitChanOfChild pid) 0
    rw [hrun]
    exact .same rfl hspares ((hsame.trans hmod).trans hsleep) (.inl hleft)

theorem exitCode_same (status : ℤ) (hlive : s.current.live = true) :
    Same s (s.modify s.cur fun p => { p with exitCode := status }) := by
  apply Same.modify
  rw [core_of_live (p := s.table s.cur) hlive]
  exact core_of_live (p := { s.table s.cur with exitCode := status }) hlive

theorem payParent_same (s : Sys) : Same s (payParent s) ∧ (payParent s).cur = s.cur ∧
    ∀ i, ((payParent s).table i).exitCode = (s.table i).exitCode := by
  unfold payParent
  simp only
  split_ifs
  · cases s.first fun par => par.coro && par.pid == s.current.ppid with
    | none => exact ⟨Same.refl s, rfl, fun _ => rfl⟩
    | some j =>
      refine ⟨Same.modify rfl, rfl, fun i => ?_⟩
      by_cases h : i = j
      · subst h
        simp [Sys.modify]
      · simp [Sys.modify, h]
  · exact ⟨Same.refl s, rfl, fun _ => rfl⟩

theorem view_sliceEnd (s : Sys) (i : Fin maxProcs) :
    view (sliceEnd s i) =
      if (s.table i).state = .zombie ∧ (s.table i).ppid = 0 then update (view s) i none
      else view s := by
  unfold sliceEnd
  by_cases h : (s.table i).state = .zombie ∧ (s.table i).ppid = 0
  · simp only [h, and_self, if_true]
    exact view_modify { s with cur := 0 } i _
  · simp only [h]
    rfl

theorem sliceEnd_next {s : Sys} {i : Fin maxProcs} :
    (sliceEnd s i).nextPid = s.nextPid ∧ (sliceEnd s i).cur = 0 := by
  unfold sliceEnd
  simp only
  split_ifs <;> exact ⟨rfl, rfl⟩

theorem bury {me : Fin maxProcs} {code : ℤ} (hme : view s me = some e)
    (hdead : e.dead = some code) (pid : ℤ) :
    view (sliceEnd (wakeWaiterOf s pid) me) =
      if e.ppid = 0 then update (view s) me none else view s := by
  have hview := view_wakeWaiterOf s pid
  have hcore : ((wakeWaiterOf s pid).table me).core = some e := by
    rw [← hme, ← hview]
    rfl
  have hzombie := (core_dead hcore hdead).1
  have hppid := (core_fields hcore).2.1
  rw [view_sliceEnd, hview]
  simp only [hzombie, ← hppid, true_and]

/-- An exit makes a corpse of the caller, or nothing if the scheduler takes it at once. -/
theorem view_sysExit (hseat : Seat (view s) s.cur) (status : ℤ) :
    view (sysExit s status) = afterExit s status ∧ (sysExit s status).nextPid = s.nextPid ∧
      (sysExit s status).cur = 0 := by
  obtain ⟨hlive, hcoro⟩ := seat_live hseat
  let s₁ := s.modify s.cur fun p => { p with exitCode := status }
  let s₂ := reparentOrphans s₁ s₁.current.pid
  let s₃ := payParent s₂
  have h₁ : Same s s₁ := exitCode_same status hlive
  have hcur₁ : s₁.current = { s.current with exitCode := status } := by
    simp [s₁, Sys.current, Sys.modify]
  have hadopt : adopter s₁ s.current.pid = adopter s s.current.pid := by
    have hfields : ∀ i, (s₁.table i).pid = (s.table i).pid ∧
        (s₁.table i).live = (s.table i).live := by
      intro i
      by_cases h : i = s.cur
      · subst h
        simp [s₁, Sys.modify, Process.live]
      · simp [s₁, Sys.modify, h]
    have hinit : s₁.initSlot = s.initSlot := rfl
    exact adopter_congr hinit (fun i => (hfields i).1) (fun i => (hfields i).2) _
  have h₂ : ∀ j, view s₂ j = if j = s.cur then view s j
      else (view s j).bind fun e =>
        if j = 0 ∨ e.ppid ≠ s.current.pid then some e
        else if e.dead.isSome then none
        else some { e with ppid := adopter s s.current.pid } := by
    intro j
    have hdead : s₁.current.pid = s.current.pid := by rw [hcur₁]
    rw [view_reparentOrphans, h₁.view, hdead, hadopt]
    rfl
  obtain ⟨h₃, hcur₃, hcode₃⟩ := payParent_same s₂
  have hme : s₂.table s.cur = s₁.table s.cur := by
    have hkeep : s.cur = s₁.cur := rfl
    simp [s₂, reparentOrphans, hkeep]
  have hcore₃ : (s₃.table s.cur).core = some ⟨s.current.pid, s.current.ppid, none, true⟩ := by
    have hview : view s₃ s.cur = view s s.cur := by rw [h₃.view, h₂, if_pos rfl]
    rw [← hcoro]
    exact hview.trans (core_of_live hlive)
  have hcode : (s₃.table s.cur).exitCode = status := by
    rw [hcode₃, hme]
    simp [s₁, Sys.modify]
  obtain ⟨hpid, hppid, hcoro₃, -⟩ := core_fields hcore₃
  let s₄ := s₃.modify s.cur fun p => { p with state := .zombie }
  have h₄ : view s₄ = update (view s₃) s.cur
      (some ⟨s.current.pid, s.current.ppid, some status, s.current.coro⟩) := by
    rw [view_modify, core_of_zombie rfl]
    simp only [hcode, ← hpid, ← hppid, ← hcoro₃]
    rw [show s.current.coro = true from hcoro]
  have hrun : sysExit s status = sliceEnd (wakeWaiterOf s₄ s₃.current.pid) s.cur := by
    have hcur : s₃.cur = s.cur := hcur₃
    unfold sysExit
    rw [if_pos]
    rw [Sys.current]
    rw [hcur, ← hcoro₃]
  have hself : view s₄ s.cur =
      some ⟨s.current.pid, s.current.ppid, some status, s.current.coro⟩ := by
    rw [h₄, update_self]
  refine ⟨?_, ?_, ?_⟩
  · rw [hrun, bury hself rfl]
    funext j
    unfold afterExit
    by_cases hj : j = s.cur
    · subst hj
      by_cases hp : s.current.ppid = 0
      · simp [hp]
      · simp [hp, hself]
    have hrest : view s₄ j = view s₃ j := by rw [h₄, update_of_ne hj]
    have hother : (if s.current.ppid = 0 then update (view s₄) s.cur none
        else view s₄) j = view s₃ j := by
      split_ifs
      · rw [update_of_ne hj, hrest]
      · exact hrest
    rw [hother, h₃.view, h₂, if_neg hj, if_neg hj]
  · rw [hrun, sliceEnd_next.1]
    exact h₃.next
  · rw [hrun, sliceEnd_next.2]

theorem ending_of_disabled (h : enabled s c = false) : ending s c = none := by
  cases c with
  | kill pid sig =>
    have hcur : s.cur = 0 := by simpa [enabled, Call.anytime, Call.ofScheduler] using h
    simp only [ending, hcur, ne_eq, not_true_eq_false, and_false]
    split <;> rfl
  | _ => rfl

theorem sysExit_effect (hspares : ending s c = none) (hcur : s.cur ≠ 0)
    (hseat : Seat (view s) s.cur) (status : ℤ) : Effect s c .gone (sysExit s status) := by
  obtain ⟨hview, hnext, hend⟩ := view_sysExit hseat status
  exact .exited status hspares hcur hview hnext hend

def Born (s s' : Sys) : Prop :=
  ∃ slot p, allocSlot s = some slot ∧ slot ≠ 0 ∧ p.state = .runnable ∧
    p.core = some ⟨s.nextPid, s.current.pid, none, true⟩ ∧
    s' = { s.modify slot fun _ => p with nextPid := s.nextPid + 1 }

theorem sysFork_born (s : Sys) (frame : Bool) (pgdir : ℕ) :
    (sysFork s frame pgdir).2 = s ∨ Born s (sysFork s frame pgdir).2 := by
  unfold sysFork
  by_cases hok : s.current.coro = false ∨ s.current.pgdir = 0 ∨ frame = false
  · rw [if_pos (by simpa using hok)]
    exact .inl rfl
  rw [if_neg (by simpa using hok)]
  cases halloc : allocSlot s with
  | none => exact .inl rfl
  | some slot =>
    simp only
    split_ifs with hslot
    · exact .inl rfl
    · exact .inr ⟨slot, _, halloc, fun h => hslot (.inl h), rfl, rfl, rfl⟩

theorem sysSpawn_born (s : Sys) (found : Bool) (pgdir entry : ℕ) :
    (sysSpawn s found pgdir entry).2.2 = s ∨ Born s (sysSpawn s found pgdir entry).2.2 := by
  unfold sysSpawn
  by_cases hfound : found = false
  · rw [if_pos hfound]
    exact .inl rfl
  rw [if_neg hfound]
  cases halloc : allocSlot s with
  | none => exact .inl rfl
  | some slot =>
    simp only
    by_cases hslot : slot = 0 ∨ pgdir = 0
    · rw [if_pos hslot]
      exact .inl rfl
    rw [if_neg hslot]
    split_ifs with hentry
    · exact .inl rfl
    · exact .inr ⟨slot, _, halloc, fun h => hslot (.inl h), rfl, rfl, rfl⟩

theorem Born.effect {s' : Sys} {r : ℤ} (h : s' = s ∨ Born s s') (hspares : ending s c = none)
    (hs : Seated s) (init : Option (Fin maxProcs)) :
    Effect s c (.ret r none) { s' with initSlot := init } := by
  obtain rfl | ⟨slot, p, halloc, hslot, -, hp, rfl⟩ := h
  · exact .same rfl hspares ⟨rfl, rfl⟩ hs
  refine .born slot rfl hspares hslot (allocSlot_free halloc) ?_ rfl rfl
  rw [← hp]
  exact view_modify s slot fun _ => p

theorem respawnInit_effect (hspares : ending s c = none) (hs : Seated s)
    (found : Bool) (pgdir entry : ℕ) :
    Effect s c (.ret (respawnInit s found pgdir entry).1 none)
      (respawnInit s found pgdir entry).2 := by
  have hspawn := sysSpawn_born s found pgdir entry
  unfold respawnInit
  cases initVacant s with
  | false => exact .same rfl hspares (Same.refl s) hs
  | true =>
    generalize sysSpawn s found pgdir entry = res at hspawn
    obtain ⟨r, slot, s'⟩ := res
    cases slot with
    | none => exact Born.effect hspawn hspares hs s'.initSlot
    | some slot => exact Born.effect hspawn hspares hs (some slot)

def goOn (s : Sys) (i : Fin maxProcs) : Sys :=
  { s.modify i fun p => { p with parked := none, waitChan := 0, sleepUntil := 0 } with cur := i }

theorem runSlice_cases (s : Sys) (i : Fin maxProcs) :
    runSlice s i = (.ret 0 none, s) ∨
      i ≠ 0 ∧ (s.table i).state = .runnable ∧ Same s (goOn s i) ∧ Seat (view (goOn s i)) i ∧
        (runSlice s i = (.ret 0 none, goOn s i) ∨
          ∃ call : ℤ × ℤ, runSlice s i = sysWaitpid (goOn s i) call.1 call.2) := by
  unfold runSlice
  split_ifs with hskip
  · exact .inl rfl
  simp only [not_or, not_not, Bool.not_eq_false] at hskip
  obtain ⟨hzero, hcoro, hstate⟩ := hskip
  let f : Process → Process := fun p => { p with parked := none, waitChan := 0, sleepUntil := 0 }
  have hsame : Same s (goOn s i) := ⟨view_modify_same (f := f) rfl, rfl⟩
  refine .inr ⟨hzero, hstate, hsame, ?_, ?_⟩
  · have hlive : (s.table i).live = true := by simp [Process.live, hstate]
    rw [hsame.view]
    exact ⟨_, core_of_live hlive, rfl, hcoro⟩
  · cases (s.table i).parked with
    | none => exact .inl rfl
    | some call => exact .inr ⟨call, rfl⟩

theorem runSlice_effect (hspares : ending s c = none) (hs : Seated s)
    (i : Fin maxProcs) : Effect s c (runSlice s i).1 (runSlice s i).2 := by
  obtain hrun | ⟨hzero, -, hsame, hseat, hrun | ⟨call, hrun⟩⟩ := runSlice_cases s i
  · rw [hrun]
    exact .same rfl hspares (Same.refl s) hs
  · rw [hrun]
    exact .same rfl hspares hsame (.inr hseat)
  · rw [hrun]
    exact sysWaitpid_effect hsame hspares hzero hseat call.1 call.2

theorem endOther_effect
    (hits : ending s c = some (i, sig)) (hi : view s i = some e) (hother : i ≠ s.cur) :
    Effect s c (.ret 0 none) (endOther s i sig) := by
  obtain ⟨hpid, hppid, hcoro, -⟩ := core_fields hi
  refine .ended i e sig hits hi hother ?_ rfl rfl
  unfold endOther
  rw [view_wakeWaiterOf, view_modify, core_of_zombie rfl, ← hpid, ← hppid, ← hcoro]

theorem signalSlot_effect (hcur : s.cur ≠ 0) (hseat : Seat (view s) s.cur) (hi : view s i = some e)
    (hits : ending s c = if (s.table i).fate sig = .ends ∧ i ≠ s.cur then some (i, sig) else none) :
    Effect s c (signalSlot s i sig).1 (signalSlot s i sig).2 := by
  unfold signalSlot
  cases hfate : (s.table i).fate sig with
  | ignored =>
    exact .same rfl (by simpa [hfate] using hits) (Same.refl s) (.inr hseat)
  | handled =>
    have hsame : Same s (s.modify i fun p => p.signalled sig) :=
      Same.modify (Process.core_signalled _ sig)
    exact .same rfl (by simpa [hfate] using hits) hsame (Seated.same (.inr hseat) hsame rfl)
  | ends =>
    by_cases hself : i = s.cur
    · simp only [hself]
      exact sysExit_effect (by simpa [hself] using hits) hcur hseat _
    · simp only [hself]
      exact endOther_effect (by simpa [hfate, hself] using hits) hi hself

theorem sysKill_effect (hcur : s.cur ≠ 0) (hseat : Seat (view s) s.cur) (pid sig : ℤ) :
    Effect s (.kill pid sig) (sysKill s pid sig).1 (sysKill s pid sig).2 := by
  have hsame : ∀ r, ending s (.kill pid sig) = none →
      Effect s (.kill pid sig) (.ret r none) s := fun r hspares =>
    .same rfl hspares (Same.refl s) (.inr hseat)
  unfold sysKill signalKill
  by_cases hzero : sig = 0
  · rw [if_pos hzero]
    refine hsame _ ?_
    subst hzero
    rfl
  rw [if_neg hzero]
  cases hsig : signal? sig with
  | none => exact hsame _ (by simp [ending, hsig])
  | some g =>
    cases hfound : s.first fun p => p.used && p.pid == pid with
    | none => exact hsame _ (by simp [ending, hfound])
    | some i =>
      have hused := first_some hfound
      simp only [Bool.and_eq_true] at hused
      obtain ⟨e, he⟩ : ∃ e, view s i = some e := by
        cases hv : view s i with
        | some e => exact ⟨e, rfl⟩
        | none =>
          rw [core_eq_none.mp hv] at hused
          exact absurd hused.1 (by simp)
      exact signalSlot_effect hcur hseat he (by simp [ending, hsig, hfound, hcur])

theorem sysSigraise_effect (hspares : ending s c = none) (hcur : s.cur ≠ 0)
    (hseat : Seat (view s) s.cur) (sig : ℤ) :
    Effect s c (sysSigraise s sig).1 (sysSigraise s sig).2 := by
  unfold sysSigraise
  cases signal? sig with
  | none => exact .same rfl hspares (Same.refl s) (.inr hseat)
  | some g =>
    simp only
    split_ifs
    · exact sysExit_effect hspares hcur hseat _
    · have hsame : Same s (s.modify s.cur fun p => p.raised g) := Same.modify rfl
      exact .same rfl hspares hsame (Seated.same (.inr hseat) hsame rfl)

theorem alarmTick_effect (hspares : ending s c = none) (hcur : s.cur ≠ 0)
    (hseat : Seat (view s) s.cur) : Effect s c (alarmTick s).1 (alarmTick s).2 := by
  unfold alarmTick
  simp only
  split_ifs
  · exact .same rfl hspares (Same.refl s) (.inr hseat)
  · exact sysExit_effect hspares hcur hseat _
  · have hsame : Same s (s.modify s.cur fun p => p.raised sigalrm) := Same.modify rfl
    exact .same rfl hspares hsame (Seated.same (.inr hseat) hsame rfl)

theorem sysSigaction_same (s : Sys) (sig : ℤ) (handler restorer : ℕ) :
    Same s (sysSigaction s sig handler restorer).2 ∧
      (sysSigaction s sig handler restorer).2.cur = s.cur := by
  unfold sysSigaction
  cases signal? sig with
  | none => exact ⟨Same.refl s, rfl⟩
  | some g =>
    simp only
    split_ifs
    · exact ⟨Same.refl s, rfl⟩
    · dsimp only
      exact ⟨Same.modify rfl, rfl⟩

/-- Each step comes to one of five effects on what others see of the table. -/
theorem perform_effect (hs : Seated s) (hc : enabled s c = true) :
    Effect s c (perform s c).1 (perform s c).2 := by
  -- a call of a process: the current slot is not the scheduler's, and the process is alive
  have hproc : c.anytime = false → c.ofScheduler = false → s.cur ≠ 0 ∧ Seat (view s) s.cur := by
    intro hany hsched
    have hne : s.cur ≠ 0 := by
      rw [enabled, hany, hsched] at hc
      simpa using hc
    exact ⟨hne, hs.resolve_left hne⟩
  cases c with
  | respawn found pgdir entry => exact respawnInit_effect rfl hs found pgdir entry
  | slice i => exact runSlice_effect rfl hs i
  | wakeTimed =>
    have hsame : Same s (wakeTimed s) := ⟨view_wakeTimed s, rfl⟩
    exact .same rfl rfl hsame (hs.same hsame rfl)
  | tick =>
    have hsame : Same s { s with jiffies := s.jiffies + 1 } := ⟨rfl, rfl⟩
    exact .same rfl rfl hsame (hs.same hsame rfl)
  | deliver i pending mask =>
    have hsame : Same s (setSignals s i pending mask) := Same.modify rfl
    exact .same rfl rfl hsame (hs.same hsame rfl)
  | yield =>
    obtain ⟨hsame, hcur⟩ := yieldCurrent_same (hproc rfl rfl).2
    exact .same rfl rfl hsame (.inl hcur)
  | preempt =>
    obtain ⟨hsame, hcur⟩ := preempt_same (hproc rfl rfl).2
    exact .same rfl rfl hsame (.inl hcur)
  | sleep chan untilJiffies =>
    obtain ⟨hsame, hcur⟩ := sleepOn_same (hproc rfl rfl).2 chan untilJiffies
    exact .same rfl rfl hsame (.inl hcur)
  | wakeup chan =>
    have hsame : Same s (wakeup s chan) := ⟨view_wakeup s chan, rfl⟩
    exact .same rfl rfl hsame (hs.same hsame rfl)
  | wakeupOne chan =>
    have hrest : (wakeupOne s chan).nextPid = s.nextPid ∧ (wakeupOne s chan).cur = s.cur := by
      unfold wakeupOne
      split <;> exact ⟨rfl, rfl⟩
    have hsame : Same s (wakeupOne s chan) := ⟨view_wakeupOne s chan, hrest.1⟩
    exact .same rfl rfl hsame (hs.same hsame hrest.2)
  | fork frame pgdir => exact Born.effect (sysFork_born s frame pgdir) rfl hs _
  | spawn found pgdir entry => exact Born.effect (sysSpawn_born s found pgdir entry) rfl hs _
  | exit status =>
    obtain ⟨hcur, hseat⟩ := hproc rfl rfl
    exact sysExit_effect rfl hcur hseat status
  | waitpid pid options =>
    obtain ⟨hcur, hseat⟩ := hproc rfl rfl
    exact sysWaitpid_effect (Same.refl s) rfl hcur hseat pid options
  | kill pid sig =>
    obtain ⟨hcur, hseat⟩ := hproc rfl rfl
    exact sysKill_effect hcur hseat pid sig
  | raise sig =>
    obtain ⟨hcur, hseat⟩ := hproc rfl rfl
    exact sysSigraise_effect rfl hcur hseat sig
  | alarm =>
    obtain ⟨hcur, hseat⟩ := hproc rfl rfl
    exact alarmTick_effect rfl hcur hseat
  | sigaction sig handler restorer =>
    obtain ⟨hsame, hcur⟩ := sysSigaction_same s sig handler restorer
    exact .same rfl rfl hsame (hs.same hsame hcur)
  | sigprocmask how set =>
    have hsame : Same s (sysSigprocmask s how set) := by
      unfold sysSigprocmask
      exact Same.modify rfl
    exact .same rfl rfl hsame (hs.same hsame rfl)

theorem step_effect (hs : Seated s) (c : Call) : Effect s c (step s c).1 (next s c) := by
  unfold next step
  split_ifs with hc
  · exact perform_effect hs hc
  · exact .same rfl (ending_of_disabled (by simpa using hc)) (Same.refl s) hs

section Gone

theorem sysWaitpid_not_gone (s : Sys) (pid options : ℤ) : (sysWaitpid s pid options).1 ≠ .gone := by
  rcases sysWaitpid_cases s pid options with
    ⟨-, hrun⟩ | ⟨-, ⟨i, -, hrun⟩ | ⟨-, ⟨-, hrun⟩ | ⟨-, ⟨-, hrun⟩ | ⟨-, -, hrun⟩⟩⟩⟩
  all_goals
    rw [hrun]
    exact Answer.noConfusion

theorem runSlice_not_gone (s : Sys) (i : Fin maxProcs) : (runSlice s i).1 ≠ .gone := by
  unfold runSlice
  split_ifs
  · exact Answer.noConfusion
  · cases (s.table i).parked with
    | none => exact Answer.noConfusion
    | some call => exact sysWaitpid_not_gone _ _ _

/-- Whichever way a process ends itself, it comes to an exit with that status. -/
theorem perform_ownEnd {status : ℤ} (h : ownEnd s c = some status) :
    perform s c = (.gone, sysExit s status) := by
  cases c with
  | exit _ =>
    obtain rfl := Option.some.inj h
    rfl
  | kill pid n =>
    simp only [ownEnd] at h
    split at h
    · next g i hg hi =>
      split_ifs at h with hends
      obtain rfl := Option.some.inj h
      have hn : n ≠ 0 := by
        rintro rfl
        cases hg
      simp only [perform, sysKill, signalKill, signalSlot, if_neg hn, hg, hi, hends.1,
        if_pos hends.2]
    · cases h
  | raise n =>
    obtain ⟨g, hg, h⟩ := Option.bind_eq_some_iff.mp h
    split_ifs at h with hdefault
    obtain rfl := Option.some.inj h
    simp only [perform, sysSigraise, hg, if_pos hdefault]
  | alarm =>
    simp only [ownEnd] at h
    split_ifs at h with hdefault
    obtain rfl := Option.some.inj h
    simp [perform, alarmTick, hdefault.1, hdefault.2, sigIgn, sigDfl]
  | _ => cases h

theorem perform_not_gone (h : ownEnd s c = none) : (perform s c).1 ≠ .gone := by
  cases c with
  | exit _ => cases h
  | waitpid pid options => exact sysWaitpid_not_gone s pid options
  | slice i => exact runSlice_not_gone s i
  | kill pid n =>
    by_cases hn : n = 0
    · simp [perform, sysKill, hn]
    cases hg : signal? n with
    | none => simp [perform, sysKill, signalKill, hn, hg]
    | some g =>
      cases hi : s.first fun p => p.used && p.pid == pid with
      | none => simp [perform, sysKill, signalKill, hn, hg, hi]
      | some i =>
        simp only [ownEnd, hg, hi] at h
        simp only [perform, sysKill, signalKill, signalSlot, if_neg hn, hg, hi]
        cases hfate : (s.table i).fate g with
        | ignored | handled => exact Answer.noConfusion
        | ends =>
          have hother : i ≠ s.cur := fun hcur => absurd h (by rw [if_pos ⟨hfate, hcur⟩]; nofun)
          simp [hother]
  | raise n =>
    cases hg : signal? n with
    | none => simp [perform, sysSigraise, hg]
    | some g =>
      simp only [ownEnd, hg, Option.bind_some] at h
      simp only [perform, sysSigraise, hg]
      split_ifs at h ⊢
      exact Answer.noConfusion
  | alarm =>
    simp only [ownEnd, perform, alarmTick] at h ⊢
    split_ifs at h ⊢ <;> simp_all
  | _ => exact Answer.noConfusion

theorem step_gone_iff : (step s c).1 = .gone ↔ enabled s c = true ∧ (ownEnd s c).isSome = true := by
  unfold step
  by_cases hc : enabled s c = true
  · rw [if_pos hc]
    cases hown : ownEnd s c with
    | none => simpa [hc] using perform_not_gone hown
    | some status => simp [hc, perform_ownEnd hown]
  · rw [if_neg hc]
    simp [hc]

end Gone

end Vnu.Proc
