import Vnu.Proc.Table

/-!
What the processes can see of each other: who is there, whose child it is, and whether it is a
corpse.
-/
namespace Vnu.Proc

open Function Option List

variable {p : Process} {s' : Sys} {q : Process → Bool}

structure Core where
  pid : ℤ
  ppid : ℤ
  dead : Option ℤ
  coro : Bool
  deriving DecidableEq

variable {e : Core}

def Process.core (p : Process) : Option Core :=
  if p.state = .unused then none
  else some ⟨p.pid, p.ppid, if p.state = .zombie then some p.exitCode else none, p.coro⟩

def view (s : Sys) (i : Fin maxProcs) : Option Core := (s.table i).core

theorem Process.core_of_state {q : Process} (hpid : q.pid = p.pid) (hppid : q.ppid = p.ppid)
    (hcoro : q.coro = p.coro) (hcode : q.exitCode = p.exitCode)
    (hused : q.state = .unused ↔ p.state = .unused)
    (hdead : q.state = .zombie ↔ p.state = .zombie) : q.core = p.core := by
  unfold Process.core
  simp only [hused, hdead, hpid, hppid, hcoro, hcode]

theorem Process.core_awake (h : p.state = .blocked) : p.awake.core = p.core := by
  have hstate : p.awake.state = .runnable := rfl
  exact Process.core_of_state rfl rfl rfl rfl (by simp [hstate, h]) (by simp [hstate, h])

theorem Process.core_signalled (p : Process) (sig : Fin nsig) :
    (p.signalled sig).core = p.core := by
  unfold Process.signalled
  split_ifs with h
  · exact Process.core_awake (p := p.raised sig) h
  · rfl

theorem core_live (h : p.core = some e) (hdead : e.dead = none) : p.live = true := by
  unfold Process.core at h
  unfold Process.live
  split_ifs at h with hunused hzombie
  · obtain rfl := some.inj h
    cases hdead
  · cases hp : p.state <;> simp_all

theorem core_of_live (h : p.live = true) : p.core = some ⟨p.pid, p.ppid, none, p.coro⟩ := by
  unfold Process.live at h
  unfold Process.core
  cases hp : p.state <;> simp_all

theorem core_of_zombie (h : p.state = .zombie) :
    p.core = some ⟨p.pid, p.ppid, some p.exitCode, p.coro⟩ := by
  unfold Process.core
  simp [h]

theorem core_fields (h : p.core = some e) :
    e.pid = p.pid ∧ e.ppid = p.ppid ∧ e.coro = p.coro ∧ p.used = true := by
  unfold Process.core at h
  unfold Process.used
  split_ifs at h with hunused
  all_goals obtain rfl := some.inj h; simp [hunused]

theorem core_eq_none : p.core = none ↔ p.used = false := by
  unfold Process.core Process.used
  split_ifs with hunused <;> simp [hunused]

theorem core_dead {code : ℤ} (h : p.core = some e)
    (hdead : e.dead = some code) : p.state = .zombie ∧ p.exitCode = code := by
  unfold Process.core at h
  split_ifs at h with hunused hzombie
  · obtain rfl := some.inj h
    exact ⟨hzombie, some.inj hdead⟩
  · obtain rfl := some.inj h
    cases hdead

section Views

variable {s : Sys} {i : Fin maxProcs} {f : Process → Process}

theorem view_modify (s : Sys) (i : Fin maxProcs) (f : Process → Process) :
    view (s.modify i f) = update (view s) i (f (s.table i)).core := by
  funext j
  by_cases h : j = i
  · subst h
    simp [view, Sys.modify]
  · simp [view, Sys.modify, h]

theorem view_modify_same (h : (f (s.table i)).core = (s.table i).core) :
    view (s.modify i f) = view s := by
  rw [view_modify, h]
  exact update_eq_self i (view s)

theorem view_wakeup (s : Sys) (chan : UInt32) : view (wakeup s chan) = view s := by
  funext j
  simp only [view, wakeup]
  split_ifs with h
  · exact Process.core_awake h.2.1
  · rfl

theorem view_wakeWaiterOf (s : Sys) (pid : ℤ) : view (wakeWaiterOf s pid) = view s := by
  rw [wakeWaiterOf, view_wakeup, view_wakeup]

theorem view_wakeTimed (s : Sys) : view (wakeTimed s) = view s := by
  funext j
  simp only [view, wakeTimed]
  split_ifs with h
  · exact Process.core_of_state rfl rfl rfl rfl (by simp [h.2.1]) (by simp [h.2.1])
  · rfl

theorem view_wakeupOne (s : Sys) (chan : UInt32) : view (wakeupOne s chan) = view s := by
  unfold wakeupOne
  split
  · rename_i i hfound
    have hi := find?_some hfound
    simp only [Bool.and_eq_true, beq_iff_eq] at hi
    exact view_modify_same (Process.core_awake hi.1.2)
  · rfl

end Views

structure Same (s s' : Sys) : Prop where
  view : view s' = view s
  next : s'.nextPid = s.nextPid

theorem Same.refl (s : Sys) : Same s s := ⟨rfl, rfl⟩

theorem Same.trans {s s'' : Sys} (h : Same s s') (h' : Same s' s'') : Same s s'' :=
  ⟨h'.view.trans h.view, h'.next.trans h.next⟩

theorem Same.modify {s : Sys} {i : Fin maxProcs} {f : Process → Process}
    (h : (f (s.table i)).core = (s.table i).core) : Same s (s.modify i f) :=
  ⟨view_modify_same h, rfl⟩

def Seat (v : Fin maxProcs → Option Core) (i : Fin maxProcs) : Prop :=
  ∃ e, v i = some e ∧ e.dead = none ∧ e.coro = true

def Seated (s : Sys) : Prop := s.cur = 0 ∨ Seat (view s) s.cur

theorem Seated.same {s : Sys} (h : Seated s) (hv : Same s s') (hcur : s'.cur = s.cur) :
    Seated s' := by
  unfold Seated
  rw [hv.view, hcur]
  exact h

theorem sliceEnd_same {s : Sys} {i : Fin maxProcs} (h : (s.table i).state ≠ .zombie) :
    Same s (sliceEnd s i) ∧ (sliceEnd s i).cur = 0 := by
  have hrun : sliceEnd s i = { s with cur := 0 } := if_neg fun hz => h hz.1
  rw [hrun]
  exact ⟨⟨rfl, rfl⟩, rfl⟩

theorem seat_live {s : Sys} {i : Fin maxProcs} (h : Seat (view s) i) :
    (s.table i).live = true ∧ (s.table i).coro = true := by
  obtain ⟨e, hv, hdead, hcoro⟩ := h
  exact ⟨core_live hv hdead, by rw [← (core_fields hv).2.2.1, hcoro]⟩

theorem live_not_zombie (h : p.live = true) : p.state ≠ .zombie := by
  intro hz
  rw [Process.live, hz] at h
  exact absurd h (by decide)

theorem Seat.modify {s : Sys} (hseat : Seat (view s) s.cur) {f : Process → Process}
    (hcore : (f s.current).core = s.current.core) :
    Same s (s.modify s.cur f) ∧ Seat (view (s.modify s.cur f)) s.cur := by
  have hmod : Same s (s.modify s.cur f) := Same.modify hcore
  exact ⟨hmod, hmod.view.symm ▸ hseat⟩

theorem leave_same {s : Sys} (hseat : Seat (view s) s.cur) {f : Process → Process}
    (hcore : (f s.current).core = s.current.core) :
    Same s (sliceEnd (s.modify s.cur f) s.cur) ∧ (sliceEnd (s.modify s.cur f) s.cur).cur = 0 := by
  obtain ⟨hmod, hseat'⟩ := hseat.modify hcore
  obtain ⟨hend, hcur⟩ := sliceEnd_same (live_not_zombie (seat_live hseat').1)
  exact ⟨hmod.trans hend, hcur⟩

theorem yieldCurrent_same {s : Sys} (hseat : Seat (view s) s.cur) :
    Same s (yieldCurrent s) ∧ (yieldCurrent s).cur = 0 := by
  have hrun : yieldCurrent s =
      sliceEnd (s.modify s.cur fun p => { p with own := p.own.voluntary }) s.cur :=
    if_pos (seat_live hseat).2
  rw [hrun]
  exact leave_same hseat rfl

theorem preempt_same {s : Sys} (hseat : Seat (view s) s.cur) :
    Same s (preempt s) ∧ (preempt s).cur = 0 := leave_same hseat rfl

theorem sleepOn_same {s : Sys} (hseat : Seat (view s) s.cur) (chan untilJiffies : UInt32) :
    Same s (sleepOn s chan untilJiffies) ∧ (sleepOn s chan untilJiffies).cur = 0 := by
  obtain ⟨hlive, hcoro⟩ := seat_live hseat
  let f : Process → Process := fun p =>
    { p with state := .blocked, waitChan := chan, sleepUntil := untilJiffies }
  have hrun : sleepOn s chan untilJiffies = yieldCurrent (s.modify s.cur f) := if_pos hcoro
  have hcore : (f (s.table s.cur)).core = (s.table s.cur).core := by
    rw [core_of_live hlive]
    exact core_of_live rfl
  obtain ⟨hmod, hseat'⟩ := hseat.modify hcore
  obtain ⟨hyield, hcur⟩ := yieldCurrent_same (s := s.modify s.cur f) hseat'
  rw [hrun]
  exact ⟨hmod.trans hyield, hcur⟩

theorem first_some {s : Sys} {i : Fin maxProcs} (h : s.first q = some i) :
    q (s.table i) = true := by
  have hi := find?_some h
  exact hi

theorem first_none {s : Sys} (h : s.first q = none) (i : Fin maxProcs) : q (s.table i) = false := by
  have hi := find?_eq_none.mp h i (mem_finRange i)
  simpa using hi

theorem allocSlot_free {s : Sys} {i : Fin maxProcs} (h : allocSlot s = some i) :
    view s i = none := by
  have hfree := first_some h
  rw [view, core_eq_none]
  simpa using hfree

/-- The ends of one pass of `waitpid`, in the order the loop looks at them. -/
theorem sysWaitpid_cases (s : Sys) (pid options : ℤ) :
    (s.current.pendingDelivery.isSome = true ∧ sysWaitpid s pid options = (.ret (-eintr) none, s)) ∨
    s.current.pendingDelivery.isSome = false ∧
      ((∃ i, s.first (Process.waitable s.current.pid pid) = some i ∧ sysWaitpid s pid options =
            (.ret (s.table i).pid (some (s.table i).exitCode), s.modify i fun _ => {})) ∨
        s.first (Process.waitable s.current.pid pid) = none ∧
          (((s.first (Process.childOf s.current.pid) = none ∨
              options = 0 ∧ s.current.coro = false) ∧
              sysWaitpid s pid options = (.ret (-echild) none, s)) ∨
            (s.first (Process.childOf s.current.pid) ≠ none ∧
              ((options ≠ 0 ∧ sysWaitpid s pid options = (.ret 0 none, s)) ∨
                options = 0 ∧ s.current.coro = true ∧ sysWaitpid s pid options =
                  (.blocks, sleepOn (s.modify s.cur fun p =>
                  { p with parked := some (pid, options) })
                    (if pid = -1 then waitZombieAny else waitChanOfChild pid) 0))))) := by
  unfold sysWaitpid
  by_cases hintr : s.current.pendingDelivery.isSome = true
  · exact .inl ⟨hintr, if_pos hintr⟩
  refine .inr ⟨Bool.eq_false_iff.mpr hintr, ?_⟩
  simp only [hintr]
  cases hfound : s.first (Process.waitable s.current.pid pid) with
  | some i => exact .inl ⟨i, rfl, rfl⟩
  | none =>
    refine .inr ⟨rfl, ?_⟩
    cases hkids : s.first (Process.childOf s.current.pid) with
    | none => exact .inl ⟨.inl rfl, rfl⟩
    | some k =>
      by_cases hopt : options = 0
      · cases hcoro : s.current.coro with
        | false => exact .inl ⟨.inr ⟨hopt, rfl⟩, by simp [hopt]⟩
        | true => exact .inr ⟨by simp, .inr ⟨hopt, rfl, by simp [hopt]⟩⟩
      · exact .inr ⟨by simp, .inl ⟨hopt, by simp [hopt]⟩⟩

theorem adopter_congr {s : Sys} (hinit : s'.initSlot = s.initSlot)
    (hpid : ∀ i, (s'.table i).pid = (s.table i).pid)
    (hlive : ∀ i, (s'.table i).live = (s.table i).live)
    (dead : ℤ) : adopter s' dead = adopter s dead := by
  unfold adopter
  rw [hinit]
  cases s.initSlot with
  | none => rfl
  | some k => simp only [hpid, hlive]

theorem view_reparentOrphans {s : Sys} (dead : ℤ) (j : Fin maxProcs) :
    view (reparentOrphans s dead) j = if j = s.cur then view s j
      else (view s j).bind fun e =>
        if j = 0 ∨ e.ppid ≠ dead then some e
        else if e.dead.isSome then none
        else some { e with ppid := adopter s dead } := by
  by_cases hcur : j = s.cur
  · simp [view, reparentOrphans, hcur]
  rw [if_neg hcur]
  cases hcore : view s j with
  | none =>
    have hunused : (s.table j).state = .unused := by
      have := core_eq_none.mp hcore
      simpa [Process.used] using this
    have hkeep : (reparentOrphans s dead).table j = s.table j := by
      simp [reparentOrphans, hunused]
    rw [view, hkeep]
    exact hcore
  | some e =>
    obtain ⟨-, hppid, -, hused⟩ := core_fields hcore
    have hused' : (s.table j).state ≠ .unused := by simpa [Process.used] using hused
    simp only [bind_some, view, reparentOrphans, hcur, hused', hppid, false_or]
    by_cases hkeep : j = 0 ∨ (s.table j).ppid ≠ dead
    · rw [if_pos hkeep, if_pos hkeep]
      exact hcore
    rw [if_neg hkeep, if_neg hkeep]
    cases hdead : e.dead with
    | some code =>
      rw [if_pos (core_dead hcore hdead).1]
      rfl
    | none =>
      have hlive := core_live hcore hdead
      rw [if_neg (live_not_zombie hlive), if_neg (by simp)]
      have hshape := core_of_live (p := { s.table j with ppid := adopter s dead }) hlive
      rw [hshape]
      have hold : e = ⟨(s.table j).pid, (s.table j).ppid, none, (s.table j).coro⟩ :=
        some.inj (hcore.symm.trans (core_of_live hlive))
      rw [hold]

end Vnu.Proc
