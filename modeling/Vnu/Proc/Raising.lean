import Vnu.Lib.History
import Vnu.Proc.Sound

/-!
A signal a process sends to itself, by `sigraise` and by `kill`. The former leaves an ignored signal
pending, and `SIGWINCH` ends a process that never asked about it.
-/
namespace Vnu.Proc

open Lib Function Option

variable {s s' : Sys} {i : Fin maxProcs} {f : Process → Process}

def Awake (s : Sys) : Prop := s.cur = 0 ∨ s.current.state ≠ .blocked

structure Stirs (s s' : Sys) : Prop where
  cur : s'.cur = s.cur
  asleep : ∀ i, (s'.table i).state = .blocked → (s.table i).state = .blocked

theorem Stirs.refl (s : Sys) : Stirs s s := ⟨rfl, fun _ => id⟩

theorem Stirs.trans {s'' : Sys} (h : Stirs s s') (h' : Stirs s' s'') : Stirs s s'' :=
  ⟨h'.cur.trans h.cur, fun i hi => h.asleep i (h'.asleep i hi)⟩

theorem Stirs.awake (h : Stirs s s') (hs : Awake s) : Awake s' := by
  unfold Awake Sys.current
  rw [h.cur]
  exact hs.imp id fun hup hblocked => hup (h.asleep s.cur hblocked)

theorem stirs_modify (hf : (f (s.table i)).state = .blocked → (s.table i).state = .blocked) :
    Stirs s (s.modify i f) := by
  refine ⟨rfl, fun j hj => ?_⟩
  by_cases hji : j = i
  · subst hji
    simp only [Sys.modify, update_self] at hj
    exact hf hj
  · simp only [Sys.modify, update_of_ne hji] at hj
    exact hj

theorem stirs_wakeup (s : Sys) (chan : UInt32) : Stirs s (wakeup s chan) := by
  refine ⟨rfl, fun i hi => ?_⟩
  simp only [wakeup] at hi
  split_ifs at hi with h
  · exact h.2.1
  · exact hi

theorem stirs_wakeupOne (s : Sys) (chan : UInt32) : Stirs s (wakeupOne s chan) := by
  unfold wakeupOne
  split
  · exact stirs_modify (by simp [Process.awake])
  · exact .refl s

theorem awake_yieldCurrent (hs : Awake s) : Awake (yieldCurrent s) := by
  unfold yieldCurrent
  split_ifs
  · exact .inl sliceEnd_next.2
  · exact hs

theorem awake_sleepOn (hseat : Seat (view s) s.cur) (chan untilJiffies : UInt32) :
    Awake (sleepOn s chan untilJiffies) :=
  .inl (sleepOn_same hseat chan untilJiffies).2

theorem awake_sysExit (hseat : Seat (view s) s.cur) (status : ℤ) :
    Awake (sysExit s status) := .inl (view_sysExit hseat status).2.2

theorem awake_sysWaitpid (hs : Awake s) (hseat : Seat (view s) s.cur)
    (pid options : ℤ) : Awake (sysWaitpid s pid options).2 := by
  rcases sysWaitpid_cases s pid options with
    ⟨-, hrun⟩ | ⟨-, ⟨i, -, hrun⟩ | ⟨-, ⟨-, hrun⟩ | ⟨-, ⟨-, hrun⟩ | ⟨-, -, hrun⟩⟩⟩⟩
  · rw [hrun]
    exact hs
  · rw [hrun]
    have hstirs : Stirs s (s.modify i fun _ => {}) := stirs_modify nofun
    exact hstirs.awake hs
  · rw [hrun]
    exact hs
  · rw [hrun]
    exact hs
  obtain ⟨-, hseat'⟩ := hseat.modify (f := fun p => { p with parked := some (pid, options) }) rfl
  rw [hrun]
  exact awake_sleepOn hseat' _ 0

theorem stirs_born (h : s' = s ∨ Born s s') : Stirs s s' := by
  obtain rfl | ⟨slot, p, -, -, hp, -, rfl⟩ := h
  · exact .refl s'
  have hmod : Stirs s (s.modify slot fun _ => p) := by
    refine stirs_modify fun h => ?_
    rw [hp] at h
    cases h
  exact ⟨hmod.cur, hmod.asleep⟩

theorem stirs_respawnInit (s : Sys) (found : Bool) (pgdir entry : ℕ) :
    Stirs s (respawnInit s found pgdir entry).2 := by
  have hspawn := stirs_born (sysSpawn_born s found pgdir entry)
  unfold respawnInit
  cases initVacant s with
  | false => exact .refl s
  | true =>
    generalize sysSpawn s found pgdir entry = res at hspawn
    obtain ⟨r, _ | slot, s'⟩ := res
    · exact hspawn
    · exact ⟨hspawn.cur, hspawn.asleep⟩

theorem awake_runSlice (hs : Awake s) (i : Fin maxProcs) : Awake (runSlice s i).2 := by
  obtain hrun | ⟨-, hstate, -, hseat, hrun⟩ := runSlice_cases s i
  · rw [hrun]
    exact hs
  have hstate' : (goOn s i).current.state = .runnable := by
    simp [goOn, Sys.current, Sys.modify, hstate]
  have hup : Awake (goOn s i) := .inr (by rw [hstate']; decide)
  obtain hrun | ⟨call, hrun⟩ := hrun
  · rw [hrun]
    exact hup
  · rw [hrun]
    exact awake_sysWaitpid hup hseat call.1 call.2

theorem stirs_endOther (s : Sys) (i : Fin maxProcs) (sig : Fin nsig) :
    Stirs s (endOther s i sig) := by
  have hmod : Stirs s (s.modify i fun p => { p with exitCode := 128 + sig, state := .zombie }) :=
    stirs_modify (by simp)
  exact (hmod.trans (stirs_wakeup _ _)).trans (stirs_wakeup _ _)

theorem stirs_raised (s : Sys) (sig : Fin nsig) :
    Stirs s (s.modify s.cur fun p => p.raised sig) := stirs_modify id

theorem awake_signalSlot (hs : Awake s) (hseat : Seat (view s) s.cur)
    (i : Fin maxProcs) (sig : Fin nsig) : Awake (signalSlot s i sig).2 := by
  unfold signalSlot
  cases (s.table i).fate sig with
  | ignored => exact hs
  | handled =>
    have hstirs : Stirs s (s.modify i fun p => p.signalled sig) := by
      refine stirs_modify fun h => ?_
      unfold Process.signalled at h
      split_ifs at h with hblocked
      · exact hblocked
      · exact h
    exact hstirs.awake hs
  | ends =>
    by_cases hself : i = s.cur
    · simp only [hself]
      exact awake_sysExit hseat _
    · simp only [hself]
      exact (stirs_endOther s i sig).awake hs

theorem awake_sysKill (hs : Awake s) (hseat : Seat (view s) s.cur) (pid sig : ℤ) :
    Awake (sysKill s pid sig).2 := by
  unfold sysKill signalKill
  by_cases hzero : sig = 0
  · rw [if_pos hzero]
    exact hs
  rw [if_neg hzero]
  cases signal? sig with
  | none => exact hs
  | some g =>
    cases s.first fun p => p.used && p.pid == pid with
    | none => exact hs
    | some i => exact awake_signalSlot hs hseat i g

theorem awake_sysSigraise (hs : Awake s) (hseat : Seat (view s) s.cur) (sig : ℤ) :
    Awake (sysSigraise s sig).2 := by
  unfold sysSigraise
  cases signal? sig with
  | none => exact hs
  | some g =>
    simp only
    split_ifs
    · exact awake_sysExit hseat _
    · exact (stirs_raised s g).awake hs

theorem awake_alarmTick (hs : Awake s) (hseat : Seat (view s) s.cur) : Awake (alarmTick s).2 := by
  unfold alarmTick
  simp only
  split_ifs
  · exact hs
  · exact awake_sysExit hseat _
  · exact (stirs_raised s sigalrm).awake hs

theorem stirs_sysSigaction (s : Sys) (sig : ℤ) (handler restorer : ℕ) :
    Stirs s (sysSigaction s sig handler restorer).2 := by
  unfold sysSigaction
  cases signal? sig with
  | none => exact .refl s
  | some g =>
    simp only
    split_ifs
    · exact .refl s
    · dsimp only
      exact stirs_modify id

/-- No step leaves the CPU with a process that sleeps. -/
theorem awake_perform (hseated : Seated s) (hs : Awake s) {c : Call}
    (hc : enabled s c = true) : Awake (perform s c).2 := by
  have hseat : c.anytime = false → c.ofScheduler = false → Seat (view s) s.cur := by
    intro hany hsched
    apply hseated.resolve_left
    rw [enabled, hany, hsched] at hc
    simpa using hc
  cases c with
  | respawn found pgdir entry => exact (stirs_respawnInit s found pgdir entry).awake hs
  | slice i => exact awake_runSlice hs i
  | wakeTimed =>
    have hsched : s.cur = 0 := by simpa [enabled, Call.anytime, Call.ofScheduler] using hc
    exact .inl hsched
  | tick => exact hs
  | deliver i pending mask =>
    have hstirs : Stirs s (setSignals s i pending mask) := stirs_modify id
    exact hstirs.awake hs
  | yield => exact awake_yieldCurrent hs
  | preempt => exact .inl sliceEnd_next.2
  | sleep chan untilJiffies => exact awake_sleepOn (hseat rfl rfl) chan untilJiffies
  | wakeup chan => exact (stirs_wakeup s chan).awake hs
  | wakeupOne chan => exact (stirs_wakeupOne s chan).awake hs
  | fork frame pgdir => exact (stirs_born (sysFork_born s frame pgdir)).awake hs
  | spawn found pgdir entry => exact (stirs_born (sysSpawn_born s found pgdir entry)).awake hs
  | exit status => exact awake_sysExit (hseat rfl rfl) status
  | waitpid pid options => exact awake_sysWaitpid hs (hseat rfl rfl) pid options
  | kill pid sig => exact awake_sysKill hs (hseat rfl rfl) pid sig
  | raise sig => exact awake_sysSigraise hs (hseat rfl rfl) sig
  | alarm => exact awake_alarmTick hs (hseat rfl rfl)
  | sigaction sig handler restorer => exact (stirs_sysSigaction s sig handler restorer).awake hs
  | sigprocmask how set =>
    have hstirs : Stirs s (sysSigprocmask s how set) := by
      unfold sysSigprocmask
      exact stirs_modify id
    exact hstirs.awake hs

theorem awake_next (hseated : Seated s) (hs : Awake s) (c : Call) : Awake (next s c) := by
  unfold next step
  split_ifs with hc
  · exact awake_perform hseated hs hc
  · exact hs

theorem sound_awake_after (cs : List Call) :
    Sound (after next boot cs) ∧ Awake (after next boot cs) := by
  have hrun : ∀ s, Sound s ∧ Awake s → Sound (after next s cs) ∧ Awake (after next s cs) := by
    induction cs with
    | nil => exact fun s hs => hs
    | cons c cs ih =>
      intro s hs
      exact ih (next s c) ⟨sound_next hs.1 c, awake_next hs.1.seated hs.2 c⟩
  exact hrun boot ⟨sound_boot, .inl rfl⟩

def Agrees (p : Process) (sig : Fin nsig) : Prop :=
  sig = sigkill ∨ (p.sigAction sig = sigIgn → p.sigPending sig = true) ∧
      (p.sigAction sig = sigDfl → sig ≠ sigwinch)

theorem raised_eq_self_iff {p : Process} {sig : Fin nsig} :
    p.raised sig = p ↔ p.sigPending sig = true := by
  constructor
  · intro h
    have hbit : (p.raised sig).sigPending sig = true := by simp [Process.raised]
    rwa [h] at hbit
  · intro h
    unfold Process.raised
    rw [← h, update_eq_self]

theorem modify_congr {g : Process → Process}
    (h : f (s.table i) = g (s.table i)) : s.modify i f = s.modify i g := by
  unfold Sys.modify
  rw [h]

theorem modify_eq_self_iff : s.modify i f = s ↔ f (s.table i) = s.table i := by
  constructor
  · intro h
    have hat : (s.modify i f).table i = f (s.table i) := by simp [Sys.modify]
    rw [← hat, h]
  · intro h
    unfold Sys.modify
    rw [h, update_eq_self]

theorem first_own_pid (hs : Sound s) (hcur : s.cur ≠ 0) :
    (s.first fun p => p.used && p.pid == s.current.pid) = some s.cur := by
  obtain ⟨e, he, -, -⟩ := hs.seated.resolve_left hcur
  obtain ⟨hpid, -, -, hused⟩ := core_fields he
  cases hfound : s.first fun p => p.used && p.pid == s.current.pid with
  | none =>
    have hnot := first_none hfound s.cur
    simp [hused, Sys.current] at hnot
  | some i =>
    have hi := first_some hfound
    simp only [Bool.and_eq_true, beq_iff_eq] at hi
    obtain ⟨f, hf⟩ : ∃ f, view s i = some f := by
      rw [← ne_none_iff_exists']
      intro hnone
      rw [core_eq_none.mp hnone] at hi
      exact absurd hi.1 Bool.false_ne_true
    rw [hs.apart i s.cur f e hf he]
    rw [(core_fields hf).1, hi.2, hpid]
    rfl

theorem signalled_of_awake (hs : Awake s) (hcur : s.cur ≠ 0) (sig : Fin nsig) :
    s.current.signalled sig = s.current.raised sig := by
  unfold Process.signalled
  rw [if_neg (hs.resolve_left hcur)]

theorem signalSlot_self (hs : Awake s) (hcur : s.cur ≠ 0) (sig : Fin nsig) :
    (s.current.fate sig = .ignored → signalSlot s s.cur sig = (.ret 0 none, s)) ∧
    (s.current.fate sig = .ends → signalSlot s s.cur sig = (.gone, sysExit s (128 + sig))) ∧
    (s.current.fate sig = .handled →
      signalSlot s s.cur sig = (.ret 0 none, s.modify s.cur fun p => p.raised sig)) := by
  have hmod : (s.modify s.cur fun p => p.signalled sig) =
      s.modify s.cur fun p => p.raised sig := modify_congr (signalled_of_awake hs hcur sig)
  unfold signalSlot Sys.current
  rw [if_pos rfl, hmod]
  refine ⟨fun hfate => ?_, fun hfate => ?_, fun hfate => ?_⟩
  all_goals rw [hfate]

/-- The running process gets from `sigraise` what `kill` with its own pid would have given it,
exactly when the number is no signal's, or it is `SIGKILL`, or the signal is not ignored without
being pending already and is not `SIGWINCH` with its default action. -/
theorem sigraise_eq_kill_iff (cs : List Call) (sig : ℤ) (hcur : (after next boot cs).cur ≠ 0) :
    sysSigraise (after next boot cs) sig =
        signalKill (after next boot cs) (after next boot cs).current.pid sig ↔
      ∀ g, signal? sig = some g → Agrees (after next boot cs).current g := by
  obtain ⟨hsound, hawake⟩ := sound_awake_after cs
  generalize after next boot cs = s at hcur hsound hawake ⊢
  unfold sysSigraise signalKill
  cases hsig : signal? sig with
  | none => exact iff_of_true rfl nofun
  | some g =>
    obtain ⟨hignored, hends, hhandled⟩ := signalSlot_self hawake hcur g
    simp only [first_own_pid hsound hcur, some.injEq, forall_eq']
    unfold Process.fate at hignored hends hhandled
    by_cases hkill : g = sigkill
    · rw [if_pos (.inl hkill), hends (if_pos hkill)]
      exact iff_of_true rfl (.inl hkill)
    rw [if_neg hkill] at hignored hends hhandled
    by_cases hdfl : s.current.sigAction g = sigDfl
    · have hign : s.current.sigAction g ≠ sigIgn := by
        rw [hdfl]
        decide
      rw [if_neg hign, if_pos hdfl] at hignored hends
      rw [if_pos (.inr hdfl)]
      by_cases hwinch : g = sigwinch
      · rw [hignored (if_pos hwinch)]
        refine iff_of_false (fun h => nomatch congrArg Prod.fst h) ?_
        rintro (h | h)
        · exact hkill h
        · exact h.2 hdfl hwinch
      · rw [hends (if_neg hwinch)]
        exact iff_of_true rfl (.inr ⟨fun h => absurd h hign, fun _ => hwinch⟩)
    · rw [if_neg (not_or.mpr ⟨hkill, hdfl⟩)]
      by_cases hign : s.current.sigAction g = sigIgn
      · -- `kill` leaves the table alone, `sigraise` sets the bit
        rw [hignored (if_pos hign), Prod.mk.injEq, eq_self, true_and, modify_eq_self_iff]
        rw [raised_eq_self_iff]
        constructor
        · intro hbit
          exact .inr ⟨fun _ => hbit, fun h => absurd h hdfl⟩
        · rintro (h | h)
          · exact absurd h hkill
          · exact h.1 hign
      · rw [if_neg hign, if_neg hdfl] at hhandled
        rw [hhandled rfl]
        exact iff_of_true rfl (.inr ⟨fun h => absurd h hign, fun h => absurd h hdfl⟩)

theorem sigraise_eq_kill_term :
    (after next boot [.respawn true 1 1, .slice 1]).cur ≠ 0 ∧
      sysSigraise (after next boot [.respawn true 1 1, .slice 1]) 15 =
        signalKill (after next boot [.respawn true 1 1, .slice 1])
          (after next boot [.respawn true 1 1, .slice 1]).current.pid 15 :=
  have hcur : (after next boot [.respawn true 1 1, .slice 1]).cur ≠ 0 := by decide +kernel
  ⟨hcur, (sigraise_eq_kill_iff _ 15 hcur).mpr fun g hg => by
    obtain rfl : g = 15 := (some.inj (hg.symm.trans (by decide)))
    exact .inr ⟨by decide +kernel, by decide⟩⟩

/-- `SIGWINCH` ends a process that raises it, and an ignored `SIGUSR1` is pending after it was
raised. -/
theorem sigraise_winch_ends :
    (sysSigraise (after next boot [.respawn true 1 1, .slice 1]) 28).1 = .gone ∧
    (signalKill (after next boot [.respawn true 1 1, .slice 1]) 1 28).1 = .ret 0 none ∧
    (sysSigraise (after next boot [.respawn true 1 1, .slice 1, .sigaction 10 1 0])
      10).2.current.sigPending 10 = true ∧
    (signalKill (after next boot [.respawn true 1 1, .slice 1, .sigaction 10 1 0])
      1 10).2.current.sigPending 10 = false := by
  decide +kernel

end Vnu.Proc
