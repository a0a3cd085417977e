import Vnu.Lib.History
import Vnu.Proc.Views

/-!
Waiting for a process that is not a child: `waitpid` looks for the pid it was given, but asks for
children of any pid before it sleeps.
-/
namespace Vnu.Proc

open Lib

def Stranger (s : Sys) (pid : ℤ) : Prop :=
  ∀ i, (s.table i).used = true → (s.table i).ppid = s.current.pid → (s.table i).pid ≠ pid

def Childless (s : Sys) : Prop := ∀ i, Process.childOf s.current.pid (s.table i) = false

theorem Stranger.no_corpse {s : Sys} {pid : ℤ} (h : Stranger s pid) (hpid : 0 < pid) :
    s.first (Process.waitable s.current.pid pid) = none := by
  cases hfound : s.first (Process.waitable s.current.pid pid) with
  | none => rfl
  | some i =>
    have hwait := first_some hfound
    simp only [Process.waitable, Bool.and_eq_true, Bool.or_eq_true, beq_iff_eq] at hwait
    obtain ⟨⟨hz, hppid⟩, hany | hsame⟩ := hwait
    · omega
    · exact absurd hsame (h i (by simp [Process.used, hz]) hppid)

theorem first_childOf_eq_none {s : Sys} :
    s.first (Process.childOf s.current.pid) = none ↔ Childless s := by
  constructor
  · intro h i
    exact first_none h i
  · intro h
    apply List.find?_eq_none.mpr
    intro i _
    simp [h i]

/-- Waiting for a stranger fails with `ECHILD` exactly when no signal is to be delivered and the
caller has no children at all, or has no scheduler to wait on and did not ask for an answer at once.
-/
theorem waitpid_stranger_iff (s : Sys) (pid options : ℤ) (hpid : 0 < pid)
    (hstranger : Stranger s pid) :
    (sysWaitpid s pid options).1 = .ret (-echild) none ↔ s.current.pendingDelivery = none ∧
        (Childless s ∨ options = 0 ∧ s.current.coro = false) := by
  have hnone := hstranger.no_corpse hpid
  have hquiet : s.current.pendingDelivery.isSome = false ↔ s.current.pendingDelivery = none := by
    simp
  rcases sysWaitpid_cases s pid options with ⟨hintr, hrun⟩ | ⟨hcalm, ⟨i, hfound, -⟩ | ⟨-, hrest⟩⟩
  · -- interrupted
    rw [hrun]
    refine iff_of_false (by simp [eintr, echild]) fun h => ?_
    rw [h.1] at hintr
    cases hintr
  · rw [hnone] at hfound
    cases hfound
  have hcalm' := hquiet.mp hcalm
  rcases hrest with ⟨hcond, hrun⟩ | ⟨hkids, hrest⟩
  · rw [hrun]
    exact iff_of_true rfl ⟨hcalm', hcond.imp first_childOf_eq_none.mp id⟩
  have hkids' : ¬ Childless s := fun h => hkids (first_childOf_eq_none.mpr h)
  rcases hrest with ⟨hopt, hrun⟩ | ⟨-, hcoro, hrun⟩
  · rw [hrun]
    refine iff_of_false (by simp [echild]) ?_
    rintro ⟨-, h | h⟩
    · exact hkids' h
    · exact hopt h.1
  · rw [hrun]
    refine iff_of_false (by simp) ?_
    rintro ⟨-, h | h⟩
    · exact hkids' h
    · rw [hcoro] at h
      cases h.2

def initAlone : Sys := after next boot [.respawn true 1 1, .slice 1]

def initWithChild : Sys := next initAlone (.fork true 1)

instance (s : Sys) (pid : ℤ) : Decidable (Stranger s pid) :=
  inferInstanceAs (Decidable (∀ i, (s.table i).used = true → (s.table i).ppid = s.current.pid →
    (s.table i).pid ≠ pid))

instance (s : Sys) : Decidable (Childless s) :=
  inferInstanceAs (Decidable (∀ i, Process.childOf s.current.pid (s.table i) = false))

theorem waitpid_stranger_init :
    Stranger initAlone 5 ∧ (sysWaitpid initAlone 5 0).1 = .ret (-echild) none :=
  have hstranger : Stranger initAlone 5 := by decide +kernel
  ⟨hstranger, (waitpid_stranger_iff initAlone 5 0 (by decide) hstranger).mpr
    ⟨by decide +kernel, .inl (by decide +kernel)⟩⟩

/-- Pid 5 does not exist; a caller with some other child goes to sleep on it. -/
theorem waitpid_stranger_blocks :
    Stranger initWithChild 5 ∧ (sysWaitpid initWithChild 5 0).1 = .blocks := by
  decide +kernel

end Vnu.Proc
