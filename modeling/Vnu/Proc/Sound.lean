import Vnu.Proc.Effects

/-!
What every history keeps: a pid names one process, and only a live process has the CPU.
-/
namespace Vnu.Proc

open Function Option

variable {s s' : Sys} {i : Fin maxProcs} {status : ℤ} {e : Core}

structure Sound (s : Sys) : Prop where
  sched : ∃ e, view s 0 = some e ∧ e.pid = 0 ∧ e.ppid = 0
  fresh : 0 < s.nextPid ∧ ∀ i e, i ≠ 0 → view s i = some e → 0 < e.pid ∧ e.pid < s.nextPid
  apart : ∀ i j e f, view s i = some e → view s j = some f → e.pid = f.pid → i = j
  seated : Seated s

theorem sound_boot : Sound boot := by
  have hview : ∀ i, view boot i = if i = 0 then some ⟨0, 0, none, false⟩ else none := by decide
  refine ⟨⟨_, hview 0, rfl, rfl⟩, ⟨by decide, ?_⟩, ?_, .inl rfl⟩
  · intro i e hi he
    rw [hview, if_neg hi] at he
    cases he
  · intro i j e f he hf _
    rw [hview] at he hf
    split_ifs at he hf with hi hj
    rw [hi, hj]

def Descends (s s' : Sys) : Prop :=
  ∀ i e, view s' i = some e → ∃ e₀, view s i = some e₀ ∧ e.pid = e₀.pid

theorem Sound.descends (hs : Sound s) (h : Descends s s') (hnext : s'.nextPid = s.nextPid)
    (hsched : ∃ e, view s' 0 = some e ∧ e.pid = 0 ∧ e.ppid = 0) (hseat : Seated s') : Sound s' := by
  refine ⟨hsched, ⟨by rw [hnext]; exact hs.fresh.1, ?_⟩, ?_, hseat⟩
  · intro i e hi he
    obtain ⟨e₀, he₀, hpid⟩ := h i e he
    rw [hpid, hnext]
    exact hs.fresh.2 i e₀ hi he₀
  · intro i j e f he hf hpid
    obtain ⟨e₀, he₀, hpe⟩ := h i e he
    obtain ⟨f₀, hf₀, hpf⟩ := h j f hf
    exact hs.apart i j e₀ f₀ he₀ hf₀ (by rw [← hpe, ← hpf, hpid])

theorem descends_update {r : Option Core} (hview : view s' = Function.update (view s) i r)
    (hr : ∀ e, r = some e → ∃ e₀, view s i = some e₀ ∧ e.pid = e₀.pid) : Descends s s' := by
  intro j e he
  rw [hview] at he
  by_cases hj : j = i
  · subst hj
    rw [update_self] at he
    exact hr e he
  · rw [update_of_ne hj] at he
    exact ⟨e, he, rfl⟩

theorem afterExit_cases {j : Fin maxProcs} (h : afterExit s status j = some e) :
    (j = s.cur ∧ s.current.ppid ≠ 0 ∧
      e = ⟨s.current.pid, s.current.ppid, some status, s.current.coro⟩) ∨
    j ≠ s.cur ∧ ∃ e₀, view s j = some e₀ ∧ (((j = 0 ∨ e₀.ppid ≠ s.current.pid) ∧ e = e₀) ∨
        (j ≠ 0 ∧ e₀.ppid = s.current.pid ∧ e₀.dead = none ∧
          e = { e₀ with ppid := adopter s s.current.pid })) := by
  unfold afterExit at h
  by_cases hj : j = s.cur
  · rw [if_pos hj] at h
    split_ifs at h with hp
    exact .inl ⟨hj, hp, (some.inj h).symm⟩
  rw [if_neg hj] at h
  obtain ⟨e₀, he₀, hrest⟩ := bind_eq_some_iff.mp h
  refine .inr ⟨hj, e₀, he₀, ?_⟩
  split_ifs at hrest with hkeep hdead
  · exact .inl ⟨hkeep, (some.inj hrest).symm⟩
  · simp only [not_or, not_not] at hkeep
    exact .inr ⟨hkeep.1, hkeep.2, by simpa using hdead, (some.inj hrest).symm⟩

theorem descends_exit (hseat : Seat (view s) s.cur)
    (hview : view s' = afterExit s status) : Descends s s' := by
  intro j e he
  rw [hview] at he
  rcases afterExit_cases he with ⟨rfl, -, rfl⟩ | ⟨-, e₀, he₀, ⟨-, rfl⟩ | ⟨-, -, -, rfl⟩⟩
  · obtain ⟨f, hf, -, -⟩ := hseat
    exact ⟨f, hf, (core_fields hf).1.symm⟩
  · exact ⟨e, he₀, rfl⟩
  · exact ⟨e₀, he₀, rfl⟩

theorem Sound.pid_lt (hs : Sound s) (he : view s i = some e) : e.pid < s.nextPid := by
  by_cases hi : i = 0
  · subst hi
    obtain ⟨e₀, he₀, hzero, -⟩ := hs.sched
    rw [← some.inj (he₀.symm.trans he), hzero]
    exact hs.fresh.1
  · exact (hs.fresh.2 i e hi he).2

/-- Pids stay distinct, whatever slot a new process takes. -/
theorem Effect.sound {c : Call} {a : Answer} (hs : Sound s) (h : Effect s c a s') : Sound s' := by
  cases h with
  | same _ _ hsame hseat =>
    refine hs.descends ?_ hsame.next (by rw [hsame.view]; exact hs.sched) hseat
    intro i e he
    exact ⟨e, by rw [← hsame.view]; exact he, rfl⟩
  | born i _ _ hi hfree hview hnext hcur =>
    have hold : ∀ j e, view s' j = some e → j = i ∧ e.pid = s.nextPid ∨ view s j = some e := by
      intro j e he
      rw [hview] at he
      by_cases hj : j = i
      · subst hj
        rw [update_self] at he
        exact .inl ⟨rfl, by rw [← some.inj he]⟩
      · rw [update_of_ne hj] at he
        exact .inr he
    refine ⟨?_, ⟨by rw [hnext]; have := hs.fresh.1; omega, ?_⟩, ?_, ?_⟩
    · obtain ⟨e, he, hrest⟩ := hs.sched
      exact ⟨e, by rw [hview, update_of_ne (Ne.symm hi)]; exact he, hrest⟩
    · intro j e hj he
      have hpos := hs.fresh.1
      rcases hold j e he with ⟨-, hpid⟩ | he₀
      · rw [hpid]
        omega
      · have hrange := hs.fresh.2 j e hj he₀
        omega
    · intro j k e f he hf hpid
      rcases hold j e he with ⟨hj, hpe⟩ | he₀ <;> rcases hold k f hf with ⟨hk, hpf⟩ | hf₀
      · rw [hj, hk]
      · have := hs.pid_lt hf₀
        omega
      · have := hs.pid_lt he₀
        omega
      · exact hs.apart j k e f he₀ hf₀ hpid
    · unfold Seated
      rw [hcur]
      rcases hs.seated with hzero | ⟨e, he, hrest⟩
      · exact .inl hzero
      refine .inr ⟨e, ?_, hrest⟩
      have hne : s.cur ≠ i := by
        rintro rfl
        rw [hfree] at he
        cases he
      rw [hview, update_of_ne hne]
      exact he
  | reaped i e code _ hcorpse hdead hasks hparent hview hnext hseat =>
    refine hs.descends (descends_update hview (by simp)) hnext ?_ hseat
    -- the corpse is not the scheduler's slot: its parent is a process
    obtain ⟨f, hf, hppid⟩ := hparent
    have hpos := (hs.fresh.2 _ f hasks hf).1
    obtain ⟨e₀, he₀, hrest⟩ := hs.sched
    have hne : (0 : Fin maxProcs) ≠ i := by
      rintro rfl
      have hzero := hrest.2
      rw [some.inj (he₀.symm.trans hcorpse)] at hzero
      omega
    exact ⟨e₀, by rw [hview, update_of_ne hne]; exact he₀, hrest⟩
  | ended i e sig _ hvictim hother hview hnext hcur =>
    have hsched : ∃ e, view s' 0 = some e ∧ e.pid = 0 ∧ e.ppid = 0 := by
      obtain ⟨e₀, he₀, hrest⟩ := hs.sched
      rw [hview]
      by_cases hi : 0 = i
      · subst hi
        obtain rfl := some.inj (he₀.symm.trans hvictim)
        exact ⟨_, rfl, hrest⟩
      · exact ⟨e₀, by rw [update_of_ne hi]; exact he₀, hrest⟩
    have hseat : Seated s' := by
      unfold Seated
      rw [hcur, hview]
      refine hs.seated.imp id ?_
      rintro ⟨f, hf, hrest⟩
      exact ⟨f, by rw [update_of_ne (Ne.symm hother)]; exact hf, hrest⟩
    refine hs.descends (descends_update hview ?_) hnext hsched hseat
    intro f hf
    exact ⟨e, hvictim, by rw [← some.inj hf]⟩
  | exited status _ halive hview hnext hcur =>
    have hseat := hs.seated.resolve_left halive
    refine hs.descends (descends_exit hseat hview) hnext ?_ (.inl hcur)
    obtain ⟨e₀, he₀, hrest⟩ := hs.sched
    refine ⟨e₀, ?_, hrest⟩
    rw [hview, afterExit, if_neg (Ne.symm halive), he₀]
    rfl

theorem sound_next (hs : Sound s) (c : Call) : Sound (next s c) :=
  (step_effect hs.seated c).sound hs

theorem Sound.pid_eq_zero (hs : Sound s) (he : view s i = some e) (hpid : e.pid = 0) : i = 0 := by
  obtain ⟨e₀, he₀, hzero, -⟩ := hs.sched
  exact hs.apart i 0 e e₀ he he₀ (by rw [hpid, hzero])

theorem Sound.current (hs : Sound s) :
    (s.cur = 0 ∧ s.current.pid = 0) ∨ ∃ e, view s s.cur = some e ∧ e.dead = none ∧
      e.pid = s.current.pid ∧ e.ppid = s.current.ppid := by
  rcases hs.seated with hzero | ⟨e, he, hdead, -⟩
  · obtain ⟨e, he, hpid, -⟩ := hs.sched
    refine .inl ⟨hzero, ?_⟩
    rw [← hpid, (core_fields he).1, Sys.current, hzero]
  · exact .inr ⟨e, he, hdead, (core_fields he).1, (core_fields he).2.1⟩

end Vnu.Proc
