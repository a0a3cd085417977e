import Vnu.Lib.History
import Vnu.Proc.Sound

/-!
Parents. Every process names the scheduler or a live process as its parent, until a signal ends
another process: that looks neither at its children nor at its parent.
-/
namespace Vnu.Proc

open Lib Function Option

variable {i j : Fin maxProcs} {e : Core} {code : ℤ}

def Parented (s : Sys) : Prop :=
  ∀ i, (s.table i).used = true →
    (s.table i).ppid = 0 ∨ ∃ j, (s.table j).live = true ∧ (s.table j).pid = (s.table i).ppid

instance (s : Sys) : Decidable (Parented s) :=
  inferInstanceAs (Decidable (∀ i, (s.table i).used = true →
    (s.table i).ppid = 0 ∨ ∃ j, (s.table j).live = true ∧ (s.table j).pid = (s.table i).ppid))

/-- Every corpse has a live parent that takes it when it waits with no signal in the way. -/
def Collectable (s : Sys) : Prop :=
  ∀ i, (s.table i).state = .zombie →
    ∃ j, j ≠ 0 ∧ (s.table j).live = true ∧ (s.table j).pid = (s.table i).ppid ∧
      ((s.table j).pendingDelivery = none → ∀ options,
        (sysWaitpid { s with cur := j } (s.table i).pid options).1 =
          .ret (s.table i).pid (some (s.table i).exitCode))

def Lined (s : Sys) : Prop :=
  ∀ i e, view s i = some e →
    (e.ppid = 0 ∨ ∃ j f, view s j = some f ∧ f.dead = none ∧ f.pid = e.ppid) ∧
      (e.dead ≠ none → e.ppid ≠ 0)

theorem used_iff {s : Sys} : (s.table i).used = true ↔ ∃ e, view s i = some e := by
  constructor
  · intro h
    cases hv : view s i with
    | some e => exact ⟨e, rfl⟩
    | none =>
      rw [core_eq_none.mp hv] at h
      cases h
  · rintro ⟨e, he⟩
    exact (core_fields he).2.2.2

theorem sysWaitpid_finds {s : Sys} (hs : Sound s)
    (hz : (s.table i).state = .zombie) (hpid : (s.table j).pid = (s.table i).ppid)
    (hquiet : (s.table j).pendingDelivery = none) (options : ℤ) :
    (sysWaitpid { s with cur := j } (s.table i).pid options).1 =
      .ret (s.table i).pid (some (s.table i).exitCode) := by
  have hself : ({ s with cur := j } : Sys).current = s.table j := rfl
  have hwait : Process.waitable (s.table j).pid (s.table i).pid (s.table i) = true := by
    simp [Process.waitable, hz, hpid]
  rcases sysWaitpid_cases { s with cur := j } (s.table i).pid options with
    ⟨hintr, -⟩ | ⟨-, ⟨k, hfound, hrun⟩ | ⟨hnone, -⟩⟩
  · rw [hself, hquiet] at hintr
    cases hintr
  · have hk := first_some hfound
    simp only [Process.waitable, Bool.and_eq_true, Bool.or_eq_true, beq_iff_eq] at hk
    have hcore := core_of_zombie hz
    have hpos : (s.table i).pid ≠ -1 := by
      by_cases hi : i = 0
      · obtain ⟨e, he, hzero, -⟩ := hs.sched
        rw [hi, ← (core_fields he).1, hzero]
        decide
      · have hfresh : 0 < (s.table i).pid := (hs.fresh.2 i _ hi hcore).1
        omega
    have hki : k = i := hs.apart k i _ _ (core_of_zombie hk.1.1) hcore (hk.2.resolve_left hpos)
    rw [hrun, hki]
  · have hfalse := first_none hnone i
    rw [hself] at hfalse
    rw [hfalse] at hwait
    cases hwait

theorem lined_iff {s : Sys} (hs : Sound s) : Parented s ∧ Collectable s ↔ Lined s := by
  constructor
  · rintro ⟨hp, hc⟩ i e he
    obtain ⟨-, hppid, -, hused⟩ := core_fields he
    refine ⟨?_, ?_⟩
    · rw [hppid]
      rcases hp i hused with hzero | ⟨j, hlive, hpid⟩
      · exact .inl hzero
      · exact .inr ⟨j, _, core_of_live hlive, rfl, hpid⟩
    · intro hdead
      obtain ⟨code, hcode⟩ := ne_none_iff_exists'.mp hdead
      obtain ⟨j, hj, hlive, hpid, -⟩ := hc i (core_dead he hcode).1
      have hpos := (hs.fresh.2 j _ hj (core_of_live hlive)).1
      rw [hppid, ← hpid]
      exact ne_of_gt hpos
  · intro hl
    refine ⟨?_, ?_⟩
    · intro i hused
      obtain ⟨e, he⟩ := used_iff.mp hused
      rw [← (core_fields he).2.1]
      rcases (hl i e he).1 with hzero | ⟨j, f, hf, hdead, hpid⟩
      · exact .inl hzero
      · exact .inr ⟨j, core_live hf hdead, by rw [← (core_fields hf).1, hpid]⟩
    intro i hz
    obtain ⟨hparent, hppid⟩ := hl i _ (core_of_zombie hz)
    have hne : (s.table i).ppid ≠ 0 := hppid (by simp)
    obtain ⟨j, f, hf, hdead, hpid⟩ := hparent.resolve_left hne
    have hpid' : (s.table j).pid = (s.table i).ppid := by
      rw [← (core_fields hf).1, hpid]
    refine ⟨j, ?_, core_live hf hdead, hpid', fun hquiet options =>
      sysWaitpid_finds hs hz hpid' hquiet options⟩
    rintro rfl
    obtain ⟨e₀, he₀, hzero, -⟩ := hs.sched
    rw [← (core_fields he₀).1, hzero] at hpid'
    exact hne hpid'.symm

/-- A process ended by another has a parent to take it and no children; one that ends itself is not
its own parent. -/
def Spares (s : Sys) (c : Call) : Prop :=
  (∀ i sig, ending s c = some (i, sig) →
    (s.table i).ppid ≠ 0 ∧ ∀ k, (s.table k).used = true → (s.table k).ppid ≠ (s.table i).pid) ∧
  (enabled s c = true → (ownEnd s c).isSome = true → s.current.ppid ≠ s.current.pid)

theorem adopter_cases (s : Sys) (dead : ℤ) :
    adopter s dead = 0 ∨ ∃ k f, view s k = some f ∧ f.dead = none ∧ f.pid = adopter s dead ∧
      f.pid ≠ dead := by
  unfold adopter
  cases s.initSlot with
  | none => exact .inl rfl
  | some k =>
    simp only
    split_ifs with h
    · exact .inr ⟨k, _, core_of_live h.2.2.2, rfl, rfl, h.2.2.1⟩
    · exact .inl rfl

theorem afterExit_live {s : Sys} (status : ℤ) {f : Core}
    (hf : view s j = some f) (hdead : f.dead = none) (hpid : f.pid ≠ s.current.pid) :
    ∃ g, afterExit s status j = some g ∧ g.dead = none ∧ g.pid = f.pid := by
  have hj : j ≠ s.cur := by
    rintro rfl
    exact hpid (core_fields hf).1
  unfold afterExit
  rw [if_neg hj, hf, bind_some]
  split_ifs with hkeep hsome
  · exact ⟨f, rfl, hdead, rfl⟩
  · rw [hdead] at hsome
    cases hsome
  · exact ⟨_, rfl, hdead, rfl⟩

section

variable {s s' : Sys}

theorem Lined.same (hl : Lined s) (h : Same s s') : Lined s' := by
  unfold Lined
  rw [h.view]
  exact hl

theorem Lined.born (hs : Sound s) (hl : Lined s) (hfree : view s i = none)
    (hview : view s' = update (view s) i
      (some ⟨s.nextPid, s.current.pid, none, true⟩)) : Lined s' := by
  -- whoever was there is there still
  have hold : ∀ j f, view s j = some f → view s' j = some f := by
    intro j f hf
    have hj : j ≠ i := by
      rintro rfl
      rw [hfree] at hf
      cases hf
    rw [hview, update_of_ne hj]
    exact hf
  intro j e he
  by_cases hj : j = i
  · subst hj
    rw [hview, update_self] at he
    obtain rfl := some.inj he
    refine ⟨?_, by simp⟩
    rcases hs.current with ⟨-, hzero⟩ | ⟨f, hf, hdead, hpid, -⟩
    · exact .inl hzero
    · exact .inr ⟨s.cur, f, hold _ f hf, hdead, hpid⟩
  · rw [hview, update_of_ne hj] at he
    obtain ⟨hparent, hcorpse⟩ := hl j e he
    refine ⟨hparent.imp id ?_, hcorpse⟩
    rintro ⟨k, f, hf, hrest⟩
    exact ⟨k, f, hold k f hf, hrest⟩

theorem Lined.reaped (hl : Lined s) (hcorpse : view s i = some e) (hdead : e.dead = some code)
    (hview : view s' = update (view s) i none) : Lined s' := by
  intro j f hf
  have hj : j ≠ i := by
    rintro rfl
    rw [hview, update_self] at hf
    cases hf
  rw [hview, update_of_ne hj] at hf
  obtain ⟨hparent, hrest⟩ := hl j f hf
  refine ⟨hparent.imp id ?_, hrest⟩
  rintro ⟨k, g, hg, hlive, hpid⟩
  have hk : k ≠ i := by
    rintro rfl
    rw [some.inj (hg.symm.trans hcorpse), hdead] at hlive
    cases hlive
  exact ⟨k, g, by rw [hview, update_of_ne hk]; exact hg, hlive, hpid⟩

/-- A process that another one ends keeps its children, and stays a corpse without a parent. -/
theorem lined_ended_iff (hs : Sound s) (hl : Lined s) (hi : view s i = some e)
    (hview : view s' = update (view s) i (some { e with dead := some code })) :
    Lined s' ↔ e.ppid ≠ 0 ∧ ∀ k f, view s k = some f → f.ppid ≠ e.pid := by
  have hat : view s' i = some { e with dead := some code } := by
    rw [hview, update_self]
  have hold : ∀ k, k ≠ i → view s' k = view s k := by
    intro k hk
    rw [hview, update_of_ne hk]
  constructor
  · intro hl'
    have hppid : e.ppid ≠ 0 := (hl' i _ hat).2 (by simp)
    refine ⟨hppid, ?_⟩
    intro k f hf hnames
    -- the entry of `k` names the corpse, and no live process has its pid
    have hnobody : ¬ ∃ j g, view s' j = some g ∧ g.dead = none ∧ g.pid = e.pid := by
      rintro ⟨j, g, hg, hlive, hpid⟩
      by_cases hj : j = i
      · subst hj
        rw [← some.inj (hat.symm.trans hg)] at hlive
        cases hlive
      · exact hj (hs.apart j i g e (by rw [← hold j hj]; exact hg) hi hpid)
    have hpid : e.pid ≠ 0 := by
      intro hzero
      obtain ⟨e₀, he₀, -, hppid₀⟩ := hs.sched
      have hi₀ := hs.pid_eq_zero hi hzero
      subst hi₀
      exact hppid (by rw [← some.inj (he₀.symm.trans hi), hppid₀])
    by_cases hk : k = i
    · subst hk
      obtain rfl := some.inj (hi.symm.trans hf)
      rcases (hl' k _ hat).1 with hzero | hex
      · exact hppid hzero
      · rw [show ({ e with dead := some code } : Core).ppid = e.pid from hnames] at hex
        exact hnobody hex
    · rcases (hl' k f (by rw [hold k hk]; exact hf)).1 with hzero | hex
      · exact hpid (hnames.symm.trans hzero)
      · rw [hnames] at hex
        exact hnobody hex
  · rintro ⟨hppid, hnone⟩
    have hkeep : ∀ f : Core, f.ppid ≠ e.pid →
        (∃ j g, view s j = some g ∧ g.dead = none ∧ g.pid = f.ppid) →
        ∃ j g, view s' j = some g ∧ g.dead = none ∧ g.pid = f.ppid := by
      rintro f hne ⟨j, g, hg, hlive, hpid⟩
      have hj : j ≠ i := by
        rintro rfl
        rw [some.inj (hg.symm.trans hi)] at hpid
        exact hne hpid.symm
      exact ⟨j, g, by rw [hold j hj]; exact hg, hlive, hpid⟩
    intro k f hf
    by_cases hk : k = i
    · subst hk
      obtain rfl := some.inj (hat.symm.trans hf)
      exact ⟨(hl k e hi).1.imp id (hkeep e (hnone k e hi)), fun _ => hppid⟩
    · rw [hold k hk] at hf
      exact ⟨(hl k f hf).1.imp id (hkeep f (hnone k f hf)), (hl k f hf).2⟩

/-- An exit hands its children on; only a process that is its own parent breaks the order. -/
theorem lined_exited_iff (hs : Sound s) (hl : Lined s) (hs' : Sound s') {status : ℤ}
    (hcur : s.cur ≠ 0) (hview : view s' = afterExit s status) :
    Lined s' ↔ s.current.ppid ≠ s.current.pid := by
  obtain ⟨e, he, hlive, hpid, hppid⟩ := hs.current.resolve_left fun h => hcur h.1
  have hpos : s.current.pid ≠ 0 := by
    rw [← hpid]
    exact ne_of_gt (hs.fresh.2 s.cur e hcur he).1
  constructor
  · intro hl' hself
    have hme : view s' s.cur =
        some ⟨s.current.pid, s.current.ppid, some status, s.current.coro⟩ := by
      rw [hview, afterExit, if_pos rfl, if_neg (by rw [hself]; exact hpos)]
    rcases (hl' _ _ hme).1 with hzero | ⟨j, g, hg, hdead, hg_pid⟩
    · exact hpos (hself.symm.trans hzero)
    · have hj := hs'.apart j s.cur g _ hg hme (hg_pid.trans hself)
      subst hj
      rw [← some.inj (hme.symm.trans hg)] at hdead
      cases hdead
  intro hself
  have hstays : ∀ ppid : ℤ, ppid ≠ s.current.pid →
      (∃ j f, view s j = some f ∧ f.dead = none ∧ f.pid = ppid) →
      ∃ j f, view s' j = some f ∧ f.dead = none ∧ f.pid = ppid := by
    rintro ppid hne ⟨j, f, hf, hdead, rfl⟩
    obtain ⟨g, hg, hgdead, hgpid⟩ := afterExit_live status hf hdead hne
    exact ⟨j, g, by rw [hview]; exact hg, hgdead, hgpid⟩
  intro j f hf
  rw [hview] at hf
  rcases afterExit_cases hf with ⟨-, hne, rfl⟩ | ⟨-, f₀, hf₀, ⟨hkeep, rfl⟩ | ⟨-, -, hdead, rfl⟩⟩
  · refine ⟨.inr ?_, fun _ => hne⟩
    apply hstays _ hself
    rw [← hppid] at hne ⊢
    exact (hl s.cur e he).1.resolve_left hne
  · obtain ⟨hparent, hcorpse⟩ := hl j f hf₀
    refine ⟨?_, hcorpse⟩
    rcases hkeep with hj | hne
    · subst hj
      obtain ⟨e₀, he₀, -, hzero⟩ := hs.sched
      exact .inl (by rw [← some.inj (he₀.symm.trans hf₀), hzero])
    · exact hparent.imp id (hstays _ hne)
  · refine ⟨?_, fun h => absurd hdead h⟩
    rcases adopter_cases s s.current.pid with hzero | ⟨k, g, hg, hgdead, hgpid, hne⟩
    · exact .inl hzero
    · refine .inr (hstays _ ?_ ⟨k, g, hg, hgdead, hgpid⟩)
      rw [← hgpid]
      exact hne

end

theorem spares_of_quiet {s : Sys} {c : Call} (hspares : ending s c = none)
    (hgone : (step s c).1 ≠ .gone) : Spares s c := by
  refine ⟨fun i sig hits => ?_, fun hc hown => absurd (step_gone_iff.mpr ⟨hc, hown⟩) hgone⟩
  rw [hspares] at hits
  cases hits

theorem lined_next_iff {s : Sys} (hs : Sound s) (hl : Lined s) (c : Call) :
    Lined (next s c) ↔ Spares s c := by
  have heff := step_effect hs.seated c
  have hs' := sound_next hs c
  generalize hans : (step s c).1 = a at heff
  have hnotGone : a.quiet = true → (step s c).1 ≠ .gone := by
    rintro hquiet hgone
    rw [← hans, hgone] at hquiet
    cases hquiet
  cases heff with
  | same hquiet hspares hsame _ =>
    exact iff_of_true (hl.same hsame) (spares_of_quiet hspares (hnotGone hquiet))
  | born i hquiet hspares _ hfree hview _ _ =>
    exact iff_of_true (hl.born hs hfree hview) (spares_of_quiet hspares (hnotGone hquiet))
  | reaped i e code hspares hcorpse hdead _ _ hview _ _ =>
    refine iff_of_true (hl.reaped hcorpse hdead hview) (spares_of_quiet hspares ?_)
    rw [hans]
    simp
  | ended i e sig hits hvictim hother hview _ _ =>
    rw [lined_ended_iff hs hl hvictim hview]
    obtain ⟨hpid, hppid, -, -⟩ := core_fields hvictim
    have hkids : (∀ k f, view s k = some f → f.ppid ≠ e.pid) ↔
        ∀ k, (s.table k).used = true → (s.table k).ppid ≠ (s.table i).pid := by
      rw [← hpid]
      constructor
      · intro h k hused
        obtain ⟨f, hf⟩ := used_iff.mp hused
        rw [← (core_fields hf).2.1]
        exact h k f hf
      · intro h k f hf
        rw [(core_fields hf).2.1]
        exact h k (core_fields hf).2.2.2
    rw [hkids, hppid]
    constructor
    · intro h
      refine ⟨fun j g hj => ?_, fun hc hown => ?_⟩
      · obtain ⟨rfl, -⟩ := Prod.mk.inj (some.inj (hits.symm.trans hj))
        exact h
      · have hgone := step_gone_iff.mpr ⟨hc, hown⟩
        rw [hans] at hgone
        cases hgone
    · intro h
      exact h.1 i sig hits
  | exited status hspares halive hview _ _ =>
    rw [lined_exited_iff hs hl hs' halive hview]
    constructor
    · intro h
      refine ⟨fun i sig hits => ?_, fun _ _ => h⟩
      rw [hspares] at hits
      cases hits
    · intro h
      obtain ⟨hc, hown⟩ := step_gone_iff.mp hans
      exact h.2 hc hown

theorem lined_boot : Lined boot := by
  have hview : ∀ i, view boot i = if i = 0 then some ⟨0, 0, none, false⟩ else none := by decide
  intro i e he
  rw [hview] at he
  split_ifs at he with hi
  obtain rfl := some.inj he
  exact ⟨.inl rfl, by simp⟩

/-- Every process always has the scheduler or a live process as its parent, and every corpse a
parent that takes it, exactly when no step ends another process that has children or that only the
scheduler could take, and no process exits that is its own parent. -/
theorem parented_iff (cs : List Call) :
    Always next (fun s => Parented s ∧ Collectable s) boot cs ↔ Throughout next Spares boot cs := by
  have hkeeps : ∀ s c, Sound s → Sound (next s c) := fun s c hs => sound_next hs c
  refine always_iff_throughout hkeeps ?_ sound_boot ((lined_iff sound_boot).mpr lined_boot) cs
  intro s c hs hp
  rw [lined_iff (sound_next hs c)]
  exact lined_next_iff hs ((lined_iff hs).mp hp) c

/-- Init ends a process that has forked; its child names a corpse. -/
theorem kill_orphans_child :
    ¬ Parented (after next boot
      [.respawn true 1 1, .slice 1, .fork true 1, .yield, .slice 2, .fork true 1, .yield, .slice 1,
        .kill 2 9]) := by
  decide +kernel

end Vnu.Proc
