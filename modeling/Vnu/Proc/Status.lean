import Vnu.Lib.History
import Vnu.Proc.Sound

/-!
Exit statuses. A ledger notes with which status each process ended and what `waitpid` handed out; a
fatal signal changes the status of a corpse.
-/
namespace Vnu.Proc

open Lib List Function Option

variable {s s' : Sys} {c : Call} {a : Answer}

structure Ledger where
  sys : Sys
  /-- The pid and the status of every process that became a corpse, as of that moment. -/
  ended : List (ℤ × ℤ)
  /-- What successful calls of `waitpid` returned. -/
  taken : List (ℤ × ℤ)

variable {l : Ledger}

def newDead (s s' : Sys) : List (ℤ × ℤ) :=
  (finRange maxProcs).filterMap fun i =>
    if (s.table i).live ∧ (s'.table i).state = .zombie then
      some ((s'.table i).pid, (s'.table i).exitCode)
    else none

def handedOut : Answer → List (ℤ × ℤ)
  | .ret r (some code) => [(r, code)]
  | _ => []

def record (l : Ledger) (c : Call) : Ledger where
  sys := next l.sys c
  ended := l.ended ++ newDead l.sys (next l.sys c)
  taken := l.taken ++ handedOut (step l.sys c).1

def Ledger.start : Ledger := ⟨boot, [], []⟩

structure Truthful (l : Ledger) : Prop where
  stands : ∀ i, (l.sys.table i).state = .zombie →
    ((l.sys.table i).pid, (l.sys.table i).exitCode) ∈ l.ended
  handed : ∀ r ∈ l.taken, r ∈ l.ended
  once : (l.taken.map Prod.fst).Nodup
  single : ∀ pid code code', (pid, code) ∈ l.ended → (pid, code') ∈ l.ended → code = code'

/-- No fatal signal goes to a corpse, unless it would write the same status. -/
def RespectsDead (l : Ledger) (c : Call) : Prop :=
  ∀ i sig, ending l.sys c = some (i, sig) →
    (l.sys.table i).state = .zombie → (l.sys.table i).exitCode = 128 + sig

theorem mem_newDead {r : ℤ × ℤ} :
    r ∈ newDead s s' ↔ ∃ i e e' code, view s i = some e ∧ e.dead = none ∧
      view s' i = some e' ∧ e'.dead = some code ∧ r = (e'.pid, code) := by
  unfold newDead
  rw [mem_filterMap]
  constructor
  · rintro ⟨i, -, hi⟩
    split_ifs at hi with h
    exact ⟨i, _, _, _, core_of_live h.1, rfl, core_of_zombie h.2, rfl, (some.inj hi).symm⟩
  · rintro ⟨i, e, e', code, he, hlive, he', hdead, rfl⟩
    obtain ⟨hz, hcode⟩ := core_dead he' hdead
    refine ⟨i, mem_finRange i, ?_⟩
    rw [if_pos ⟨core_live he hlive, hz⟩, hcode, (core_fields he').1]

structure Booked (l : Ledger) : Prop where
  sound : Sound l.sys
  past : ∀ r ∈ l.ended, r.1 < l.sys.nextPid
  given : ∀ r ∈ l.taken, r.1 < l.sys.nextPid
  alive : ∀ i e, view l.sys i = some e → e.dead = none → ∀ r ∈ l.ended, r.1 ≠ e.pid
  present : ∀ i e, view l.sys i = some e → ∀ r ∈ l.taken, r.1 ≠ e.pid

def Stands (l : Ledger) : Prop :=
  ∀ i e code, view l.sys i = some e → e.dead = some code → (e.pid, code) ∈ l.ended

theorem stands_iff :
    (∀ i, (l.sys.table i).state = .zombie →
      ((l.sys.table i).pid, (l.sys.table i).exitCode) ∈ l.ended) ↔ Stands l := by
  constructor
  · intro h i e code he hdead
    obtain ⟨hz, hcode⟩ := core_dead he hdead
    rw [(core_fields he).1, ← hcode]
    exact h i hz
  · intro h i hz
    exact h i _ _ (core_of_zombie hz) rfl

def Onward (s s' : Sys) : Prop :=
  ∀ i e', view s' i = some e' →
    (∃ e, view s i = some e ∧ e.pid = e'.pid ∧ (e.dead ≠ none → e'.dead ≠ none)) ∨
      e'.pid = s.nextPid ∧ e'.dead = none

theorem onward_update {i : Fin maxProcs} {r : Option Core} (hview : view s' = update (view s) i r)
    (hr : ∀ e', r = some e' →
      (∃ e, view s i = some e ∧ e.pid = e'.pid ∧ (e.dead ≠ none → e'.dead ≠ none)) ∨
        e'.pid = s.nextPid ∧ e'.dead = none) : Onward s s' := by
  intro j e' he'
  rw [hview] at he'
  by_cases hj : j = i
  · subst hj
    rw [update_self] at he'
    exact hr e' he'
  · rw [update_of_ne hj] at he'
    exact .inl ⟨e', he', rfl, id⟩

theorem Effect.onward (hs : Sound s)
    (h : Effect s c a s') : Onward s s' ∧ s.nextPid ≤ s'.nextPid := by
  cases h with
  | same _ _ hsame _ =>
    refine ⟨fun i e he => .inl ⟨e, ?_, rfl, id⟩, hsame.next.ge⟩
    rw [← hsame.view]
    exact he
  | born i _ _ _ _ hview hnext _ =>
    refine ⟨onward_update hview ?_, by omega⟩
    intro e' he'
    rw [← some.inj he']
    exact .inr ⟨rfl, rfl⟩
  | reaped i e code _ _ _ _ _ hview hnext _ =>
    exact ⟨onward_update hview (by simp), hnext.ge⟩
  | ended i e sig _ hvictim _ hview hnext _ =>
    refine ⟨onward_update hview ?_, hnext.ge⟩
    intro e' he'
    rw [← some.inj he']
    exact .inl ⟨e, hvictim, rfl, by simp⟩
  | exited status _ halive hview hnext _ =>
    refine ⟨?_, hnext.ge⟩
    intro j e' he'
    rw [hview] at he'
    rcases afterExit_cases he' with ⟨rfl, -, rfl⟩ | ⟨-, e₀, he₀, ⟨-, rfl⟩ | ⟨-, -, hdead, rfl⟩⟩
    · obtain ⟨f, hf, -, -⟩ := hs.seated.resolve_left halive
      exact .inl ⟨f, hf, (core_fields hf).1, by simp⟩
    · exact .inl ⟨e', he₀, rfl, id⟩
    · exact .inl ⟨e₀, he₀, rfl, id⟩

theorem Effect.moved (h : Effect s c a s') {i : Fin maxProcs} {e e' : Core}
    (he : view s i = some e) (he' : view s' i = some e') :
    view s' i = view s i ∨
      (∃ sig, ending s c = some (i, sig) ∧ e'.dead = some (128 + (sig : ℕ) : ℤ)) ∨
      ∃ status, a = .gone ∧ s.cur ≠ 0 ∧ view s' = afterExit s status := by
  cases h with
  | same _ _ hsame _ => exact .inl (by rw [hsame.view])
  | born j _ _ _ hfree hview _ _ =>
    refine .inl ?_
    rw [hview, update_of_ne]
    rintro rfl
    rw [hfree] at he
    cases he
  | reaped j _ _ _ _ _ _ _ hview _ _ =>
    refine .inl ?_
    rw [hview, update_of_ne]
    rintro rfl
    rw [hview, update_self] at he'
    cases he'
  | ended j f sig hits hvictim _ hview _ _ =>
    by_cases hij : i = j
    · subst hij
      rw [hview, update_self] at he'
      exact .inr (.inl ⟨sig, hits, by rw [← some.inj he']⟩)
    · exact .inl (by rw [hview, update_of_ne hij])
  | exited status _ halive hview _ _ => exact .inr (.inr ⟨status, rfl, halive, hview⟩)

/-- The code of a corpse changes only under a fatal signal. -/
theorem Effect.corpse (hs : Sound s) (h : Effect s c a s') {i : Fin maxProcs} {e' : Core}
    {code : ℤ} (he' : view s' i = some e') (hdead : e'.dead = some code) :
    (∃ e old, view s i = some e ∧ e.pid = e'.pid ∧ e.dead = some old ∧
      (code = old ∨ ∃ sig, ending s c = some (i, sig) ∧ code = 128 + (sig : ℕ))) ∨
    (e'.pid, code) ∈ newDead s s' := by
  -- nobody is born dead, so somebody with this pid was there
  obtain ⟨e, he, hpid, -⟩ | ⟨-, hnone⟩ := (h.onward hs).1 i e' he'
  swap
  · rw [hnone] at hdead
    cases hdead
  cases hold : e.dead with
  | none => exact .inr (mem_newDead.mpr ⟨i, e, e', code, he, hold, he', hdead, rfl⟩)
  | some old =>
    refine .inl ⟨e, old, he, hpid, hold, ?_⟩
    have hkept : view s' i = view s i → code = old := by
      intro hv
      rw [hv, he] at he'
      rw [← some.inj he', hold] at hdead
      exact (some.inj hdead).symm
    obtain hv | ⟨sig, hits, hcode⟩ | ⟨status, -, halive, hview⟩ := h.moved he he'
    · exact .inl (hkept hv)
    · rw [hdead] at hcode
      exact .inr ⟨sig, hits, some.inj hcode⟩
    · refine .inl (hkept ?_)
      rw [hview] at he' ⊢
      rcases afterExit_cases he' with ⟨rfl, -, -⟩ | ⟨-, e₀, he₀, ⟨-, rfl⟩ | ⟨-, -, hlive, -⟩⟩
      · obtain ⟨f, hf, hlive, -⟩ := hs.seated.resolve_left halive
        rw [some.inj (he.symm.trans hf), hlive] at hold
        cases hold
      · rw [he', he₀]
      · rw [some.inj (he.symm.trans he₀), hlive] at hold
        cases hold

theorem Effect.handed (h : Effect s c a s') :
    handedOut a = [] ∨ ∃ i e code, handedOut a = [(e.pid, code)] ∧ view s i = some e ∧
      e.dead = some code ∧ view s' = update (view s) i none := by
  cases h with
  | same hquiet _ _ _ | born _ hquiet _ _ _ _ _ _ =>
    left
    rcases a with ⟨r, _ | code⟩ | _ | _ <;> first | rfl | cases hquiet
  | reaped i e code _ hcorpse hdead _ _ hview _ _ =>
    exact .inr ⟨i, e, code, rfl, hcorpse, hdead, hview⟩
  | ended _ _ _ _ _ _ _ _ _ | exited _ _ _ _ _ _ => exact .inl rfl

theorem Effect.mem_handed (h : Effect s c a s') {r : ℤ × ℤ} (hr : r ∈ handedOut a) :
    ∃ i e code, r = (e.pid, code) ∧ view s i = some e ∧ e.dead = some code ∧
      view s' = update (view s) i none := by
  rcases h.handed with hnil | ⟨i, e, code, hout, hrest⟩
  · rw [hnil] at hr
    cases hr
  · rw [hout, mem_singleton] at hr
    exact ⟨i, e, code, hr, hrest⟩

theorem Booked.record (hl : Booked l) (c : Call) : Booked (record l c) := by
  have hs := hl.sound
  have hs' := sound_next hs c
  have heff := step_effect hs.seated c
  obtain ⟨honward, hnext⟩ := heff.onward hs
  have hdeadlt : ∀ r ∈ newDead l.sys (next l.sys c), r.1 < l.sys.nextPid := by
    intro r hr
    obtain ⟨i, e, e', code, he, hlive, he', hdead, rfl⟩ := mem_newDead.mp hr
    rcases honward i e' he' with ⟨e₀, he₀, hpid, -⟩ | ⟨-, hnone⟩
    · rw [← hpid]
      exact hs.pid_lt he₀
    · rw [hnone] at hdead
      cases hdead
  refine ⟨hs', ?_, ?_, ?_, ?_⟩
  · intro r hr
    rcases mem_append.mp hr with hr | hr
    · exact lt_of_lt_of_le (hl.past r hr) hnext
    · exact lt_of_lt_of_le (hdeadlt r hr) hnext
  · intro r hr
    rcases mem_append.mp hr with hr | hr
    · exact lt_of_lt_of_le (hl.given r hr) hnext
    obtain ⟨i, e, code, rfl, he, -, -⟩ := heff.mem_handed hr
    exact lt_of_lt_of_le (hs.pid_lt he) hnext
  · intro i e' he' hlive r hr hpid
    rcases mem_append.mp hr with hr | hr
    · rcases honward i e' he' with ⟨e, he, hsame, hkeep⟩ | ⟨hnew, -⟩
      · refine hl.alive i e he ?_ r hr (hpid.trans hsame.symm)
        by_contra hdead
        exact hkeep hdead hlive
      · have := hl.past r hr
        omega
    · obtain ⟨j, -, f, code, -, -, hf, hdead, rfl⟩ := mem_newDead.mp hr
      have hij := hs'.apart j i f e' hf he' hpid
      subst hij
      rw [some.inj (hf.symm.trans he'), hlive] at hdead
      cases hdead
  · intro i e' he' r hr hpid
    rcases mem_append.mp hr with hr | hr
    · rcases honward i e' he' with ⟨e, he, hsame, -⟩ | ⟨hnew, -⟩
      · exact hl.present i e he r hr (hpid.trans hsame.symm)
      · have := hl.given r hr
        omega
    obtain ⟨k, f, code, rfl, hf, -, hview⟩ := heff.mem_handed hr
    have hk : i ≠ k := by
      rintro rfl
      have he₀ : view (next l.sys c) i = some e' := he'
      rw [hview, update_self] at he₀
      cases he₀
    rcases honward i e' he' with ⟨e, he, hsame, -⟩ | ⟨hnew, -⟩
    · exact hk (hs.apart i k e f he hf (by rw [hsame, ← hpid]))
    · have := hs.pid_lt hf
      omega

theorem Stands.same (hl : Stands l)
    (hsame : ∀ i e' code, view s' i = some e' → e'.dead = some code →
      (∃ e, view l.sys i = some e ∧ e.pid = e'.pid ∧ e.dead = some code) ∨
        (e'.pid, code) ∈ newDead l.sys s') (taken : List (ℤ × ℤ)) :
    Stands ⟨s', l.ended ++ newDead l.sys s', taken⟩ := by
  intro i e' code he' hdead
  rcases hsame i e' code he' hdead with ⟨e, he, hpid, hcode⟩ | hnew
  · rw [← hpid]
    exact mem_append_left _ (hl i e code he hcode)
  · exact mem_append_right _ hnew

/-- A fatal signal writes its own status over that of a corpse. -/
theorem stands_record_iff (hb : Booked l) (hl : Truthful l) (c : Call) :
    Stands (record l c) ↔ RespectsDead l c := by
  have hs := hb.sound
  have heff := step_effect hs.seated c
  have hstands : Stands l := stands_iff.mp hl.stands
  unfold record
  generalize (step l.sys c).1 = a at heff ⊢
  generalize next l.sys c = s' at heff ⊢
  constructor
  · intro hst i sig hits hz
    obtain ⟨e, hvictim, hview⟩ : ∃ e, view l.sys i = some e ∧ view s' =
          update (view l.sys) i (some { e with dead := some (128 + (sig : ℤ)) }) := by
      cases heff with
      | ended j e g hits' hvictim _ hview _ _ =>
        obtain ⟨rfl, rfl⟩ := Prod.mk.inj (some.inj (hits'.symm.trans hits))
        exact ⟨e, hvictim, hview⟩
      | same _ hspares _ _ | born _ _ hspares _ _ _ _ _ | reaped _ _ _ hspares _ _ _ _ _ _ _
      | exited _ hspares _ _ _ _ =>
        cases hspares.symm.trans hits
    have hold : (e.pid, (l.sys.table i).exitCode) ∈ l.ended := by
      rw [(core_fields hvictim).1]
      exact hl.stands i hz
    have hnew := hst i _ _ (by rw [hview, update_self]) rfl
    rcases mem_append.mp hnew with hmem | hmem
    · exact hl.single _ _ _ hold hmem
    -- the victim was a corpse before: the step made nobody one
    obtain ⟨j, f, f', code, hf, hlive, hf', hdead, -⟩ := mem_newDead.mp hmem
    by_cases hj : j = i
    · subst hj
      exact absurd hz (live_not_zombie (core_live hf hlive))
    · rw [hview, update_of_ne hj, hf] at hf'
      rw [← some.inj hf', hlive] at hdead
      cases hdead
  · intro hr
    refine hstands.same (fun j e' code he' hdead => ?_) _
    obtain ⟨e, old, he, hpid, hold, rfl | ⟨sig, hits, hcode⟩⟩ | hnew := heff.corpse hs he' hdead
    · exact .inl ⟨e, he, hpid, hold⟩
    · obtain ⟨hz, hexit⟩ := core_dead he hold
      exact .inl ⟨e, he, hpid, by rw [hold, hcode, ← hexit, hr j sig hits hz]⟩
    · exact .inr hnew

/-- The rest of the ledger stays true whatever happens, as long as the corpses do. -/
theorem Truthful.record (hb : Booked l) (hl : Truthful l) (c : Call)
    (hst : Stands (record l c)) : Truthful (record l c) := by
  have heff := step_effect hb.sound.seated c
  have hs' := sound_next hb.sound c
  have hstands : Stands l := stands_iff.mp hl.stands
  refine ⟨stands_iff.mpr hst, ?_, ?_, ?_⟩
  · intro r hr
    rcases mem_append.mp hr with hr | hr
    · exact mem_append_left _ (hl.handed r hr)
    obtain ⟨i, e, code, rfl, he, hdead, -⟩ := heff.mem_handed hr
    exact mem_append_left _ (hstands i e code he hdead)
  · show ((l.taken ++ handedOut (step l.sys c).1).map Prod.fst).Nodup
    rcases heff.handed with hnil | ⟨i, e, code, hout, he, -, -⟩
    · rw [hnil, append_nil]
      exact hl.once
    rw [hout, map_append, map_singleton, nodup_append]
    refine ⟨hl.once, nodup_singleton _, ?_⟩
    intro p hp q hq
    obtain ⟨r, hr, rfl⟩ := mem_map.mp hp
    rw [mem_singleton] at hq
    rw [hq]
    exact hb.present i e he r hr
  -- a pid in both parts was alive before the step and had ended
  have hcross : ∀ pid code code', (pid, code) ∈ l.ended →
      (pid, code') ∈ newDead l.sys (next l.sys c) → False := by
    intro pid code code' hold hnew
    obtain ⟨i, e, e', code₀, he, hlive, he', hdead, heq⟩ := mem_newDead.mp hnew
    obtain ⟨rfl, -⟩ := Prod.mk.inj heq
    rcases (heff.onward hb.sound).1 i e' he' with ⟨e₁, he₁, hpid, -⟩ | ⟨-, hnone⟩
    · obtain rfl := some.inj (he.symm.trans he₁)
      exact hb.alive i e he hlive _ hold hpid.symm
    · rw [hnone] at hdead
      cases hdead
  intro pid code code' h h'
  rcases mem_append.mp h with h | h <;> rcases mem_append.mp h' with h' | h'
  · exact hl.single pid code code' h h'
  · exact (hcross pid code code' h h').elim
  · exact (hcross pid code' code h' h).elim
  obtain ⟨i, -, e, d, -, -, he, hdead, heq⟩ := mem_newDead.mp h
  obtain ⟨j, -, f, d', -, -, hf, hdead', heq'⟩ := mem_newDead.mp h'
  obtain ⟨rfl, rfl⟩ := Prod.mk.inj heq
  obtain ⟨hpid, rfl⟩ := Prod.mk.inj heq'
  have hij := hs'.apart i j e f he hf hpid
  subst hij
  rw [some.inj (he.symm.trans hf), hdead'] at hdead
  exact (some.inj hdead).symm

theorem truthful_record_iff (hb : Booked l) (hl : Truthful l) (c : Call) :
    Truthful (record l c) ↔ RespectsDead l c := by
  rw [← stands_record_iff hb hl c]
  exact ⟨fun h => stands_iff.mp h.stands, fun h => hl.record hb c h⟩

theorem booked_start : Booked Ledger.start :=
  ⟨sound_boot, by simp [Ledger.start], by simp [Ledger.start], by simp [Ledger.start],
    by simp [Ledger.start]⟩

theorem truthful_start : Truthful Ledger.start := by
  refine ⟨?_, by simp [Ledger.start], by simp [Ledger.start], by simp [Ledger.start]⟩
  have hnone : ∀ i, (boot.table i).state ≠ .zombie := by decide
  intro i hz
  exact absurd hz (hnone i)

/-- Every corpse keeps the status it ended with, and `waitpid` hands out each once, exactly when no
fatal signal is sent to a corpse with another status. -/
theorem status_kept_iff (cs : List Call) :
    Always record Truthful Ledger.start cs ↔ Throughout record RespectsDead Ledger.start cs := by
  have hkeeps : ∀ l c, Booked l → Booked (record l c) := fun l c hb => hb.record c
  exact always_iff_throughout hkeeps (fun l c hb hl => truthful_record_iff hb hl c) booked_start
    truthful_start cs

/-- A child exits with 0; a late `SIGKILL` makes it 137. -/
theorem killed_corpse_changes_status :
    (after record Ledger.start
      [.respawn true 1 1, .slice 1, .fork true 1, .yield, .slice 2, .exit 0, .slice 1, .kill 2 9,
        .waitpid 2 0]).ended = [(2, 0)] ∧
    (after record Ledger.start
      [.respawn true 1 1, .slice 1, .fork true 1, .yield, .slice 2, .exit 0, .slice 1, .kill 2 9,
        .waitpid 2 0]).taken = [(2, 137)] := by
  decide +kernel

end Vnu.Proc
