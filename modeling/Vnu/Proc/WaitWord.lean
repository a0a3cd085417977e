import Vnu.Proc.Status

/-!
The word of `waitpid`, as the macros of `sys/wait.h` read it. The kernel hands out the bare exit
code; the macros look for it in the second byte.
-/
namespace Vnu.Proc

open Lib List Function Option

variable {g sig : Fin nsig} {c : Call} {s s' : Sys} {i : Fin maxProcs} {a : Answer}

-- `& (2 ^ k - 1)` and `>> k` of a C `int` are remainder and floor of a division by `2 ^ k`

def wifexited (s : ℤ) : Bool := s % 2 ^ 7 == 0

def wexitstatus (s : ℤ) : ℤ := s / 2 ^ 8 % 2 ^ 8

def wifsignaled (s : ℤ) : Bool := s % 2 ^ 7 != 0 && s % 2 ^ 7 != 0x7f

def wtermsig (s : ℤ) : ℤ := s % 2 ^ 7

inductive Cause where
  | exited (status : ℤ)
  | killed (sig : Fin nsig)
  deriving DecidableEq, Repr

variable {cause : Cause}

def Cause.code : Cause → ℤ
  | .exited status => status
  | .killed sig => 128 + sig

def Cause.Decodes (w : ℤ) : Cause → Prop
  | .exited status =>
    0 ≤ status → status ≤ 255 → wifexited w = true ∧ wexitstatus w = status
  | .killed sig => wifsignaled w = true ∧ wtermsig w = sig

def causeOf : Call → Option Cause
  | .exit status => some (.exited status)
  | .kill _ sig | .raise sig => (signal? sig).map .killed
  | .alarm => some (.killed sigalrm)
  | _ => none

structure Obituary where
  book : Ledger
  /-- How each process that became a corpse came to its end. -/
  causes : List (ℤ × Cause)

variable {o : Obituary}

def note (o : Obituary) (c : Call) : Obituary where
  book := record o.book c
  causes := o.causes ++ (newDead o.book.sys (next o.book.sys c)).filterMap fun r =>
    (causeOf c).map fun cause => (r.1, cause)

def Obituary.start : Obituary := ⟨Ledger.start, []⟩

def Decoded (o : Obituary) : Prop :=
  ∀ r ∈ o.book.taken, ∃ cause, (r.1, cause) ∈ o.causes ∧ cause.Decodes r.2

/-- The macros read the word right: it is 0 for an exit, or that of the signal. -/
def Cause.Fair (w : ℤ) : Cause → Prop
  | .exited status => 0 ≤ status → status ≤ 255 → status = 0 ∧ w = 0
  | .killed sig => w = 128 + sig

def found (s : Sys) (i : Fin maxProcs) (pid : ℤ) : Option (Fin maxProcs) :=
  if (s.table i).pendingDelivery.isSome then none
  else s.first (Process.waitable (s.table i).pid pid)

/-- The corpse that a call takes: that of `waitpid`, or of a slice that goes on with one. -/
def collected (s : Sys) : Call → Option (Fin maxProcs)
  | .waitpid pid _ => if s.cur = 0 then none else found s s.cur pid
  | .slice i =>
    if s.cur ≠ 0 ∨ i = 0 ∨ (s.table i).coro = false ∨ (s.table i).state ≠ .runnable then none
    else (s.table i).parked.bind fun call => found s i call.1
  | _ => none

/-- A corpse that is taken has the word of an exit with 0, or of a signal that no other has
followed. -/
def HandsFair (o : Obituary) (c : Call) : Prop :=
  ∀ i ∈ collected o.book.sys c, ∀ cause, ((o.book.sys.table i).pid, cause) ∈ o.causes →
    cause.Fair (o.book.sys.table i).exitCode

theorem signal?_pos {sig : ℤ} (h : signal? sig = some g) : 0 < (g : ℕ) := by
  unfold signal? at h
  split_ifs at h with hrange
  rw [← some.inj h]
  show 0 < sig.toNat
  omega

theorem wtermsig_killed (g : Fin nsig) : wtermsig (128 + (g : ℕ)) = (g : ℕ) := by
  have hg : (g : ℕ) < 32 := g.isLt
  unfold wtermsig
  omega

theorem wifsignaled_killed (hg : 0 < (g : ℕ)) : wifsignaled (128 + (g : ℕ)) = true := by
  have hlt : (g : ℕ) < 32 := g.isLt
  simp only [wifsignaled, Bool.and_eq_true, bne_iff_ne]
  omega

theorem wifexited_killed (hg : 0 < (g : ℕ)) : wifexited (128 + (g : ℕ)) = false := by
  have hlow := wtermsig_killed g
  unfold wtermsig at hlow
  simp only [wifexited, beq_eq_false_iff_ne]
  omega

/-- A corpse's word is its own, or one a signal has written over it. -/
def Cause.Word (cause : Cause) (w : ℤ) : Prop :=
  w = cause.code ∨ ∃ g : Fin nsig, 0 < (g : ℕ) ∧ w = 128 + (g : ℕ)

theorem Cause.decodes_iff {w : ℤ} (hw : cause.Word w)
    (hsig : ∀ g, cause = .killed g → 0 < (g : ℕ)) : cause.Decodes w ↔ cause.Fair w := by
  cases cause with
  | exited status =>
    refine forall_congr' fun hlow => forall_congr' fun hhigh => ?_
    rcases hw with rfl | ⟨g, hg, rfl⟩
    · simp only [wifexited, wexitstatus, beq_iff_eq]
      omega
    · rw [wifexited_killed hg]
      refine iff_of_false (by simp) ?_
      omega
  | killed sig =>
    have hpos := hsig sig rfl
    unfold Cause.Decodes Cause.Fair
    constructor
    · rintro ⟨-, hterm⟩
      rcases hw with rfl | ⟨g, hg, rfl⟩
      · rfl
      · rw [wtermsig_killed] at hterm
        rw [hterm]
    · rintro rfl
      exact ⟨wifsignaled_killed hpos, wtermsig_killed sig⟩

theorem causeOf_killed (h : causeOf c = some (.killed g)) : 0 < (g : ℕ) := by
  cases c with
  | kill _ sig | raise sig =>
    obtain ⟨g', hg', heq⟩ := map_eq_some_iff.mp h
    obtain rfl := Cause.killed.inj heq
    exact signal?_pos hg'
  | alarm =>
    obtain rfl := Cause.killed.inj (some.inj h)
    decide
  | exit _ => cases h
  | _ => cases h

theorem causeOf_ending (h : ending s c = some (i, sig)) : causeOf c = some (.killed sig) := by
  cases c with
  | kill pid n =>
    simp only [ending] at h
    split at h
    · rename_i g j hg _
      split_ifs at h
      obtain ⟨-, rfl⟩ := Prod.mk.inj (some.inj h)
      simp only [causeOf, hg, map_some]
    · cases h
  | _ => cases h

def corpseWord (s : Sys) (i : Fin maxProcs) : ℤ × ℤ := ((s.table i).pid, (s.table i).exitCode)

theorem handedOut_sysWaitpid (s : Sys) (pid options : ℤ) :
    handedOut (sysWaitpid s pid options).1 = ((found s s.cur pid).map (corpseWord s)).toList := by
  unfold found
  rw [show s.table s.cur = s.current from rfl]
  rcases sysWaitpid_cases s pid options with
    ⟨hintr, hrun⟩ | ⟨hquiet, ⟨i, hfound, hrun⟩ | ⟨hnone, hrun⟩⟩
  · rw [hrun, if_pos hintr]
    rfl
  · rw [hrun, if_neg (by simp [hquiet]), hfound]
    rfl
  · rw [if_neg (by simp [hquiet]), hnone]
    rcases hrun with ⟨-, hrun⟩ | ⟨-, ⟨-, hrun⟩ | ⟨-, -, hrun⟩⟩ <;> rw [hrun] <;> rfl

/-- What a slice changes before it goes on is nothing that the search for a corpse looks at. -/
theorem found_goOn (s : Sys) (i : Fin maxProcs) (pid : ℤ) :
    found (goOn s i) i pid = found s i pid ∧ corpseWord (goOn s i) = corpseWord s := by
  have hsame : ∀ j, ∃ parked chan time, (goOn s i).table j =
      { s.table j with parked := parked, waitChan := chan, sleepUntil := time } := by
    intro j
    by_cases hj : j = i
    · subst hj
      exact ⟨_, _, _, update_self _ _ _⟩
    · exact ⟨_, _, _, update_of_ne hj _ _⟩
  have hwaitable : ∀ self, (goOn s i).first (Process.waitable self pid) =
      s.first (Process.waitable self pid) := by
    intro self
    unfold Sys.first
    congr 1
    funext j
    obtain ⟨_, _, _, hj⟩ := hsame j
    rw [hj]
    rfl
  constructor
  · obtain ⟨_, _, _, hi⟩ := hsame i
    unfold found
    rw [hwaitable, hi]
    rfl
  · funext j
    obtain ⟨_, _, _, hj⟩ := hsame j
    unfold corpseWord
    rw [hj]

theorem handedOut_runSlice (s : Sys) (hcur : s.cur = 0) (i : Fin maxProcs) :
    handedOut (runSlice s i).1 = ((collected s (.slice i)).map (corpseWord s)).toList := by
  unfold runSlice
  simp only [collected, hcur, ne_eq, not_true_eq_false, false_or]
  split_ifs
  · rfl
  cases (s.table i).parked with
  | none => rfl
  | some call =>
    obtain ⟨hfound, hword⟩ := found_goOn s i call.1
    have hhanded := handedOut_sysWaitpid (goOn s i) call.1 call.2
    rw [show (goOn s i).cur = i from rfl, hfound, hword] at hhanded
    exact hhanded

theorem handedOut_signalSlot (s : Sys) (i : Fin maxProcs) (g : Fin nsig) :
    handedOut (signalSlot s i g).1 = [] := by
  unfold signalSlot
  cases (s.table i).fate g with
  | ignored | handled => rfl
  | ends =>
    dsimp only
    split_ifs <;> rfl

/-- What a step hands out is read off the corpse it takes, before the step. -/
theorem handedOut_step (s : Sys) (c : Call) :
    handedOut (step s c).1 = ((collected s c).map (corpseWord s)).toList := by
  unfold step enabled
  cases c with
  | waitpid pid options =>
    by_cases hcur : s.cur = 0
    · simp [collected, Call.anytime, Call.ofScheduler, hcur, handedOut]
    · simp only [collected, if_neg hcur]
      rw [if_pos (by simp [Call.ofScheduler, hcur])]
      exact handedOut_sysWaitpid s pid options
  | slice i =>
    by_cases hcur : s.cur = 0
    · rw [if_pos (by simp [Call.ofScheduler, hcur])]
      exact handedOut_runSlice s hcur i
    · simp [collected, Call.anytime, Call.ofScheduler, hcur, handedOut]
  | kill pid n =>
    simp only [perform, sysKill, signalKill, collected]
    split_ifs
    · rfl
    · rfl
    · split
      · rfl
      · split
        · exact handedOut_signalSlot s _ _
        · rfl
    · rfl
  | raise n =>
    simp only [perform, sysSigraise, collected]
    split_ifs
    · split
      · rfl
      · split_ifs <;> rfl
    · rfl
  | alarm =>
    simp only [perform, alarmTick, collected]
    split_ifs <;> rfl
  | _ => split_ifs <;> rfl

theorem causeOf_ownEnd {status : ℤ} (h : ownEnd s c = some status) :
    ∃ cause, causeOf c = some cause ∧ cause.code = status := by
  cases c with
  | exit status' => exact ⟨.exited status', rfl, some.inj h⟩
  | kill pid n =>
    simp only [ownEnd] at h
    split at h
    · next g i hg _ =>
      split_ifs at h
      exact ⟨.killed g, by simp [causeOf, hg], some.inj h⟩
    · cases h
  | raise n =>
    obtain ⟨g, hg, h⟩ := bind_eq_some_iff.mp h
    split_ifs at h
    exact ⟨.killed g, by simp [causeOf, hg], some.inj h⟩
  | alarm =>
    simp only [ownEnd] at h
    split_ifs at h
    exact ⟨.killed sigalrm, rfl, some.inj h⟩
  | _ => cases h

theorem step_gone (h : (step s c).1 = .gone) :
    ∃ cause, causeOf c = some cause ∧ next s c = sysExit s cause.code := by
  obtain ⟨hc, hown⟩ := step_gone_iff.mp h
  obtain ⟨status, hstatus⟩ := isSome_iff_exists.mp hown
  obtain ⟨cause, hcause, rfl⟩ := causeOf_ownEnd hstatus
  refine ⟨cause, hcause, ?_⟩
  rw [next, step, if_pos hc, perform_ownEnd hstatus]

theorem Effect.newDead_code (hs : Sound s) (h : Effect s c a s')
    (hgone : a = .gone → ∃ cause, causeOf c = some cause ∧ s' = sysExit s cause.code)
    {r : ℤ × ℤ} (hr : r ∈ newDead s s') : ∃ cause, causeOf c = some cause ∧ r.2 = cause.code := by
  obtain ⟨i, e, e', code, he, hlive, he', hdead, rfl⟩ := mem_newDead.mp hr
  obtain hv | ⟨sig, hits, hcode⟩ | ⟨status, rfl, halive, -⟩ := h.moved he he'
  · rw [hv, he] at he'
    rw [← some.inj he', hlive] at hdead
    cases hdead
  · rw [hdead] at hcode
    exact ⟨.killed sig, causeOf_ending hits, some.inj hcode⟩
  · obtain ⟨cause, hcause, rfl⟩ := hgone rfl
    refine ⟨cause, hcause, ?_⟩
    rw [(view_sysExit (hs.seated.resolve_left halive) cause.code).1] at he'
    rcases afterExit_cases he' with ⟨-, -, rfl⟩ | ⟨-, e₀, he₀, ⟨-, rfl⟩ | ⟨-, -, hlive', rfl⟩⟩
    · exact (some.inj hdead).symm
    · rw [some.inj (he.symm.trans he₀), hdead] at hlive
      cases hlive
    · rw [hlive'] at hdead
      cases hdead

structure Accounted (o : Obituary) : Prop where
  booked : Booked o.book
  corpse : ∀ i e code, view o.book.sys i = some e → e.dead = some code →
    ∃ cause, (e.pid, cause) ∈ o.causes ∧ cause.Word code
  listed : ∀ pid cause, (pid, cause) ∈ o.causes → ∃ code, (pid, code) ∈ o.book.ended
  single : ∀ pid a b, (pid, a) ∈ o.causes → (pid, b) ∈ o.causes → a = b
  real : ∀ pid g, (pid, Cause.killed g) ∈ o.causes → 0 < (g : ℕ)

theorem accounted_start : Accounted Obituary.start := by
  refine ⟨booked_start, ?_, nofun, nofun, nofun⟩
  intro i e code he hdead
  have hnone : ∀ i, (boot.table i).state ≠ .zombie := by decide
  exact absurd (core_dead he hdead).1 (hnone i)

theorem mem_causes_note {pid : ℤ} :
    (pid, cause) ∈ (note o c).causes ↔ (pid, cause) ∈ o.causes ∨
        causeOf c = some cause ∧ ∃ code, (pid, code) ∈ newDead o.book.sys (next o.book.sys c) := by
  simp only [note, mem_append, mem_filterMap, map_eq_some_iff, Prod.mk.injEq, Prod.exists]
  constructor
  · rintro (h | ⟨_, code, hmem, _, hcause, rfl, rfl⟩)
    · exact .inl h
    · exact .inr ⟨hcause, code, hmem⟩
  · rintro (h | ⟨hcause, code, hmem⟩)
    · exact .inl h
    · exact .inr ⟨pid, code, hmem, cause, hcause, rfl, rfl⟩

theorem Accounted.note (ho : Accounted o) (c : Call) : Accounted (note o c) := by
  have hs := ho.booked.sound
  have heff := step_effect hs.seated c
  refine ⟨ho.booked.record c, ?_, ?_, ?_, ?_⟩
  · intro i e' code he' hdead
    rcases heff.corpse hs he' hdead with ⟨e, old, he, hpid, hold, hcode⟩ | hnew
    · obtain ⟨cause, hmem, hword⟩ := ho.corpse i e old he hold
      rw [hpid] at hmem
      refine ⟨cause, mem_causes_note.mpr (.inl hmem), ?_⟩
      rcases hcode with rfl | ⟨sig, hits, hcode⟩
      · exact hword
      · exact .inr ⟨sig, causeOf_killed (causeOf_ending hits), hcode⟩
    · obtain ⟨cause, hcause, hcode⟩ := heff.newDead_code hs step_gone hnew
      exact ⟨cause, mem_causes_note.mpr (.inr ⟨hcause, code, hnew⟩), .inl hcode⟩
  · intro pid cause h
    rcases mem_causes_note.mp h with hold | ⟨-, code, hnew⟩
    · obtain ⟨code, hcode⟩ := ho.listed pid cause hold
      exact ⟨code, mem_append_left _ hcode⟩
    · exact ⟨code, mem_append_right _ hnew⟩
  · -- who ended before is not alive now
    have hcross : ∀ pid a code, (pid, a) ∈ o.causes →
        (pid, code) ∈ newDead o.book.sys (next o.book.sys c) → False := by
      intro pid a code hold hnew
      obtain ⟨code₀, hended⟩ := ho.listed pid a hold
      obtain ⟨i, e, e', code₁, he, hlive, he', hdead, heq⟩ := mem_newDead.mp hnew
      obtain ⟨rfl, -⟩ := Prod.mk.inj heq
      obtain ⟨e₁, he₁, hpid, -⟩ | ⟨-, hnone⟩ := (heff.onward hs).1 i e' he'
      · obtain rfl := some.inj (he.symm.trans he₁)
        exact ho.booked.alive i e he hlive _ hended hpid.symm
      · rw [hnone] at hdead
        cases hdead
    intro pid a b ha hb
    rcases mem_causes_note.mp ha with ha | ⟨ha, code, hnew⟩ <;>
      rcases mem_causes_note.mp hb with hb | ⟨hb, code', hnew'⟩
    · exact ho.single pid a b ha hb
    · exact (hcross pid a code' ha hnew').elim
    · exact (hcross pid b code hb hnew).elim
    · exact some.inj (ha.symm.trans hb)
  · intro pid g h
    rcases mem_causes_note.mp h with hold | ⟨hcause, -⟩
    · exact ho.real pid g hold
    · exact causeOf_killed hcause

theorem decoded_note_iff (ho : Accounted o) (hd : Decoded o) (c : Call) :
    Decoded (note o c) ↔ HandsFair o c := by
  have heff := step_effect ho.booked.sound.seated c
  have ho' := ho.note c
  -- what is handed out is a corpse's word
  have hcorpse : ∀ r ∈ handedOut (step o.book.sys c).1,
      ∃ cause, (r.1, cause) ∈ o.causes ∧ (cause.Decodes r.2 ↔ cause.Fair r.2) := by
    intro r hr
    obtain ⟨i, e, code, rfl, he, hdead, -⟩ := heff.mem_handed hr
    obtain ⟨cause, hmem, hword⟩ := ho.corpse i e code he hdead
    refine ⟨cause, hmem, cause.decodes_iff hword ?_⟩
    rintro g rfl
    exact ho.real e.pid g hmem
  have hhanded := handedOut_step o.book.sys c
  constructor
  · intro h i hi cause hmem
    have hr : corpseWord o.book.sys i ∈ handedOut (step o.book.sys c).1 := by
      rw [hhanded, mem_def.mp hi]
      exact mem_singleton_self _
    obtain ⟨cause', hmem', hdecodes⟩ := h _ (mem_append_right _ hr)
    obtain ⟨cause₀, hmem₀, hiff⟩ := hcorpse _ hr
    obtain rfl := ho.single _ _ _ hmem hmem₀
    obtain rfl := ho'.single _ _ _ (mem_causes_note.mpr (.inl hmem)) hmem'
    exact hiff.mp hdecodes
  · intro h r hr
    rcases mem_append.mp hr with hold | hnew
    · obtain ⟨cause, hmem, hdecodes⟩ := hd r hold
      exact ⟨cause, mem_causes_note.mpr (.inl hmem), hdecodes⟩
    · obtain ⟨cause, hmem, hiff⟩ := hcorpse r hnew
      rw [hhanded, mem_toList, map_eq_some_iff] at hnew
      obtain ⟨i, hi, rfl⟩ := hnew
      exact ⟨cause, mem_causes_note.mpr (.inl hmem), hiff.mpr (h i hi cause hmem)⟩

/-- Every word `waitpid` hands out says how the child ended exactly when it is of a child that
exited with 0 (or with what is no byte) or that a signal ended, and no other fatal signal hit the
corpse. -/
theorem wait_words_iff (cs : List Call) :
    Always note Decoded Obituary.start cs ↔ Throughout note HandsFair Obituary.start cs := by
  have hkeeps : ∀ o c, Accounted o → Accounted (note o c) := fun o c ho => ho.note c
  exact always_iff_throughout hkeeps (fun o c ho hd => decoded_note_iff ho hd c) accounted_start
    nofun cs

/-- A child exits with 3, and its parent is told that signal 3 ended it. -/
theorem exit_three_reads_as_signal :
    (after note Obituary.start
      [.respawn true 1 1, .slice 1, .fork true 1, .yield, .slice 2, .exit 3, .slice 1,
        .waitpid 2 0]).causes = [(2, .exited 3)] ∧
    (after note Obituary.start
      [.respawn true 1 1, .slice 1, .fork true 1, .yield, .slice 2, .exit 3, .slice 1,
        .waitpid 2 0]).book.taken = [(2, 3)] ∧
    wifexited 3 = false ∧ wifsignaled 3 = true ∧ wtermsig 3 = 3 := by
  decide +kernel

end Vnu.Proc
