import Mathlib.Data.List.GetD
import Mathlib.Data.List.InsertIdx
import Mathlib.Data.List.Perm.Basic
import Vnu.Lib.Objects
import Vnu.Vash.Fnmatch

/-!
The positional parameters across function calls. Neither the copies nor the arguments of running
calls share an address with the table, so no call reads a string that was freed.
-/
namespace Vnu.Vash.Params

open Lib Lib.Objects List Option

variable {m : Objects Text} {argv G : List (ℕ × Text)}

def maxParams : ℕ := 63

structure CallSeen where
  args : List Text
  before : Option (List Text)
  entered : Option (List Text)
  after : Option (List Text)

structure Shell where
  mem : Objects Text
  /-- `store[1]` to `store[63]`; 0 is no string. -/
  slots : List ℕ
  /-- `store[0]`. -/
  zero : ℕ
  /-- `sh_argv` is the table and no longer null. -/
  hasArgv : Bool
  argc : ℕ
  /-- Strings of the rest of the shell. -/
  own : List ℕ
  log : List CallSeen

def Shell.params (s : Shell) : Option (List Text) := (s.slots.take s.argc).mapM s.mem.obj

variable (A : Allocator Text)

def fillSlots : List ℕ → List ℕ → Objects Text → Option (List ℕ × Objects Text)
  | [], _, m => some ([], m)
  | p :: slots, [], m =>
    (m.free p).bind fun m => (fillSlots slots [] m).map fun r => (0 :: r.1, r.2)
  | p :: slots, q :: argv, m =>
    (m.free p).bind fun m =>
      (m.obj q).bind fun t =>
        (fillSlots slots argv (alloc A t m).2).map fun r => ((alloc A t m).1 :: r.1, r.2)

def shellName : Text := [ch 'v', ch 'a', ch 's', ch 'h']

def nameZero (s : Shell) : Shell :=
  if s.zero = 0 then
    { s with zero := (alloc A shellName s.mem).1, mem := (alloc A shellName s.mem).2 }
  else s

def shSetParams (argv : List ℕ) (s : Shell) : Option Shell :=
  (fillSlots A s.slots argv s.mem).map fun r =>
    { nameZero A { s with slots := r.1, mem := r.2 } with
      hasArgv := true, argc := min argv.length maxParams }

def saveParams (s : Shell) : Option (List ℕ × Objects Text) :=
  if s.hasArgv then copyAll A (s.zero :: s.slots.take s.argc) s.mem else some ([], s.mem)

inductive Prog where
  | done
  /-- `set -- args`. -/
  | set (args : List Text) (rest : Prog)
  | call (args : List Text) (body rest : Prog)
  /-- The rest of the shell allocates a string. -/
  | take (t : Text) (rest : Prog)
  /-- The rest of the shell frees a string of its own. -/
  | give (i : ℕ) (rest : Prog)

def expandArgs (args : List Text) (m : Objects Text) : List ℕ × Objects Text :=
  allocAll A (args.take maxParams) m

def leaveCall (saved given : List ℕ) (s : Shell) : Option Shell :=
  (shSetParams A saved.tail s).bind fun s =>
    (freeAll saved s.mem).bind fun m => (freeAll given m).map fun m => { s with mem := m }

def run : Prog → Shell → Option Shell
  | .done, s => some s
  | .set args rest, s =>
    (shSetParams A (expandArgs A args s.mem).1 { s with mem := (expandArgs A args s.mem).2 }).bind
      (run rest)
  | .call args body rest, s =>
    (saveParams A s).bind fun saved =>
      (shSetParams A (expandArgs A args saved.2).1
          { s with mem := (expandArgs A args saved.2).2 }).bind fun entered =>
        (run body entered).bind fun returned =>
          (leaveCall A saved.1 (expandArgs A args saved.2).1 returned).bind fun left =>
            run rest
              { left with log := left.log ++ [⟨args, s.params, entered.params, left.params⟩] }
  | .take t rest, s =>
    run rest { s with mem := (alloc A t s.mem).2, own := (alloc A t s.mem).1 :: s.own }
  | .give i rest, s =>
    ((s.mem.free (s.own.getD i 0)).map fun m => { s with mem := m, own := s.own.eraseIdx i }).bind
      (run rest)

def Prog.calls : Prog → List (List Text)
  | .done => []
  | .set _ rest => rest.calls
  | .call args body rest => body.calls ++ args :: rest.calls
  | .take _ rest => rest.calls
  | .give _ rest => rest.calls

def start (m : Objects Text) : Shell := ⟨m, replicate maxParams 0, 0, false, 0, [], []⟩

/-- The table, `$0`, the rest of the shell and `frame` are all in use and all different. -/
structure Owned (s : Shell) (cells zero own frame : List (ℕ × Text)) : Prop where
  slots : s.slots = cells.map Prod.fst ++ replicate (maxParams - cells.length) 0
  few : cells.length ≤ maxParams
  argc : s.argc = cells.length
  named : s.hasArgv = true ∧ zero.map Prod.fst = [s.zero] ∨
    s.hasArgv = false ∧ cells = [] ∧ zero = [] ∧ s.zero = 0
  owns : s.own = own.map Prod.fst
  holds : Holds s.mem (cells ++ (zero ++ (own ++ frame)))

variable {A} {s : Shell} {cells zero own frame : List (ℕ × Text)}

theorem owned_start (m : Objects Text) : Owned (start m) [] [] [] [] :=
  ⟨by simp [start], by simp, rfl, .inr ⟨rfl, rfl, rfl, rfl⟩, rfl, ⟨by simp, by simp, by simp⟩⟩

namespace Owned

theorem take_slots (h : Owned s cells zero own frame) :
    s.slots.take s.argc = cells.map Prod.fst := by
  rw [h.slots, h.argc, take_left' (length_map _)]

theorem params (h : Owned s cells zero own frame) : s.params = some (cells.map Prod.snd) := by
  rw [Shell.params, h.take_slots]
  exact h.holds.mapM_obj fun c hc => mem_append_left _ hc

theorem reframe (h : Owned s cells zero own frame)
    {frame' : List (ℕ × Text)} (hm : Holds m (cells ++ (zero ++ (own ++ frame')))) :
    Owned { s with mem := m } cells zero own frame' :=
  ⟨h.slots, h.few, h.argc, h.named, h.owns, hm⟩

end Owned

theorem perm_frame (new cells zero own frame : List (ℕ × Text)) :
    (new ++ (cells ++ (zero ++ (own ++ frame)))).Perm
      (cells ++ (zero ++ (own ++ (new ++ frame)))) := by
  simp only [← append_assoc]
  refine Perm.append_right frame ?_
  simp only [append_assoc]
  refine (perm_append_comm).trans ?_
  simp only [append_assoc]
  exact Perm.refl _

/-- The old strings are freed before the new ones are copied, which are others. -/
theorem fillSlots_holds {slots : List ℕ} {cells : List (ℕ × Text)}
    (hslots : slots.filter (· ≠ 0) = cells.map Prod.fst) (hm : Holds m (cells ++ G))
    (hargv : ∀ c ∈ argv, c ∈ G) :
    ∃ new m', fillSlots A slots (argv.map Prod.fst) m =
        some (new.map Prod.fst ++ replicate (slots.length - new.length) 0, m') ∧
      new.map Prod.snd = (argv.map Prod.snd).take slots.length ∧ Holds m' (new ++ G) := by
  induction slots generalizing cells argv G m with
  | nil =>
    obtain rfl : cells = [] := by simpa using hslots.symm
    exact ⟨[], m, rfl, rfl, hm⟩
  | cons p slots ih =>
    obtain ⟨cells', m₁, hrest, hfree, hm₁⟩ : ∃ cells' m₁,
        slots.filter (· ≠ 0) = cells'.map Prod.fst ∧ m.free p = some m₁ ∧
          Holds m₁ (cells' ++ G) := by
      by_cases hp : p = 0
      · exact ⟨cells, m, by simpa [hp] using hslots, by simp [Objects.free, hp], hm⟩
      rw [filter_cons_of_pos (by simpa using hp)] at hslots
      cases cells with
      | nil => cases hslots
      | cons c cells =>
        obtain ⟨hc, hrest⟩ := cons.inj hslots
        obtain ⟨m₁, hfree, hm₁⟩ := Holds.free hm
        exact ⟨cells, m₁, hrest, hc ▸ hfree, hm₁⟩
    cases argv with
    | nil =>
      obtain ⟨new, m', hrun, hsnd, hm'⟩ := ih hrest hm₁ (forall_mem_nil _)
      obtain rfl : new = [] := by simpa using hsnd
      refine ⟨[], m', ?_, by simp, hm'⟩
      simp only [map_nil] at hrun
      simp [fillSlots, hfree, hrun, replicate_succ]
    | cons d argv =>
      have hlive := hm₁.live d (mem_append_right _ (hargv d mem_cons_self))
      have hmoved : Holds (alloc A d.2 m₁).2 (cells' ++ ((alloc A d.2 m₁).1, d.2) :: G) :=
        (hm₁.alloc d.2).perm perm_middle.symm
      obtain ⟨new, m', hrun, hsnd, hm'⟩ := ih hrest hmoved fun e he =>
        mem_cons_of_mem _ (hargv e (mem_cons_of_mem d he))
      refine ⟨((alloc A d.2 m₁).1, d.2) :: new, m', ?_, ?_, hm'.perm perm_middle⟩
      · simp [fillSlots, hfree, hlive, hrun]
      · simp [hsnd]

theorem shSetParams_owned (h : Owned s cells zero own frame) (hargv : ∀ c ∈ argv, c ∈ frame) :
    ∃ s' new zero', shSetParams A (argv.map Prod.fst) s = some s' ∧
      Owned s' new zero' own frame ∧ new.map Prod.snd = (argv.map Prod.snd).take maxParams ∧
      s'.log = s.log := by
  have hfilled : s.slots.filter (· ≠ 0) = cells.map Prod.fst := by
    rw [h.slots, filter_append, filter_replicate_of_neg (by simp), append_nil, filter_eq_self]
    intro p hp
    obtain ⟨c, hc, rfl⟩ := mem_map.1 hp
    simpa using h.holds.nonzero c (mem_append_left _ hc)
  have hall : s.slots.length = maxParams := by
    have hfew := h.few
    simp only [h.slots, length_append, length_map, length_replicate]
    omega
  obtain ⟨new, m', hrun, hsnd, hm'⟩ := fillSlots_holds (A := A) hfilled h.holds fun c hc =>
    mem_append_right _ (mem_append_right _ (hargv c hc))
  rw [hall] at hrun hsnd
  have hlen : new.length = min argv.length maxParams := by
    have hlengths := congrArg length hsnd
    simp only [length_map, length_take] at hlengths
    omega
  have hset : shSetParams A (argv.map Prod.fst) s = some
      { nameZero A { s with
          slots := new.map Prod.fst ++ replicate (maxParams - new.length) 0, mem := m' } with
        hasArgv := true, argc := min argv.length maxParams } := by
    rw [shSetParams, hrun, map_some, length_map]
  obtain ⟨hyes, hzero⟩ | ⟨hno, -, rfl, hzero⟩ := h.named
  · have hne : s.zero ≠ 0 := by
      obtain ⟨c, hc⟩ : ∃ c, zero = [c] := by
        rw [← length_eq_one_iff]
        simpa using congrArg length hzero
      have hmem : c ∈ cells ++ (zero ++ (own ++ frame)) := by simp [hc]
      have hfst : c.1 = s.zero := by simpa [hc] using hzero
      exact hfst ▸ h.holds.nonzero c hmem
    rw [nameZero, if_neg hne] at hset
    exact ⟨_, new, zero, hset, ⟨rfl, by omega, hlen.symm, .inl ⟨rfl, hzero⟩, h.owns, hm'⟩, hsnd,
      rfl⟩
  · rw [nameZero, if_pos hzero] at hset
    exact ⟨_, new, [((alloc A shellName m').1, shellName)], hset,
      ⟨rfl, by omega, hlen.symm, .inl ⟨rfl, rfl⟩, h.owns,
        (hm'.alloc shellName).perm perm_middle.symm⟩, hsnd, rfl⟩

theorem saveParams_owned (h : Owned s cells zero own frame) :
    ∃ saved m', saveParams A s = some (saved.map Prod.fst, m') ∧
      saved.tail.map Prod.snd = cells.map Prod.snd ∧
      Owned { s with mem := m' } cells zero own (saved ++ frame) := by
  obtain ⟨hyes, hzero⟩ | ⟨hno, rfl, rfl, -⟩ := h.named
  · obtain ⟨c, hc⟩ : ∃ c, zero = [c] := by
      rw [← length_eq_one_iff]
      simpa using congrArg length hzero
    subst hc
    have hfst : c.1 = s.zero := by simpa using hzero
    obtain ⟨saved, m', hrun, hsnd, hm'⟩ := h.holds.copyAll (A := A) (by
      intro d (hd : d ∈ c :: cells)
      obtain rfl | hd := mem_cons.1 hd
      · simp
      · exact mem_append_left _ hd)
    refine ⟨saved, m', ?_, ?_, h.reframe (hm'.perm (perm_frame saved cells [c] own frame))⟩
    · rw [saveParams, if_pos hyes, h.take_slots, ← hfst, ← map_cons, hrun]
    · rw [map_tail, hsnd, map_cons, tail_cons]
  · refine ⟨[], s.mem, ?_, by simp, h⟩
    rw [saveParams, if_neg (by simp [hno])]
    rfl

theorem expandArgs_owned (h : Owned s cells zero own frame) (args : List Text) :
    ∃ given, (expandArgs A args s.mem).1 = given.map Prod.fst ∧
      given.map Prod.snd = args.take maxParams ∧
      Owned { s with mem := (expandArgs A args s.mem).2 } cells zero own (given ++ frame) := by
  obtain ⟨given, hfst, hsnd, hm⟩ := h.holds.allocAll (A := A) (args.take maxParams)
  exact ⟨given, hfst, hsnd, h.reframe (hm.perm (perm_frame given cells zero own frame))⟩

def CallSeen.Kept (r : CallSeen) : Prop :=
  r.after = r.before ∧ r.before ≠ none ∧ r.entered = some (r.args.take maxParams)

theorem leaveCall_owned {saved given : List (ℕ × Text)}
    (h : Owned s cells zero own (given ++ (saved ++ frame)))
    (hfew : saved.tail.length ≤ maxParams) :
    ∃ s' cells' zero', leaveCall A (saved.map Prod.fst) (given.map Prod.fst) s = some s' ∧
      Owned s' cells' zero' own frame ∧ cells'.map Prod.snd = saved.tail.map Prod.snd ∧
      s'.log = s.log := by
  obtain ⟨s₁, cells', zero', hset, hs₁, hsnd, hlog⟩ := shSetParams_owned (A := A) h
    fun c (hc : c ∈ saved.tail) =>
      mem_append_right _ (mem_append_left _ (mem_of_mem_tail hc))
  have hall : Holds s₁.mem (saved ++ (given ++ (cells' ++ (zero' ++ (own ++ frame))))) := by
    refine hs₁.holds.perm ?_
    refine (perm_frame given cells' zero' own (saved ++ frame)).symm.trans ?_
    refine ((perm_frame saved cells' zero' own frame).symm.append_left given).trans ?_
    simp only [← append_assoc]
    exact (perm_append_comm.append_right _).append_right _ |>.append_right _
      |>.append_right _
  obtain ⟨m₁, hfree, hm₁⟩ := hall.freeAll
  obtain ⟨m₂, hfree', hm₂⟩ := hm₁.freeAll
  refine ⟨{ s₁ with mem := m₂ }, cells', zero', ?_, hs₁.reframe hm₂, ?_, hlog⟩
  · rw [leaveCall, ← map_tail, hset, bind_some, hfree, bind_some, hfree', map_some]
  · rw [hsnd, take_of_length_le (by simpa using hfew)]

theorem free_own {i : ℕ} (h : Owned s cells zero own frame) :
    ∃ m', s.mem.free (s.own.getD i 0) = some m' ∧
      Owned { s with mem := m', own := s.own.eraseIdx i } cells zero (own.eraseIdx i) frame := by
  have herase : s.own.eraseIdx i = (own.eraseIdx i).map Prod.fst := by
    rw [h.owns, eraseIdx_map]
  by_cases hi : i < own.length
  · have hget : s.own.getD i 0 = own[i].1 := by simp [h.owns, hi]
    have hsplit : (cells ++ (zero ++ (own ++ frame))).Perm
        (own[i] :: (cells ++ (zero ++ (own.eraseIdx i ++ frame)))) := by
      have hown := (getElem_cons_eraseIdx_perm hi).symm
      have hall := ((hown.append_right frame).append_left zero).append_left cells
      exact hall.trans ((perm_middle.append_left cells).trans perm_middle)
    obtain ⟨m', hfree, hm'⟩ := (h.holds.perm hsplit).free
    exact ⟨m', by rw [hget, hfree], h.slots, h.few, h.argc, h.named, herase, hm'⟩
  · have hget : s.own.getD i 0 = 0 := by
      rw [h.owns, getD_eq_default]
      simpa using hi
    have hsame : own.eraseIdx i = own := eraseIdx_of_length_le (by omega)
    refine ⟨s.mem, by rw [hget, Objects.free, if_pos rfl], h.slots, h.few, h.argc,
      h.named, herase, ?_⟩
    rw [hsame]
    exact h.holds

/-- Ownership goes through a call and back: both copies of the parameters are dropped. -/
theorem run_owned (prog : Prog) (h : Owned s cells zero own frame) :
    ∃ s' cells' zero' own' seen, run A prog s = some s' ∧ Owned s' cells' zero' own' frame ∧
      s'.log = s.log ++ seen ∧ seen.map CallSeen.args = prog.calls ∧ ∀ r ∈ seen, r.Kept := by
  induction prog generalizing s cells zero own frame with
  | done => exact ⟨s, cells, zero, own, [], rfl, h, by simp, rfl, by simp⟩
  | set args rest ih =>
    obtain ⟨given, hfst, -, hgiven⟩ := expandArgs_owned (A := A) h args
    obtain ⟨s₁, cells₁, zero₁, hset, hs₁, -, hlog₁⟩ := shSetParams_owned (A := A) hgiven
      fun c (hc : c ∈ given) => mem_append_left _ hc
    -- the strings of the builtin's own arguments are not freed
    have hdrop : Owned s₁ cells₁ zero₁ own frame :=
      hs₁.reframe (hs₁.holds.sublist (((sublist_append_right given frame).append_left
        own).append_left zero₁ |>.append_left cells₁))
    rw [run, hfst, hset, bind_some, ← hlog₁]
    exact ih hdrop
  | call args body rest ihbody ihrest =>
    obtain ⟨saved, m₁, hsave, hsavedText, hs₁⟩ := saveParams_owned (A := A) h
    obtain ⟨given, hfst, hgivenText, hs₂⟩ := expandArgs_owned (A := A) hs₁ args
    obtain ⟨entered, cells₃, zero₃, hset, hs₃, htext₃, hlog₃⟩ := shSetParams_owned (A := A) hs₂
      fun c (hc : c ∈ given) => mem_append_left _ hc
    obtain ⟨returned, cells₄, zero₄, own₄, seen₄, hrun₄, hs₄, hlog₄, hcalls₄, hkept₄⟩ := ihbody hs₃
    have hfew : saved.tail.length ≤ maxParams := by
      have hlengths := congrArg length hsavedText
      rw [length_map, length_map] at hlengths
      rw [hlengths]
      exact h.few
    obtain ⟨left, cells₅, zero₅, hleave, hs₅, htext₅, hlog₅⟩ := leaveCall_owned (A := A) hs₄ hfew
    obtain ⟨s', cells', zero', own', seen, hrun, hs', hlog, hcalls, hkept⟩ := ihrest
      (s := { left with log := left.log ++ [⟨args, s.params, entered.params, left.params⟩] })
      ⟨hs₅.slots, hs₅.few, hs₅.argc, hs₅.named, hs₅.owns, hs₅.holds⟩
    have hthis : (⟨args, s.params, entered.params, left.params⟩ : CallSeen).Kept := by
      refine ⟨?_, ?_, ?_⟩
      · rw [hs₅.params, h.params, htext₅, hsavedText]
      · simp [h.params]
      · rw [hs₃.params, htext₃, hgivenText, take_take, min_self]
    refine ⟨s', cells', zero', own',
      seen₄ ++ ⟨args, s.params, entered.params, left.params⟩ :: seen, ?_, hs', ?_, ?_, ?_⟩
    · rw [run, hsave, bind_some]
      simp only [hfst]
      rw [hset, bind_some, hrun₄, bind_some, hleave, bind_some, hrun]
    · rw [hlog]
      simp only [hlog₅, hlog₄, hlog₃]
      simp
    · rw [map_append, map_cons, hcalls₄, hcalls, Prog.calls]
    intro r hr
    obtain hr | hr := mem_append.1 hr
    · exact hkept₄ r hr
    · obtain rfl | hr := mem_cons.1 hr
      · exact hthis
      · exact hkept r hr
  | take t rest ih =>
    have hnew : Owned { s with mem := (alloc A t s.mem).2, own := (alloc A t s.mem).1 :: s.own }
        cells zero (((alloc A t s.mem).1, t) :: own) frame := by
      refine ⟨h.slots, h.few, h.argc, h.named, by rw [h.owns]; rfl, ?_⟩
      refine (h.holds.alloc t).perm ?_
      exact perm_middle.symm.trans (perm_middle.symm.append_left cells)
    exact ih hnew
  | give i rest ih =>
    obtain ⟨m', hfree, hown⟩ := free_own (i := i) h
    rw [run, hfree, map_some, bind_some]
    exact ih hown

/-- Every run of a fresh shell ends without an error; behind a call the caller sees its parameters
again, and the function sees the arguments that fit the table. -/
theorem run_calls_kept (A : Allocator Text) (m : Objects Text) (prog : Prog) :
    ∃ s', run A prog (start m) = some s' ∧ s'.log.map CallSeen.args = prog.calls ∧
      ∀ r ∈ s'.log, r.after = r.before ∧ r.before ≠ none ∧
        r.entered = some (r.args.take maxParams) := by
  obtain ⟨s', -, -, -, seen, hrun, -, hlog, hcalls, hkept⟩ :=
    run_owned (A := A) prog (owned_start m)
  have hall : s'.log = seen := hlog
  exact ⟨s', hrun, by rw [hall, hcalls], by rw [hall]; exact hkept⟩

-- a function that sets its parameters and calls itself once
example : (run Allocator.bump
      (.set [[ch 'a']] (.call [[ch 'b']] (.set [] (.call [[ch 'c'], []] .done .done)) .done))
      (start Objects.empty)).map (fun s => s.log.map fun r => (r.before, r.entered, r.after)) =
    some [(some [], some [[ch 'c'], []], some []),
      (some [[ch 'a']], some [[ch 'b']], some [[ch 'a']])] := rfl

end Vnu.Vash.Params
