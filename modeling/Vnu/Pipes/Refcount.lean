import Mathlib.Algebra.Order.BigOperators.Group.Finset
import Vnu.Lib.Tally
import Vnu.Pipes.Table

/-!
The two counters of a pipe always equal the number of descriptors, over all tables, that refer to
that end of it.
-/
namespace Vnu.Pipes

open Lib.Tally List Function Option Nat

variable {fd v : Fd} {i : Fin maxTables} {j : Fin maxFd} {p : Fin maxPipes} {w : Bool} {t : Table}
  {q : Pipe} {pid : ℕ}

def refers (fd : Fd) (p : Fin maxPipes) (w : Bool) : Bool :=
  fd.used && decide (fd.pipeId = p) && (fd.writeEnd == w)

def one (b : Bool) : ℕ := if b then 1 else 0

def row (t : Table) (p : Fin maxPipes) (w : Bool) : ℕ := ∑ j, one (refers (t.e j) p w)

def refs (s : State) (p : Fin maxPipes) (w : Bool) : ℕ := ∑ i, row (s.tables i) p w

theorem refers_iff (fd : Fd) {p : Fin maxPipes} {w : Bool} :
    refers fd p w = true ↔ fd.used = true ∧ fd.pipeId = p ∧ fd.writeEnd = w := by
  simp [refers, and_assoc]

theorem refs_setTable (s : State) (i : Fin maxTables) (t : Table) (p : Fin maxPipes) (w : Bool) :
    refs (s.setTable i t) p w + row (s.tables i) p w = refs s p w + row t p w :=
  sum_update (fun t => row t p w) s.tables i t

theorem row_le_refs (s : State) (i : Fin maxTables) (p : Fin maxPipes) (w : Bool) :
    row (s.tables i) p w ≤ refs s p w :=
  Finset.single_le_sum (f := fun i => row (s.tables i) p w) (fun _ _ => zero_le _)
    (Finset.mem_univ i)

theorem refs_pos {s : State} (h : refers ((s.tables i).e j) p w = true) : 0 < refs s p w := by
  have hrow : 0 < row (s.tables i) p w := by
    refine Finset.sum_pos' (fun _ _ => zero_le _) ⟨j, Finset.mem_univ _, ?_⟩
    simp [one, h]
  exact hrow.trans_le (row_le_refs s i p w)

theorem exists_of_refs_pos {s : State} (h : 0 < refs s p w) :
    ∃ i j, refers ((s.tables i).e j) p w = true := by
  by_contra hno
  push Not at hno
  have hzero : refs s p w = 0 := by
    refine Finset.sum_eq_zero (fun i _ => Finset.sum_eq_zero (fun j _ => ?_))
    simp [one, hno i j]
  omega

def Pipe.counter (p : Pipe) (w : Bool) : ℤ := if w then p.writers else p.readers

structure Counted (s : State) : Prop where
  counter : ∀ p w, (s.pipes p).counter w = refs s p w
  alive : ∀ i j, ((s.tables i).e j).used = true →
    ((s.tables i).e j).isPipe = true ∧ (s.pipes ((s.tables i).e j).pipeId).used = true
  vacant : ∀ i, (s.tables i).used = false → ∀ j, ((s.tables i).e j).used = false

def Pipe.Held (p : Pipe) : Prop := ∀ w, 0 < p.counter w → p.used = true

structure Table.Sound (t : Table) : Prop where
  isPipe : ∀ j, (t.e j).used = true → (t.e j).isPipe = true
  vacant : t.used = false → ∀ j, (t.e j).used = false

theorem counted_iff {s : State} : Counted s ↔
    (∀ p w, (s.pipes p).counter w = refs s p w) ∧ (∀ p, (s.pipes p).Held) ∧
      ∀ i, (s.tables i).Sound := by
  constructor
  · intro hs
    refine ⟨hs.counter, fun p w hpos => ?_, fun i => ⟨fun j hj => (hs.alive i j hj).1, hs.vacant i⟩⟩
    rw [hs.counter] at hpos
    obtain ⟨i, j, hr⟩ := exists_of_refs_pos (Int.natCast_pos.mp hpos)
    obtain ⟨hused, rfl, -⟩ := (refers_iff _).mp hr
    exact (hs.alive i j hused).2
  · rintro ⟨hcount, hheld, hsound⟩
    refine ⟨hcount, fun i j hj => ⟨(hsound i).isPipe j hj, ?_⟩, fun i => (hsound i).vacant⟩
    have hpos := refs_pos ((refers_iff ((s.tables i).e j)).mpr ⟨hj, rfl, rfl⟩)
    exact hheld _ ((s.tables i).e j).writeEnd (by rw [hcount]; exact Int.natCast_pos.mpr hpos)

@[simp] theorem counter_count (p : Pipe) (fd : Fd) (d : ℤ) (w : Bool) :
    (p.count fd d).counter w = p.counter w + if fd.writeEnd = w then d else 0 := by
  cases w <;> cases hw : fd.writeEnd <;> simp [Pipe.count, Pipe.counter, hw]

def Pipe.ring (p : Pipe) : (ℕ → UInt8) × ℕ × ℕ × ℕ := (p.data, p.r, p.w, p.len)

@[simp] theorem ring_retire (p : Pipe) : p.retire.ring = p.ring := by
  unfold Pipe.retire
  split <;> rfl

/-- References may have moved: the counts are right and the rings are as they were. -/
structure Keeps (s s' : State) : Prop where
  counted : Counted s'
  ring : ∀ p, (s'.pipes p).ring = (s.pipes p).ring

theorem Keeps.refl {s : State} (hs : Counted s) : Keeps s s := ⟨hs, fun _ => rfl⟩

theorem Keeps.trans {s s' s'' : State} (h : Keeps s s') (h' : Keeps s' s'') : Keeps s s'' :=
  ⟨h'.counted, fun p => (h'.ring p).trans (h.ring p)⟩

theorem Counted.put {s : State} (hs : Counted s) {pipes : Fin maxPipes → Pipe} (ht : t.Sound)
    (hpipes : ∀ p, (pipes p).Held ∧ (pipes p).ring = (s.pipes p).ring)
    (hcount : ∀ p w, (pipes p).counter w + row (s.tables i) p w =
      (s.pipes p).counter w + row t p w) :
    Keeps s ⟨pipes, update s.tables i t⟩ := by
  obtain ⟨hold, -, hsound⟩ := counted_iff.mp hs
  refine ⟨counted_iff.mpr ⟨fun p w => ?_, fun p => (hpipes p).1, ?_⟩, fun p => (hpipes p).2⟩
  · have hrefs := refs_setTable s i t p w
    have hnew := hcount p w
    rw [hold] at hnew
    simp only [refs, State.setTable] at hrefs hnew ⊢
    omega
  · exact (forall_update_iff _ fun _ (t : Table) => t.Sound).mpr ⟨ht, fun i' _ => hsound i'⟩

section

variable {s : State}

theorem Counted.sound (hs : Counted s) (i : Fin maxTables) : (s.tables i).Sound :=
  (counted_iff.mp hs).2.2 i

theorem find_spec (h : find s pid = some i) :
    (s.tables i).used = true ∧ (s.tables i).pid = pid := by
  simpa using find?_some h

end

end Vnu.Pipes
