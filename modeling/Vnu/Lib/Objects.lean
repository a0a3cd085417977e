import Mathlib.Data.List.Nodup
import Mathlib.Logic.Function.Basic

/-!
Memory as whole objects that are allocated and freed. `Holds` lists addresses in use, each once; the
list can be reordered, so a proof takes the cells it works on to the front.
-/
namespace Vnu.Lib

open List Function Option

structure Objects (α : Type) where
  obj : ℕ → Option α
  bound : ℕ
  small : ∀ p, bound ≤ p → obj p = none
  /-- How many objects were allocated so far. -/
  clock : ℕ

structure Allocator (α : Type) where
  pick : Objects α → ℕ
  fresh : ∀ m : Objects α, m.obj (pick m) = none
  nonzero : ∀ m, pick m ≠ 0

theorem Objects.small_succ {α : Type} (m : Objects α) : m.obj (m.bound + 1) = none :=
  m.small _ (Nat.le_succ _)

def Allocator.bump {α : Type} : Allocator α :=
  ⟨fun m => m.bound + 1, Objects.small_succ, fun m => Nat.succ_ne_zero m.bound⟩

namespace Objects

variable {α : Type}

def empty : Objects α := ⟨fun _ => none, 0, fun _ _ => rfl, 0⟩

theorem small_update (m : Objects α) (p : ℕ) (a : Option α) (q : ℕ) (hq : max m.bound (p + 1) ≤ q) :
    update m.obj p a q = none := by
  have hne : q ≠ p := by omega
  rw [update_of_ne hne]
  exact m.small q (by omega)

def put (m : Objects α) (p : ℕ) (a : Option α) (clock : ℕ) : Objects α :=
  ⟨update m.obj p a, max m.bound (p + 1), m.small_update p a, clock⟩

def alloc (A : Allocator α) (a : α) (m : Objects α) : ℕ × Objects α :=
  (A.pick m, m.put (A.pick m) (some a) (m.clock + 1))

/-- Freeing the address 0 does nothing; freeing what is not in use is an error. -/
def free (p : ℕ) (m : Objects α) : Option (Objects α) :=
  if p = 0 then some m else (m.obj p).map fun _ => m.put p none m.clock

def allocAll (A : Allocator α) : List α → Objects α → List ℕ × Objects α
  | [], m => ([], m)
  | a :: as, m =>
    ((alloc A a m).1 :: (allocAll A as (alloc A a m).2).1, (allocAll A as (alloc A a m).2).2)

def freeAll : List ℕ → Objects α → Option (Objects α)
  | [], m => some m
  | p :: ps, m => (m.free p).bind (freeAll ps)

def copyAll (A : Allocator α) : List ℕ → Objects α → Option (List ℕ × Objects α)
  | [], m => some ([], m)
  | p :: ps, m =>
    (m.obj p).bind fun a =>
      (copyAll A ps (alloc A a m).2).map fun r => ((alloc A a m).1 :: r.1, r.2)

structure Holds (m : Objects α) (cells : List (ℕ × α)) : Prop where
  nodup : (cells.map Prod.fst).Nodup
  nonzero : ∀ c ∈ cells, c.1 ≠ 0
  live : ∀ c ∈ cells, m.obj c.1 = some c.2

namespace Holds

variable {m m' : Objects α} {cells rest : List (ℕ × α)} {A : Allocator α}

theorem perm (h : Holds m cells) {cells' : List (ℕ × α)} (hperm : cells.Perm cells') :
    Holds m cells' :=
  ⟨(hperm.map Prod.fst).nodup_iff.1 h.nodup, fun c hc => h.nonzero c (hperm.mem_iff.2 hc),
    fun c hc => h.live c (hperm.mem_iff.2 hc)⟩

theorem sublist (h : Holds m cells) {cells' : List (ℕ × α)} (hsub : cells'.Sublist cells) :
    Holds m cells' :=
  ⟨h.nodup.sublist (hsub.map _), fun c hc => h.nonzero c (hsub.subset hc),
    fun c hc => h.live c (hsub.subset hc)⟩

theorem alloc (h : Holds m cells) (a : α) :
    Holds (Objects.alloc A a m).2 (((Objects.alloc A a m).1, a) :: cells) := by
  have hnew : ∀ c ∈ cells, c.1 ≠ A.pick m := by
    intro c hc heq
    have hlive := h.live c hc
    rw [heq, A.fresh m] at hlive
    simp at hlive
  refine ⟨?_, ?_, ?_⟩
  · rw [map_cons, nodup_cons]
    refine ⟨?_, h.nodup⟩
    intro hmem
    obtain ⟨c, hc, heq⟩ := mem_map.1 hmem
    exact hnew c hc heq
  · intro c hc
    obtain rfl | hc := mem_cons.1 hc
    · exact A.nonzero m
    · exact h.nonzero c hc
  · intro c hc
    obtain rfl | hc := mem_cons.1 hc
    · exact update_self _ _ _
    · exact (update_of_ne (hnew c hc) _ _).trans (h.live c hc)

theorem free {c : ℕ × α} (h : Holds m (c :: cells)) :
    ∃ m', m.free c.1 = some m' ∧ Holds m' cells := by
  have hlive := h.live c mem_cons_self
  have hnot : ∀ d ∈ cells, d.1 ≠ c.1 := by
    intro d hd heq
    exact (nodup_cons.1 h.nodup).1 (heq ▸ mem_map_of_mem hd)
  refine ⟨m.put c.1 none m.clock, ?_, ?_, ?_, ?_⟩
  · rw [Objects.free, if_neg (h.nonzero c mem_cons_self), hlive, map_some]
  · exact (nodup_cons.1 h.nodup).2
  · exact fun d hd => h.nonzero d (mem_cons_of_mem c hd)
  · intro d hd
    exact (update_of_ne (hnot d hd) _ _).trans (h.live d (mem_cons_of_mem c hd))

theorem allocAll (h : Holds m cells) (as : List α) :
    ∃ new : List (ℕ × α), (Objects.allocAll A as m).1 = new.map Prod.fst ∧
      new.map Prod.snd = as ∧ Holds (Objects.allocAll A as m).2 (new ++ cells) := by
  induction as generalizing m cells with
  | nil => exact ⟨[], rfl, rfl, h⟩
  | cons a as ih =>
    obtain ⟨new, hfst, hsnd, hnew⟩ := ih (h.alloc (A := A) a)
    refine ⟨((Objects.alloc A a m).1, a) :: new, ?_, ?_, ?_⟩
    · rw [Objects.allocAll, hfst]
      rfl
    · rw [map_cons, hsnd]
    · exact hnew.perm perm_middle

theorem freeAll (h : Holds m (cells ++ rest)) :
    ∃ m', Objects.freeAll (cells.map Prod.fst) m = some m' ∧ Holds m' rest := by
  induction cells generalizing m with
  | nil => exact ⟨m, rfl, h⟩
  | cons c cells ih =>
    obtain ⟨m₁, hfree, hm₁⟩ := free h
    obtain ⟨m', hrun, hm'⟩ := ih hm₁
    refine ⟨m', ?_, hm'⟩
    rw [map_cons, Objects.freeAll, hfree, bind_some, hrun]

theorem copyAll (h : Holds m rest) (hcells : ∀ c ∈ cells, c ∈ rest) :
    ∃ new m', Objects.copyAll A (cells.map Prod.fst) m = some (new.map Prod.fst, m') ∧
      new.map Prod.snd = cells.map Prod.snd ∧ Holds m' (new ++ rest) := by
  induction cells generalizing m rest with
  | nil => exact ⟨[], m, rfl, rfl, h⟩
  | cons c cells ih =>
    have hlive := h.live c (hcells c mem_cons_self)
    obtain ⟨new, m', hrun, hsnd, hm'⟩ := ih (h.alloc (A := A) c.2) fun d hd =>
      mem_cons_of_mem _ (hcells d (mem_cons_of_mem c hd))
    refine ⟨((Objects.alloc A c.2 m).1, c.2) :: new, m', ?_, ?_, hm'.perm perm_middle⟩
    · rw [map_cons, Objects.copyAll, hlive, bind_some, hrun]
      rfl
    · rw [map_cons, map_cons, hsnd]

theorem mapM_obj (h : Holds m rest) (hcells : ∀ c ∈ cells, c ∈ rest) :
    (cells.map Prod.fst).mapM m.obj = some (cells.map Prod.snd) := by
  induction cells with
  | nil => rfl
  | cons c cells ih =>
    have hlive := h.live c (hcells c mem_cons_self)
    have htail := ih fun d hd => hcells d (mem_cons_of_mem c hd)
    rw [map_cons, mapM_cons, hlive, htail]
    rfl

end Holds

end Objects

end Vnu.Lib
