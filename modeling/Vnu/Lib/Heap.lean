import Mathlib.Data.List.Range
import Mathlib.Logic.Function.Basic
import Mathlib.Tactic.NormNum

/-!
Memory as objects of bytes. A heap keeps the places that were stored to.
-/
namespace Vnu.Lib

open List Function Nat

variable {n m : ℕ} {bs : List UInt8}

structure Ptr where
  obj : ℕ
  off : ℕ
deriving DecidableEq

variable {p q : Ptr}

namespace Ptr

def add (p : Ptr) (i : ℕ) : Ptr := ⟨p.obj, p.off + i⟩

theorem add_zero (p : Ptr) : p.add 0 = p := rfl

theorem add_add (p : Ptr) (i j : ℕ) : (p.add i).add j = p.add (i + j) := by
  rw [add, add, add, add_assoc]

theorem add_inj {i j : ℕ} : p.add i = p.add j ↔ i = j := by
  simp [add]

def Apart (p : Ptr) (n : ℕ) (q : Ptr) (m : ℕ) : Prop := ∀ i < n, ∀ j < m, p.add i ≠ q.add j

theorem Apart.symm (h : p.Apart n q m) : q.Apart m p n := fun i hi j hj heq => h j hj i hi heq.symm

theorem Apart.mono {n' m' : ℕ} (h : p.Apart n q m) (hn : n' ≤ n) (hm : m' ≤ m) : p.Apart n' q m' :=
  fun i hi j hj => h i (by omega) j (by omega)

theorem Apart.shift {k : ℕ} (h : p.Apart (k + n) q m) : (p.add k).Apart n q m := by
  intro i hi j hj
  rw [add_add]
  exact h (k + i) (by omega) j hj

theorem apart_of_obj (h : p.obj ≠ q.obj) (n m : ℕ) : p.Apart n q m :=
  fun i _ j _ heq => h (show (p.add i).obj = (q.add j).obj by rw [heq])

end Ptr

structure Heap where
  bytes : Ptr → UInt8
  /-- The places stored to, the last one first. -/
  log : List Ptr

variable {h : Heap}

namespace Heap

def store (h : Heap) (p : Ptr) (b : UInt8) : Heap := ⟨update h.bytes p b, p :: h.log⟩

def load (h : Heap) (p : Ptr) (n : ℕ) : List UInt8 := (List.range n).map fun i => h.bytes (p.add i)

def write (h : Heap) (p : Ptr) : List UInt8 → Heap
  | [] => h
  | b :: bs => (h.store p b).write (p.add 1) bs

theorem store_self (h : Heap) (p : Ptr) (b : UInt8) : (h.store p b).bytes p = b := by
  simp [store]

theorem load_length (h : Heap) (p : Ptr) (n : ℕ) : (h.load p n).length = n := by
  rw [load, length_map, length_range]

theorem load_add (h : Heap) (p : Ptr) (n m : ℕ) :
    h.load p (n + m) = h.load p n ++ h.load (p.add n) m := by
  simp only [load, range_add, map_append, map_map, Ptr.add_add]
  rfl

theorem load_succ (h : Heap) (p : Ptr) (n : ℕ) :
    h.load p (n + 1) = h.bytes p :: h.load (p.add 1) n := by
  rw [add_comm, load_add]
  rfl

theorem load_congr {h' : Heap} {p' : Ptr}
    (heq : ∀ i < n, h'.bytes (p'.add i) = h.bytes (p.add i)) : h'.load p' n = h.load p n :=
  map_congr_left fun i hi => heq i (mem_range.mp hi)

theorem write_append (h : Heap) (p : Ptr) (xs ys : List UInt8) :
    h.write p (xs ++ ys) = (h.write p xs).write (p.add xs.length) ys := by
  induction xs generalizing h p with
  | nil => rfl
  | cons x xs ih =>
    rw [cons_append, write, ih, write, Ptr.add_add, length_cons, add_comm 1]

theorem write_other (h : Heap) (p q : Ptr) (bs : List UInt8)
    (hq : ∀ i < bs.length, q ≠ p.add i) : (h.write p bs).bytes q = h.bytes q := by
  induction bs generalizing h p with
  | nil => rfl
  | cons b bs ih =>
    rw [write, ih]
    · exact update_of_ne (hq 0 (Nat.succ_pos _)) _ _
    · intro i hi
      rw [Ptr.add_add]
      exact hq (1 + i) (by rw [length_cons]; omega)

theorem load_write_apart (hap : p.Apart bs.length q n) : (h.write p bs).load q n = h.load q n :=
  load_congr fun j hj => write_other h p _ bs fun i hi heq => hap i hi j hj heq.symm

theorem load_store_apart {b : UInt8} (hap : p.Apart 1 q n) : (h.store p b).load q n = h.load q n :=
  load_write_apart (show p.Apart [b].length q n from hap)

theorem load_write (h : Heap) (p : Ptr) (bs : List UInt8) :
    (h.write p bs).load p bs.length = bs := by
  induction bs generalizing h p with
  | nil => rfl
  | cons b bs ih =>
    rw [write, length_cons, load_succ, ih, write_other]
    · rw [store_self]
    · intro i _ heq
      rw [Ptr.add_add] at heq
      have := Ptr.add_inj.mp ((Ptr.add_zero p).trans heq)
      omega

theorem load_write_of_length (hn : bs.length = n) : (h.write p bs).load p n = bs := by
  rw [← hn, load_write]

theorem mem_log_write : q ∈ (h.write p bs).log ↔ q ∈ h.log ∨ ∃ i < bs.length, q = p.add i := by
  induction bs generalizing h p with
  | nil => simp [write]
  | cons b bs ih =>
    rw [write, ih, store, mem_cons, length_cons]
    constructor
    · rintro ((rfl | hq) | ⟨i, hi, rfl⟩)
      · exact Or.inr ⟨0, Nat.succ_pos _, rfl⟩
      · exact Or.inl hq
      · exact Or.inr ⟨1 + i, by omega, Ptr.add_add p 1 i⟩
    · rintro (hq | ⟨i, hi, rfl⟩)
      · exact Or.inl (Or.inr hq)
      · cases i with
        | zero => exact Or.inl (Or.inl rfl)
        | succ i => exact Or.inr ⟨i, by omega, by rw [Ptr.add_add, add_comm]⟩

end Heap

end Vnu.Lib
