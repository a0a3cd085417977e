import Mathlib.Algebra.BigOperators.Intervals
import Mathlib.Algebra.Order.BigOperators.Group.Finset
import Mathlib.Tactic.Ring

/-!
Binary trees with labels at the ends of paths. A tree that holds few paths has few nodes on each
level.
-/
namespace Vnu.Lib

inductive Trie (α : Type*) where
  | nil
  | node (label : Option α) (zero one : Trie α)
  deriving DecidableEq, Repr

namespace Trie

variable {α : Type*}

def label : Trie α → Option α
  | nil => none
  | node l _ _ => l

def child : Trie α → Bool → Trie α
  | nil, _ => nil
  | node _ zero _, false => zero
  | node _ _ one, true => one

def graft (t : Trie α) : Bool → Trie α → Trie α
  | false, c => node t.label c (t.child true)
  | true, c => node t.label (t.child false) c

def lookup : Trie α → List Bool → Option α
  | t, [] => t.label
  | t, b :: path => (t.child b).lookup path

def put (a : α) : List Bool → Trie α → Trie α
  | [], t => node (some a) (t.child false) (t.child true)
  | b :: path, t => t.graft b (put a path (t.child b))

@[simp] theorem child_graft_self (t c : Trie α) (b : Bool) : (t.graft b c).child b = c := by
  cases b <;> rfl

theorem child_graft_of_ne (t c : Trie α) {b d : Bool} (h : d ≠ b) :
    (t.graft b c).child d = t.child d := by
  cases b <;> cases d <;> first | rfl | exact absurd rfl h

@[simp] theorem label_graft (t c : Trie α) (b : Bool) : (t.graft b c).label = t.label := by
  cases b <;> rfl

theorem lookup_nil (path : List Bool) : (nil : Trie α).lookup path = none := by
  induction path with
  | nil => rfl
  | cons b path ih => exact ih

theorem lookup_bare (path : List Bool) : (node none nil nil : Trie α).lookup path = none := by
  cases path with
  | nil => rfl
  | cons b path => cases b <;> exact lookup_nil path

@[simp] theorem lookup_put_self (a : α) (path : List Bool) (t : Trie α) :
    (put a path t).lookup path = some a := by
  induction path generalizing t with
  | nil => rfl
  | cons b path ih =>
    rw [put, lookup, child_graft_self]
    exact ih (t.child b)

theorem lookup_put_of_ne (a : α) {path other : List Bool} (h : other ≠ path) (t : Trie α) :
    (put a path t).lookup other = t.lookup other := by
  induction path generalizing t other with
  | nil =>
    match other with
    | [] => exact absurd rfl h
    | d :: other => cases d <;> rfl
  | cons b path ih =>
    match other with
    | [] => rw [put, lookup, lookup, label_graft]
    | d :: other =>
      rw [put, lookup, lookup]
      by_cases hd : d = b
      · subst hd
        rw [child_graft_self]
        exact ih (fun heq => h (heq ▸ rfl)) (t.child d)
      · rw [child_graft_of_ne t _ hd]

def size : Trie α → ℕ
  | nil => 0
  | node _ zero one => zero.size + one.size + 1

def level : ℕ → Trie α → ℕ
  | _, nil => 0
  | 0, node _ _ _ => 1
  | d + 1, node _ zero one => level d zero + level d one

@[simp] theorem level_nil (d : ℕ) : level d (nil : Trie α) = 0 := by cases d <;> rfl

theorem level_succ (d : ℕ) (t : Trie α) :
    level (d + 1) t = level d (t.child false) + level d (t.child true) := by
  cases t with
  | nil => simp [child]
  | node l zero one => rfl

theorem level_le_pow (d : ℕ) (t : Trie α) : level d t ≤ 2 ^ d := by
  induction d generalizing t with
  | zero => cases t <;> simp [level]
  | succ d ih =>
    rw [level_succ, pow_succ, Nat.mul_two]
    exact Nat.add_le_add (ih _) (ih _)

theorem size_eq_sum_level (t : Trie α) {h : ℕ} (hdeep : ∀ d, h ≤ d → level d t = 0) :
    t.size = ∑ d ∈ Finset.range h, level d t := by
  induction t generalizing h with
  | nil => simp [size]
  | node l zero one ihzero ihone =>
    match h with
    | 0 => exact absurd (hdeep 0 le_rfl) (by simp [level])
    | h + 1 =>
      have hbelow : ∀ d, h ≤ d → level d zero = 0 ∧ level d one = 0 := by
        intro d hd
        have hsum := hdeep (d + 1) (Nat.succ_le_succ hd)
        exact Nat.add_eq_zero_iff.mp hsum
      rw [Finset.sum_range_succ', size, ihzero fun d hd => (hbelow d hd).1,
        ihone fun d hd => (hbelow d hd).2, ← Finset.sum_add_distrib]
      rfl

theorem size_le_of_levels (t : Trie α) {h n : ℕ} (hdeep : ∀ d, h ≤ d → level d t = 0)
    (hwide : ∀ d, level d t ≤ n) : t.size ≤ ∑ d ∈ Finset.range h, min (2 ^ d) n := by
  rw [size_eq_sum_level t hdeep]
  exact Finset.sum_le_sum fun d _ => le_min (level_le_pow d t) (hwide d)

theorem level_graft (t c : Trie α) (b : Bool) (d : ℕ) :
    level (d + 1) (t.graft b c) + level d (t.child b) = level (d + 1) t + level d c := by
  rw [level_succ d t]
  cases b with
  | false =>
    change level d c + level d (t.child true) + level d (t.child false) = _
    ring
  | true =>
    change level d (t.child false) + level d c + level d (t.child true) = _
    ring

theorem level_put_le (a : α) (path : List Bool) (t : Trie α) (d : ℕ) :
    level d (put a path t) ≤ level d t + 1 := by
  induction path generalizing t d with
  | nil =>
    match d with
    | 0 => exact Nat.le_add_left 1 _
    | d + 1 =>
      rw [level_succ, level_succ]
      exact Nat.le_add_right _ 1
  | cons b path ih =>
    match d with
    | 0 => cases b <;> exact Nat.le_add_left 1 _
    | d + 1 =>
      have hgraft := level_graft t (put a path (t.child b)) b d
      have hbelow := ih (t.child b) d
      rw [put]
      omega

theorem level_put_of_lt (a : α) {path : List Bool} (t : Trie α) {d : ℕ} (hd : path.length < d) :
    level d (put a path t) = level d t := by
  induction path generalizing t d with
  | nil =>
    obtain ⟨d, rfl⟩ := Nat.exists_eq_add_one_of_ne_zero (Nat.ne_of_gt hd)
    rw [level_succ, level_succ]
    rfl
  | cons b path ih =>
    obtain ⟨d, rfl⟩ := Nat.exists_eq_add_one_of_ne_zero (Nat.ne_of_gt (Nat.zero_lt_of_lt hd))
    have hgraft := level_graft t (put a path (t.child b)) b d
    have hbelow := ih (t.child b) (Nat.lt_of_succ_lt_succ hd)
    rw [put]
    omega

theorem size_graft {t : Trie α} (ht : t ≠ nil) (c : Trie α) (b : Bool) :
    (t.graft b c).size + (t.child b).size = t.size + c.size := by
  cases t with
  | nil => exact absurd rfl ht
  | node l zero one =>
    cases b with
    | false =>
      change c.size + one.size + 1 + zero.size = zero.size + one.size + 1 + c.size
      ring
    | true =>
      change zero.size + c.size + 1 + one.size = zero.size + one.size + 1 + c.size
      ring

theorem put_nil (a : α) (path : List Bool) :
    put a path (nil : Trie α) = put a path (node none nil nil) := by
  cases path with
  | nil => rfl
  | cons b path => cases b <;> rfl

end Trie

end Vnu.Lib
