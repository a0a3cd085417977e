import Mathlib.Data.List.Basic
import Mathlib.Tactic.NormNum

/-!
A list cut into blocks of one length, with a shorter rest. Data that arrive in pieces can be cut as
they come.
-/
namespace Vnu.Lib.Chunks

open List Nat

variable {α : Type*}

def blocks (n : ℕ) (xs : List α) : List (List α) :=
  (List.range (xs.length / n)).map fun i => (xs.drop (n * i)).take n

def rest (n : ℕ) (xs : List α) : List α := xs.drop (n * (xs.length / n))

theorem blocks_of_lt {n : ℕ} {xs : List α} (h : xs.length < n) : blocks n xs = [] := by
  rw [blocks, Nat.div_eq_of_lt h, range_zero, map_nil]

theorem rest_of_lt {n : ℕ} {xs : List α} (h : xs.length < n) : rest n xs = xs := by
  rw [rest, Nat.div_eq_of_lt h, mul_zero, drop_zero]

theorem rest_length (n : ℕ) (xs : List α) : (rest n xs).length = xs.length % n := by
  rw [rest, length_drop, Nat.mod_def]

section

variable {n : ℕ} {xs ys : List α}

theorem count_append (h : xs.length = n) (hn : 0 < n) :
    (xs ++ ys).length / n = ys.length / n + 1 := by
  rw [length_append, h, add_comm, Nat.add_div_right _ hn]

theorem blocks_cons (h : xs.length = n) (hn : 0 < n) : blocks n (xs ++ ys) = xs :: blocks n ys := by
  rw [blocks, count_append h hn, range_succ_eq_map, map_cons, map_map]
  congr 1
  · rw [mul_zero, drop_zero, ← h, take_left]
  apply map_congr_left
  intro i _
  have hskip : n * (i + 1) = xs.length + n * i := by
    rw [h, mul_add, mul_one, add_comm]
  simp only [Function.comp_apply, hskip, drop_append]
  rw [drop_of_length_le (by omega), nil_append, Nat.add_sub_cancel_left]

theorem rest_cons (h : xs.length = n) (hn : 0 < n) : rest n (xs ++ ys) = rest n ys := by
  have hskip : n * (ys.length / n + 1) = xs.length + n * (ys.length / n) := by
    rw [h, mul_add, mul_one, add_comm]
  rw [rest, count_append h hn, hskip, drop_append, drop_of_length_le (by omega),
    nil_append, Nat.add_sub_cancel_left, rest]

theorem blocks_append (hn : 0 < n) (xs ys : List α) :
    blocks n (xs ++ ys) = blocks n xs ++ blocks n (rest n xs ++ ys) ∧
      rest n (xs ++ ys) = rest n (rest n xs ++ ys) := by
  induction hlen : xs.length using Nat.strong_induction_on generalizing xs with
  | _ m ih =>
    by_cases hlt : xs.length < n
    · rw [blocks_of_lt hlt, rest_of_lt hlt]
      exact ⟨rfl, rfl⟩
    -- the first block is the same on both sides
    obtain ⟨a, b, rfl, ha⟩ : ∃ a b, xs = a ++ b ∧ a.length = n :=
      ⟨xs.take n, xs.drop n, (take_append_drop n xs).symm, by
        rw [length_take]
        omega⟩
    rw [length_append] at hlen
    obtain ⟨hblocks, hrest⟩ := ih b.length (by omega) b rfl
    rw [append_assoc, blocks_cons ha hn, blocks_cons ha hn, rest_cons ha hn,
      rest_cons ha hn, hblocks, hrest]
    exact ⟨rfl, rfl⟩

end

end Vnu.Lib.Chunks
