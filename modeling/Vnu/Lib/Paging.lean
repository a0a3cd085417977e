import Mathlib.Data.List.Basic
import Mathlib.Tactic.NormNum

/-!
A list handed out in pages of any sizes: the pages up to the first empty one are the list.
-/
namespace Vnu.Lib.Paging

open List

variable {α β : Type*}

def page (xs : List α) (pos k : ℕ) : List α := (xs.drop pos).take k

theorem length_page (xs : List α) (pos k : ℕ) :
    (page xs pos k).length = min k (xs.length - pos) := by
  rw [page, length_take, length_drop]

theorem map_page (f : α → β) (xs : List α) (pos k : ℕ) :
    (page xs pos k).map f = page (xs.map f) pos k := by
  rw [page, page, map_take, map_drop]

theorem page_eq_nil_iff {xs : List α} {pos k : ℕ} (hk : 0 < k) :
    page xs pos k = [] ↔ xs.length ≤ pos := by
  rw [← length_eq_zero_iff, length_page]
  omega

/-- Where the reader is when it makes call `n`; `k` are the sizes it asks for. -/
def reached (xs : List α) (k : ℕ → ℕ) : ℕ → ℕ
  | 0 => 0
  | n + 1 => reached xs k n + (page xs (reached xs k n) (k n)).length

variable {xs : List α} {k : ℕ → ℕ}

theorem reached_le (n : ℕ) : reached xs k n ≤ xs.length := by
  induction n with
  | zero => exact Nat.zero_le _
  | succ n ih =>
    rw [reached, length_page]
    omega

theorem flatMap_page (n : ℕ) :
    ((range n).flatMap fun j => page xs (reached xs k j) (k j)) = xs.take (reached xs k n) := by
  induction n with
  | zero => rfl
  | succ n ih =>
    rw [range_succ, flatMap_append, flatMap_singleton, reached, length_page, page, take_add]
    congr 1
    rw [take_eq_take_iff, length_drop]
    omega

theorem le_reached (hk : ∀ n, 0 < k n) (n : ℕ) : min n xs.length ≤ reached xs k n := by
  induction n with
  | zero => exact Nat.le_of_eq (Nat.zero_min _)
  | succ n ih =>
    have hn := hk n
    rw [reached, length_page]
    omega

/-- The pages end, and those before the end are the list. -/
theorem exists_end (hk : ∀ n, 0 < k n) :
    ∃ n, (∀ j < n, page xs (reached xs k j) (k j) ≠ []) ∧ page xs (reached xs k n) (k n) = [] ∧
      ((range n).flatMap fun j => page xs (reached xs k j) (k j)) = xs := by
  have hend : ∃ n, page xs (reached xs k n) (k n) = [] := by
    refine ⟨xs.length, (page_eq_nil_iff (hk _)).mpr ?_⟩
    have hle : min xs.length xs.length ≤ reached xs k xs.length := le_reached hk _
    rwa [Nat.min_self] at hle
  refine ⟨Nat.find hend, fun j hj => Nat.find_min hend hj, Nat.find_spec hend, ?_⟩
  rw [flatMap_page]
  exact take_of_length_le ((page_eq_nil_iff (hk _)).mp (Nat.find_spec hend))

end Vnu.Lib.Paging
