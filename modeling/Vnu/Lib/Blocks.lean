import Mathlib.Data.List.Nodup

/-!
A list of equal blocks read as one range: position `i` lies in block `i / n` at offset `i % n`.
-/
namespace Vnu.Lib.Blocks

open List

variable {α : Type*} {mem mem' : ℕ → ℕ → α} {n : ℕ} {bl : List ℕ} {i : ℕ}

def flat (mem : ℕ → ℕ → α) (n : ℕ) (bl : List ℕ) (i : ℕ) : α := mem (bl.getD (i / n) 0) (i % n)

theorem block_le {k m : ℕ} (h : k < m) (n : ℕ) : k * n + n ≤ m * n := by
  rw [← Nat.succ_mul]
  exact Nat.mul_le_mul_right n h

theorem index_lt (hi : i < bl.length * n) : i / n < bl.length := by
  apply Nat.div_lt_of_lt_mul
  rw [Nat.mul_comm]
  exact hi

theorem flat_eq (hi : i < bl.length * n) :
    flat mem n bl i = mem (bl.get ⟨i / n, index_lt hi⟩) (i % n) := by
  have hlt := index_lt hi
  simp only [flat, getD_eq_getElem?_getD, getElem?_eq_getElem hlt, Option.getD_some, get_eq_getElem]

theorem flat_at {k off : ℕ} (hk : k < bl.length) (hoff : off < n) :
    flat mem n bl (k * n + off) = mem (bl.get ⟨k, hk⟩) off := by
  have hdiv : (k * n + off) / n = k := by
    apply Nat.div_eq_of_lt_le
    · omega
    · rw [Nat.add_mul]
      omega
  simp only [flat, hdiv, Nat.mul_add_mod', Nat.mod_eq_of_lt hoff, getD_eq_getElem?_getD,
    getElem?_eq_getElem hk, Option.getD_some, get_eq_getElem]

theorem flat_congr (h : ∀ b ∈ bl, mem' b = mem b) (hi : i < bl.length * n) :
    flat mem' n bl i = flat mem n bl i := by
  rw [flat_eq hi, flat_eq hi, h _ (get_mem bl _)]

theorem flat_store (hnd : bl.Nodup) {k : ℕ} (hk : k < bl.length)
    (h : ∀ b, b ≠ bl.get ⟨k, hk⟩ → mem' b = mem b) (hi : i < bl.length * n) :
    flat mem' n bl i = if i / n = k then mem' (bl.get ⟨k, hk⟩) (i % n) else flat mem n bl i := by
  split
  · rename_i hik
    subst hik
    exact flat_eq hi
  · rename_i hik
    rw [flat_eq hi, flat_eq hi, h]
    intro heq
    have hfin := (nodup_iff_injective_get.mp hnd) heq
    exact hik (congrArg Fin.val hfin)

theorem flat_append_left {ex : List ℕ} (hi : i < bl.length * n) :
    flat mem n (bl ++ ex) i = flat mem n bl i := by
  have hlt := index_lt hi
  simp only [flat, getD_eq_getElem?_getD, getElem?_append_left hlt]

theorem flat_append_right {ex : List ℕ} (hn : 0 < n) :
    flat mem n (bl ++ ex) (bl.length * n + i) = flat mem n ex i := by
  have hdiv : (bl.length * n + i) / n = bl.length + i / n := by
    rw [Nat.add_comm, Nat.add_mul_div_right _ _ hn, Nat.add_comm]
  have hmod : (bl.length * n + i) % n = i % n := Nat.mul_add_mod' bl.length n i
  simp only [flat, hdiv, hmod, getD_eq_getElem?_getD,
    getElem?_append_right (Nat.le_add_right _ _), Nat.add_sub_cancel_left]

end Vnu.Lib.Blocks
