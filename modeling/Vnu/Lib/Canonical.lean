import Mathlib.Algebra.BigOperators.Intervals
import Mathlib.Algebra.Order.BigOperators.Group.Finset
import Mathlib.Data.List.GetD
import Mathlib.Data.Nat.Bitwise
import Mathlib.Tactic.NormNum
import Mathlib.Tactic.Ring

/-!
Canonical prefix codes: codes of one length are consecutive in the order of the symbols, and shorter
ones come first. Under Kraft's inequality no word begins another.
-/
namespace Vnu.Lib.Canonical

open List Nat

variable {v l s t : ℕ}

def bitsOf : ℕ → ℕ → List Bool
  | 0, _ => []
  | len + 1, v => v.testBit len :: bitsOf len v

@[simp] theorem bitsOf_length (len v : ℕ) : (bitsOf len v).length = len := by
  induction len with
  | zero => rfl
  | succ len ih => rw [bitsOf, length_cons, ih]

theorem bitsOf_getElem? {len i : ℕ} (hi : i < len) :
    (bitsOf len v)[i]? = some (v.testBit (len - 1 - i)) := by
  induction len generalizing i with
  | zero => omega
  | succ len ih =>
    match i with
    | 0 => simp [bitsOf]
    | i + 1 =>
      rw [bitsOf, getElem?_cons_succ, ih (by omega)]
      congr 2
      omega

/-- A word that begins another is the number in its upper bits. -/
theorem eq_div_of_prefix {m w : ℕ} (hv : v < 2 ^ l) (hw : w < 2 ^ m) (hlm : l ≤ m)
    (h : bitsOf l v <+: bitsOf m w) : v = w / 2 ^ (m - l) := by
  apply Nat.eq_of_testBit_eq
  intro j
  by_cases hj : j < l
  · have hbit : (bitsOf l v)[l - 1 - j]? = (bitsOf m w)[l - 1 - j]? := by
      obtain ⟨rest, hrest⟩ := h
      rw [← hrest, getElem?_append_left]
      rw [bitsOf_length]
      omega
    rw [bitsOf_getElem? (by omega), bitsOf_getElem? (by omega), Option.some.injEq] at hbit
    rw [Nat.testBit_div_two_pow]
    have hl : l - 1 - (l - 1 - j) = j := by omega
    have hm : m - 1 - (l - 1 - j) = j + (m - l) := by omega
    rwa [hl, hm] at hbit
  · have hdiv : w / 2 ^ (m - l) < 2 ^ l := by
      rw [Nat.div_lt_iff_lt_mul (Nat.two_pow_pos _), ← pow_add]
      rwa [Nat.add_sub_cancel' hlm]
    have hpow : 2 ^ l ≤ 2 ^ j := Nat.pow_le_pow_right (by norm_num) (by omega)
    rw [Nat.testBit_lt_two_pow (hv.trans_le hpow), Nat.testBit_lt_two_pow (hdiv.trans_le hpow)]

variable (lens : List ℕ)

def count (l : ℕ) : ℕ := if l = 0 then 0 else lens.count l

def first : ℕ → ℕ
  | 0 => 0
  | l + 1 => (first l + count lens l) * 2

def len (s : ℕ) : ℕ := lens.getD s 0

def value (s : ℕ) : ℕ := first lens (len lens s) + (lens.take s).count (len lens s)

def code (s : ℕ) : List Bool := bitsOf (len lens s) (value lens s)

/-- The lengths are at most `max` and leave room for one another. -/
structure Kraft (max : ℕ) : Prop where
  le : ∀ l ∈ lens, l ≤ max
  sum_le : ∑ l ∈ Finset.Icc 1 max, lens.count l * 2 ^ (max - l) ≤ 2 ^ max

variable {lens}

@[simp] theorem code_length (s : ℕ) : (code lens s).length = len lens s := bitsOf_length _ _

theorem lt_length_of_len (hs : len lens s ≠ 0) : s < lens.length := by
  by_contra hge
  exact hs (getD_eq_default lens 0 (Nat.not_lt.mp hge))

theorem len_mem (hs : len lens s ≠ 0) : len lens s ∈ lens := by
  have hlt := lt_length_of_len hs
  rw [len, getD_eq_getElem lens 0 hlt]
  exact getElem_mem hlt

theorem split_at (hs : len lens s ≠ 0) : lens.take (s + 1) = lens.take s ++ [len lens s] := by
  have hlt := lt_length_of_len hs
  rw [take_add_one, getElem?_eq_getElem hlt, len, getD_eq_getElem lens 0 hlt]
  rfl

theorem rank_lt (hs : len lens s ≠ 0) (hst : s < t) :
    (lens.take s).count (len lens s) < (lens.take t).count (len lens s) := by
  have hle : (lens.take (s + 1)).count (len lens s) ≤ (lens.take t).count (len lens s) :=
    (take_prefix_take_left hst).sublist.count_le _
  rw [split_at hs, count_append, count_singleton_self] at hle
  omega

theorem rank_lt_count (hs : len lens s ≠ 0) :
    (lens.take s).count (len lens s) < count lens (len lens s) := by
  have hlt := rank_lt hs (lt_length_of_len hs)
  rw [take_length] at hlt
  rwa [count, if_neg hs]

theorem first_add_le (lens : List ℕ) (l d : ℕ) :
    (first lens l + count lens l) * 2 ^ (d + 1) ≤ first lens (l + 1 + d) := by
  induction d with
  | zero => simp [first]
  | succ d ih =>
    calc (first lens l + count lens l) * 2 ^ (d + 1 + 1)
        = (first lens l + count lens l) * 2 ^ (d + 1) * 2 := by ring
      _ ≤ first lens (l + 1 + d) * 2 := Nat.mul_le_mul_right 2 ih
      _ ≤ first lens (l + 1 + (d + 1)) := Nat.mul_le_mul_right 2 (le_add_right _ _)

theorem first_add_count (lens : List ℕ) {max : ℕ} (hl : l ≤ max) :
    (first lens l + count lens l) * 2 ^ (max - l) =
      ∑ j ∈ Finset.Icc 1 l, lens.count j * 2 ^ (max - j) := by
  induction l with
  | zero => simp [first, count]
  | succ l ih =>
    have hpow : 2 ^ (max - l) = 2 * 2 ^ (max - (l + 1)) := by
      rw [← pow_succ']
      congr 1
      omega
    rw [Finset.sum_Icc_succ_top (by omega), ← ih (by omega), hpow]
    simp only [first, count, Nat.succ_ne_zero, if_false]
    ring

namespace Kraft

variable {max : ℕ}

theorem len_le (h : Kraft lens max) (hs : len lens s ≠ 0) : len lens s ≤ max := h.le _ (len_mem hs)

theorem first_add_count_le (h : Kraft lens max) (hl : l ≤ max) :
    first lens l + count lens l ≤ 2 ^ l := by
  have hsub : ∑ j ∈ Finset.Icc 1 l, lens.count j * 2 ^ (max - j) ≤ 2 ^ max :=
    (Finset.sum_le_sum_of_subset (Finset.Icc_subset_Icc_right hl)).trans h.sum_le
  rw [← first_add_count lens hl] at hsub
  have hpow : 2 ^ max = 2 ^ l * 2 ^ (max - l) := by
    rw [← pow_add, Nat.add_sub_cancel' hl]
  rw [hpow] at hsub
  exact Nat.le_of_mul_le_mul_right hsub (Nat.two_pow_pos _)

theorem value_lt (h : Kraft lens max) (hs : len lens s ≠ 0) : value lens s < 2 ^ len lens s := by
  have hrank := rank_lt_count hs
  have hroom := h.first_add_count_le (h.len_le hs)
  unfold value
  omega

/-- No code word of a canonical code begins with another. -/
theorem prefix_free (h : Kraft lens max) (hs : len lens s ≠ 0) (ht : len lens t ≠ 0)
    (hpre : code lens s <+: code lens t) : s = t := by
  have hle : len lens s ≤ len lens t := by
    have hlength := hpre.length_le
    rwa [code_length, code_length] at hlength
  have heq := eq_div_of_prefix (h.value_lt hs) (h.value_lt ht) hle hpre
  have hrank := rank_lt_count hs
  rcases hle.lt_or_eq with hshort | hsame
  · -- the upper bits of a longer code are beyond all codes of the shorter length
    obtain ⟨d, hd⟩ := Nat.exists_eq_add_of_lt hshort
    have hnext := first_add_le lens (len lens s) d
    have hlater : (first lens (len lens s) + count lens (len lens s)) * 2 ^ (d + 1) ≤
        value lens t := by
      refine hnext.trans ?_
      rw [add_right_comm, ← hd]
      exact le_add_right _ _
    have hdiff : len lens t - len lens s = d + 1 := by omega
    have hupper := (Nat.le_div_iff_mul_le (Nat.two_pow_pos (d + 1))).mpr hlater
    rw [hdiff] at heq
    rw [← heq, value] at hupper
    omega
  · rw [hsame, Nat.sub_self, value, value, hsame] at heq
    rcases Nat.lt_trichotomy s t with hst | hst | hst
    · have hlt := rank_lt hs hst
      rw [hsame] at hlt
      omega
    · exact hst
    · have hlt := rank_lt ht hst
      omega

end Kraft

end Vnu.Lib.Canonical
