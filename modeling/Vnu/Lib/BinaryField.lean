import Mathlib

/-!
Polynomials over the field of two elements, given by their bits. Adding is xor; a multiplication by
the variable shifts the bits up, and brings the one that is lost back through the modulus.
-/
namespace Vnu.Lib.BinaryField

open Finset Polynomial

variable {R : Type*} [CommRing R] {x : R} {w : ℕ} {b c r : ℕ → Bool}

/-- The value at `x` of the polynomial with the coefficients `b 0` to `b (w - 1)`. -/
def value (x : R) (w : ℕ) (b : ℕ → Bool) : R := ∑ i ∈ range w, if b i then x ^ i else 0

theorem value_congr (h : ∀ i < w, b i = c i) : value x w b = value x w c :=
  sum_congr rfl fun i hi => by rw [h i (mem_range.mp hi)]

theorem value_false (x : R) (w : ℕ) : value x w (fun _ => false) = 0 :=
  sum_eq_zero fun _ _ => if_neg Bool.false_ne_true

theorem value_succ (x : R) (w : ℕ) (b : ℕ → Bool) :
    value x (w + 1) b = (if b 0 then 1 else 0) + x * value x w fun i => b (i + 1) := by
  rw [value, sum_range_succ', value, mul_sum, add_comm, pow_zero]
  congr 1
  refine sum_congr rfl fun i _ => ?_
  split_ifs
  · exact pow_succ' x i
  · exact (mul_zero x).symm

theorem value_eq_sum {s : Finset ℕ} (hs : s ⊆ range w) (h : ∀ i < w, b i = decide (i ∈ s)) :
    value x w b = ∑ i ∈ s, x ^ i := by
  rw [value_congr h, value]
  simp only [decide_eq_true_eq, sum_ite_mem, inter_eq_right.mpr hs]

section

variable [Algebra (ZMod 2) R]

theorem value_xor (x : R) (w : ℕ) (b c : ℕ → Bool) :
    value x w (fun i => b i ^^ c i) = value x w b + value x w c := by
  rw [value, value, value, ← sum_add_distrib]
  refine sum_congr rfl fun i _ => ?_
  cases b i <;> cases c i <;> simp [ZModModule.add_self]

/-- One shift, where `r` are the bits of the power of `x` that is lost. -/
theorem value_shift (hr : x ^ (w + 1) = value x (w + 1) r) (b : ℕ → Bool) :
    value x (w + 1) (fun i => (i != 0 && b (i - 1)) ^^ (b w && r i)) = x * value x (w + 1) b := by
  have hlost : value x (w + 1) (fun i => b w && r i) = if b w then x ^ (w + 1) else 0 := by
    cases b w
    · exact value_false x _
    · exact hr.symm
  rw [value_xor, hlost, value_succ, value, value, sum_range_succ, mul_add, mul_ite, mul_zero,
    ← pow_succ']
  simp

end

theorem map_value {S : Type*} [CommRing S] (φ : R →+* S) (x : R) (w : ℕ) (b : ℕ → Bool) :
    φ (value x w b) = value (φ x) w b := by
  unfold value
  rw [map_sum]
  refine sum_congr rfl fun i _ => ?_
  split_ifs
  · rw [map_pow]
  · rw [map_zero]

variable {p q : (ZMod 2)[X]} {n : ℕ}

theorem coeff_value (w : ℕ) (b : ℕ → Bool) (i : ℕ) :
    (value (X : (ZMod 2)[X]) w b).coeff i = if i < w ∧ b i then 1 else 0 := by
  have hterm : ∀ j, (if b j then (X : (ZMod 2)[X]) ^ j else 0).coeff i =
      if i = j then (if b j then 1 else 0) else 0 := by
    intro j
    split_ifs <;> simp_all [coeff_X_pow]
  rw [value, finsetSum_coeff, sum_congr rfl fun j _ => hterm j, sum_ite_eq, ite_and]
  simp only [mem_range]

/-- Below the degree of the modulus, two values are the same only if their bits are. -/
theorem value_root_inj (hp : p.Monic) (hdeg : p.natDegree = w)
    (h : value (AdjoinRoot.root p) w b = value (AdjoinRoot.root p) w c) {i : ℕ} (hi : i < w) :
    b i = c i := by
  rw [← AdjoinRoot.mk_X, ← map_value, ← map_value, AdjoinRoot.mk_eq_mk] at h
  have hlow : (value (X : (ZMod 2)[X]) w b - value X w c).degree < p.degree := by
    rw [degree_eq_natDegree hp.ne_zero, hdeg, degree_lt_iff_coeff_zero]
    intro j hj
    rw [coeff_sub, coeff_value, coeff_value, if_neg (by omega), if_neg (by omega), sub_zero]
  have hsame := congrArg (coeff · i) (sub_eq_zero.mp (eq_zero_of_dvd_of_degree_lt h hlow))
  simp only [coeff_value, hi, true_and] at hsame
  cases hb : b i <;> cases hc : c i <;> simp_all

theorem monic_and_natDegree (hp : p = X ^ n + q) (hq : q.degree < n) :
    p.Monic ∧ p.natDegree = n := by
  subst hp
  refine ⟨monic_X_pow_add hq, ?_⟩
  rw [natDegree_add_eq_left_of_degree_lt (by rwa [degree_X_pow]), natDegree_X_pow]

theorem root_pow (hp : p = X ^ n + q) : AdjoinRoot.root p ^ n = AdjoinRoot.mk p q := by
  have hzero : AdjoinRoot.mk p (X ^ n + q) = 0 := by rw [← hp, AdjoinRoot.mk_self]
  rw [map_add, map_pow, AdjoinRoot.mk_X] at hzero
  rw [eq_neg_of_add_eq_zero_left hzero, ZModModule.neg_eq_self]

end Vnu.Lib.BinaryField
