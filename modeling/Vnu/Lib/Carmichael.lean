import Mathlib.NumberTheory.ArithmeticFunction.Carmichael

/-!
Powers modulo a squarefree number: an exponent that is one modulo the Carmichael function
changes nothing.
-/
namespace Vnu.Lib

open List

open ArithmeticFunction (carmichael)

variable {n k : ℕ}

/-- The case of a prime: either nothing is left, or the units have this order. -/
theorem pow_modEq_self_of_prime {p : ℕ} (hp : p.Prime) (hpos : 0 < k)
    (hk : k ≡ 1 [MOD carmichael p]) (x : ℕ) : x ^ k ≡ x [MOD p] := by
  by_cases hx : p ∣ x
  · have hzero := (Nat.modEq_zero_iff_dvd.mpr hx)
    exact ((hzero.pow k).trans (by rw [zero_pow hpos.ne'])).trans hzero.symm
  obtain ⟨u, hu⟩ := (ZMod.isUnit_iff_coprime x p).mpr
    ((Nat.Prime.coprime_iff_not_dvd hp).mpr hx).symm
  obtain ⟨j, hj⟩ := (Nat.modEq_iff_dvd' hpos).mp hk.symm
  have hexp : k = carmichael p * j + 1 := by omega
  rw [← ZMod.natCast_eq_natCast_iff, Nat.cast_pow, ← hu, ← Units.val_pow_eq_pow_val, hexp,
    pow_succ, pow_mul, ArithmeticFunction.pow_carmichael, one_pow, one_mul]

theorem pow_modEq_self (hn : Squarefree n) (hpos : 0 < k) (hk : k ≡ 1 [MOD carmichael n]) (x : ℕ) :
    x ^ k ≡ x [MOD n] := by
  have hle : x ≤ x ^ k := Nat.le_self_pow hpos.ne' x
  have hprimes : ∏ p ∈ n.primeFactors, p ∣ x ^ k - x := by
    refine Finset.prod_primes_dvd _ (fun p hp => (Nat.prime_of_mem_primeFactors hp).prime) ?_
    intro p hp
    have hkp : k ≡ 1 [MOD carmichael p] :=
      hk.of_dvd (ArithmeticFunction.carmichael_dvd (Nat.dvd_of_mem_primeFactors hp))
    exact (Nat.modEq_iff_dvd' hle).mp
      (pow_modEq_self_of_prime (Nat.prime_of_mem_primeFactors hp) hpos hkp x).symm
  rw [Nat.prod_primeFactors_of_squarefree hn] at hprimes
  exact ((Nat.modEq_iff_dvd' hle).mpr hprimes).symm

theorem pos_of_modEq_one (hn : 2 < n) (hk : k ≡ 1 [MOD carmichael n]) : 0 < k := by
  apply Nat.pos_of_ne_zero
  rintro rfl
  have hone : carmichael n = 1 := Nat.dvd_one.mp ((Nat.modEq_iff_dvd' (Nat.zero_le 1)).mp hk)
  have : Fact (2 < n) := ⟨hn⟩
  have hneg := ArithmeticFunction.pow_carmichael (-1 : (ZMod n)ˣ)
  rw [hone, pow_one, Units.ext_iff] at hneg
  exact ZMod.neg_one_ne_one hneg

section

variable {l : List ℕ}

theorem coprime_prod_of_notMem {p : ℕ} (hp : p.Prime) (hl : ∀ q ∈ l, q.Prime) (hmem : p ∉ l) :
    p.Coprime l.prod := by
  refine Nat.coprime_list_prod_right_iff.mpr fun q hq => ?_
  exact (Nat.coprime_primes hp (hl q hq)).mpr fun heq => hmem (heq ▸ hq)

theorem prod_primes (hl : ∀ p ∈ l, p.Prime) (hnodup : l.Nodup) :
    Squarefree l.prod ∧ l.prod.totient = (l.map (· - 1)).prod := by
  induction l with
  | nil => exact ⟨squarefree_one, rfl⟩
  | cons p l ih =>
    obtain ⟨hmem, hrest⟩ := nodup_cons.mp hnodup
    have hp := hl p mem_cons_self
    have hl' : ∀ q ∈ l, q.Prime := fun q hq => hl q (mem_cons_of_mem p hq)
    have hco := coprime_prod_of_notMem hp hl' hmem
    obtain ⟨hsq, htot⟩ := ih hl' hrest
    rw [prod_cons, map_cons, prod_cons]
    exact ⟨(Nat.squarefree_mul hco).mpr ⟨hp.squarefree, hsq⟩,
      by rw [Nat.totient_mul hco, Nat.totient_prime hp, htot]⟩

theorem modEq_one_of_prod (hl : ∀ p ∈ l, p.Prime) (hnodup : l.Nodup)
    (hk : k ≡ 1 [MOD (l.map (· - 1)).prod]) : k ≡ 1 [MOD carmichael l.prod] := by
  rw [← (prod_primes hl hnodup).2] at hk
  exact hk.of_dvd (ArithmeticFunction.carmichael_dvd_totient _)

end

end Vnu.Lib
