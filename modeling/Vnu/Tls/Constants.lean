import Mathlib.Analysis.SpecialFunctions.Pow.NthRootLemmas
import Mathlib.Data.Nat.Count
import Vnu.Tls.Fips
import Vnu.Tls.Sha256

/-!
The tables of the source against the roots they are taken from: an entry is checked by cubing or
squaring it.
-/
namespace Vnu.Tls

open Fips List

theorem filter_range_eq_map_nth (p : ℕ → Prop) [DecidablePred p] (n : ℕ) :
    (range n).filter p = (range (Nat.count p n)).map (Nat.nth p) := by
  induction n with
  | zero => rfl
  | succ n ih =>
    rw [range_succ, filter_append, ih, Nat.count_succ]
    split_ifs with hn
    · rw [range_succ, map_append, map_singleton, Nat.nth_count hn]
      simp [hn]
    · rw [Nat.add_zero]
      simp [hn]

def isPrime (n : ℕ) : Bool := decide (2 ≤ n) && (range n).all fun d => d < 2 || n % d != 0

theorem isPrime_iff (n : ℕ) : isPrime n = true ↔ n.Prime := by
  rw [Nat.prime_def_lt', isPrime, Bool.and_eq_true, decide_eq_true_eq, all_eq_true]
  refine and_congr_right fun _ => ⟨fun h d hd hlt hdvd => ?_, fun h d hd => ?_⟩
  · have hd' := h d (mem_range.mpr hlt)
    simp only [Bool.or_eq_true, decide_eq_true_eq, bne_iff_ne] at hd'
    have := Nat.mod_eq_zero_of_dvd hdvd
    omega
  · rw [mem_range] at hd
    by_cases hlt : d < 2
    · simp [hlt]
    · have hno := h d (by omega) hd
      rw [Nat.dvd_iff_mod_eq_zero] at hno
      simp [hno]

def primes : List ℕ := (range 312).filter fun n => isPrime n

theorem primes_length : primes.length = 64 := by decide +kernel

theorem nth_prime {t : ℕ} (ht : t < 64) : Nat.nth Nat.Prime t = primes.getD t 0 := by
  have hfilter : primes = (range 312).filter Nat.Prime := by
    apply filter_congr
    intro n _
    rw [Bool.eq_iff_iff, isPrime_iff, decide_eq_true_iff]
  have hlt : t < primes.length := by rw [primes_length]; exact ht
  rw [filter_range_eq_map_nth] at hfilter
  rw [getD_eq_getElem _ _ hlt]
  simp only [hfilter, getElem_map, getElem_range]

def isRoot (k p c : ℕ) : Bool :=
  decide (c ^ k ≤ p * 2 ^ (32 * k)) && decide (p * 2 ^ (32 * k) < (c + 1) ^ k)

theorem rootBits_eq {k p c : ℕ} {x : UInt32} (h : isRoot k p c = true)
    (hx : c % 2 ^ 32 = x.toNat) : rootBits k p = x.toBitVec := by
  rw [isRoot, Bool.and_eq_true, decide_eq_true_eq, decide_eq_true_eq] at h
  rw [rootBits, Nat.nthRoot_eq_of_le_of_lt h.1 h.2]
  apply BitVec.eq_of_toNat_eq
  rw [BitVec.toNat_ofNat, hx]
  rfl

def rootEntry (k p : ℕ) (x : UInt32) : Bool :=
  (range 20).any fun whole => isRoot k p (whole * 2 ^ 32 + x.toNat)

theorem rootEntry_eq {k p : ℕ} {x : UInt32} (h : rootEntry k p x = true) :
    rootBits k p = x.toBitVec := by
  rw [rootEntry, any_eq_true] at h
  obtain ⟨whole, -, hroot⟩ := h
  refine rootBits_eq hroot ?_
  have := x.toNat_lt
  omega

theorem shaK_roots :
    (range 64).all (fun t => rootEntry 3 (primes.getD t 0) (shaK.getD t 0)) = true := by
  decide +kernel

theorem shaK_eq {t : ℕ} (ht : t < 64) : (shaK.getD t 0).toBitVec = K t := by
  rw [K, nth_prime ht]
  exact (rootEntry_eq (all_eq_true.mp shaK_roots t (mem_range.mpr ht))).symm

def Words.state (w : Words) : State :=
  ⟨w.a.toBitVec, w.b.toBitVec, w.c.toBitVec, w.d.toBitVec, w.e.toBitVec, w.f.toBitVec,
    w.g.toBitVec, w.h.toBitVec⟩

theorem init_state (ctx : Sha256Ctx) : (tlsSha256Init ctx).h.state = initial := by
  have hroot : ∀ t x, t < 64 → rootEntry 2 (primes.getD t 0) x = true →
      rootBits 2 (Nat.nth Nat.Prime t) = x.toBitVec := by
    intro t x ht hx
    rw [nth_prime ht]
    exact rootEntry_eq hx
  simp only [initial, hroot 0 0x6a09e667 (by decide) (by decide +kernel),
    hroot 1 0xbb67ae85 (by decide) (by decide +kernel),
    hroot 2 0x3c6ef372 (by decide) (by decide +kernel),
    hroot 3 0xa54ff53a (by decide) (by decide +kernel),
    hroot 4 0x510e527f (by decide) (by decide +kernel),
    hroot 5 0x9b05688c (by decide) (by decide +kernel),
    hroot 6 0x1f83d9ab (by decide) (by decide +kernel),
    hroot 7 0x5be0cd19 (by decide) (by decide +kernel)]
  rfl

end Vnu.Tls
