import Vnu.Tls.Montgomery

/-!
Modular exponentiation. The base is compared with the modulus in the limbs of the modulus only, so
the upper limbs of a longer base are lost; with 128 limbs the division reads a limb that was never
set.
-/
namespace Vnu.Tls

open Lib.Limbs List Nat

section

variable {m : Limbs}

def montR (m : Limbs) : ZMod (val m) := (radix ^ m.length : ℕ)

theorem montR_isUnit (hodd : val m % 2 = 1) : IsUnit (montR m) := by
  rw [montR, ZMod.isUnit_iff_coprime, radix_pow_eq]
  exact Nat.Coprime.pow_left _ (Nat.coprime_two_left.mpr (Nat.odd_iff.mpr hodd))

theorem val_odd_iff : m.getD 0 0 &&& 1 ≠ 0 ↔ val m % 2 = 1 := by
  rw [and_one_ne_zero_iff, getD_toNat, pow_zero, Nat.div_one, radix,
    Nat.mod_mod_of_dvd _ (by norm_num)]

/-- The product in an array of any size: reduced, and the limbs behind the first `2 * n + 1` as they
were. -/
theorem bnMontMulIn_product {a b : Limbs} (hodd : val m % 2 = 1) (ha : a.length = m.length)
    (hb : b.length = m.length) (hav : val a < val m) (hbv : val b < val m) (t : Limbs) :
    ∃ r rest, bnMontMulIn t a b m (bnMprime (m.getD 0 0)) = r ++ rest ∧ r.length = m.length ∧
      val r < val m ∧ (val r : ZMod (val m)) = val a * val b * (2 ^ (32 * m.length))⁻¹ ∧
      rest.drop (m.length + 1) = t.drop (2 * m.length + 1) := by
  have hodd' := val_odd_iff.mpr hodd
  have hsmall : val a * val b < radix ^ m.length * val m :=
    Nat.mul_lt_mul'' (hav.trans (val_lt m)) hbv
  obtain ⟨-, -, -, hhigh⟩ := montLoop_val hodd' m.length (bnMul a b)
    (by rw [bnMul_length, ha, hb]) (by
      rw [bnMul_val, pow_add]
      exact (Nat.mul_lt_mul'' (ha ▸ val_lt a) (hb ▸ val_lt b)).trans_le (Nat.le_add_right _ _))
  have hunit := montR_isUnit hodd
  have hR : montR m = 2 ^ (32 * m.length) := by
    rw [montR, radix_pow_eq, Nat.cast_pow, Nat.cast_ofNat]
  refine ⟨_, _, (bnMontMulIn_eq ha hb t _).trans (append_assoc _ _ _), bnMontMul_length hodd' ha hb,
    bnMontMul_lt hodd' ha hb hsmall, ?_, drop_left' hhigh⟩
  have hprod := bnMontMul_cast hodd' ha hb
  rw [← montR] at hprod
  rw [← hprod, ← hR, mul_assoc, ZMod.mul_inv_of_unit _ hunit, mul_one]

/-- Two limbs in an array of six: the sixth is not touched. -/
theorem bnMontMulIn_product_two_limbs : ∃ r rest,
    bnMontMulIn [1, 2, 3, 4, 5, 6] [3, 1] [5, 1] [7, 1] (bnMprime 7) = r ++ rest ∧
      r.length = 2 ∧ val r < val [7, 1] ∧
      (val r : ZMod (val [7, 1])) = val [3, 1] * val [5, 1] * (2 ^ 64)⁻¹ ∧ rest.drop 3 = [6] :=
  bnMontMulIn_product (a := [3, 1]) (b := [5, 1]) (m := [7, 1]) (by decide) rfl rfl (by decide)
    (by decide) [1, 2, 3, 4, 5, 6]

theorem bnMontMul_form (hodd : val m % 2 = 1) {a b : Limbs} (ha : a.length = m.length)
    (hb : b.length = m.length) {X Y : ZMod (val m)} (hX : (val a : ZMod (val m)) = X * montR m)
    (hY : (val b : ZMod (val m)) = Y * montR m) :
    (val (bnMontMul a b m (bnMprime (m.getD 0 0))) : ZMod (val m)) = X * Y * montR m := by
  have hprod := bnMontMul_cast (val_odd_iff.mpr hodd) ha hb
  apply (montR_isUnit hodd).mul_right_cancel
  rw [← montR] at hprod
  rw [hprod, hX, hY]
  ring

/-- The invariant of square and multiply, in Montgomery form. -/
theorem powLoop_form (hodd : val m % 2 = 1) (e : Limbs) {ar : Limbs} {Y : ZMod (val m)}
    (har : ar.length = m.length) (hY : (val ar : ZMod (val m)) = Y * montR m) (k : ℕ) (r : Limbs)
    (hr : r.length = m.length) (X : ZMod (val m)) (hX : (val r : ZMod (val m)) = X * montR m) :
    (val (powLoop e ar m (bnMprime (m.getD 0 0)) k r) : ZMod (val m)) =
        X ^ 2 ^ k * Y ^ (val e % 2 ^ k) * montR m ∧
      (powLoop e ar m (bnMprime (m.getD 0 0)) k r).length = m.length := by
  induction k generalizing r X with
  | zero =>
    rw [pow_zero, pow_one, Nat.mod_one, pow_zero, mul_one]
    exact ⟨hX, hr⟩
  | succ k ih =>
    have hlen := bnMontMul_length (val_odd_iff.mpr hodd) hr hr
    have hsq := bnMontMul_form hodd hr hr hX hX
    have hbit := bnGetbit_toNat e k
    have hmod : val e % 2 ^ (k + 1) = 2 ^ k * (val e / 2 ^ k % 2) + val e % 2 ^ k := by
      rw [pow_succ, Nat.mod_mul, add_comm]
    rw [powLoop]
    split_ifs with hset
    · have hone : val e / 2 ^ k % 2 = 1 := by
        have : (bnGetbit e k).toNat ≠ 0 := fun h => hset (UInt32.toNat_inj.mp h)
        omega
      obtain ⟨hval, hlength⟩ := ih _ (bnMontMul_length (val_odd_iff.mpr hodd) hlen har) _
        (bnMontMul_form hodd hlen har hsq hY)
      refine ⟨?_, hlength⟩
      rw [hval, hmod, hone, mul_one, mul_pow, ← sq, ← pow_mul, ← pow_succ', pow_add Y,
        mul_assoc (X ^ 2 ^ (k + 1))]
    · have hzero : val e / 2 ^ k % 2 = 0 := by
        rw [← hbit, not_not.mp hset]
        rfl
      obtain ⟨hval, hlength⟩ := ih _ hlen _ hsq
      refine ⟨?_, hlength⟩
      rw [hval, hmod, hzero, mul_zero, zero_add, ← sq, ← pow_mul, ← pow_succ']

theorem val_one_take {n : ℕ} (hpos : 0 < n) :
    val ((1 :: replicate (bnLimbs - 1) (0 : UInt32)).take n) = 1 := by
  rw [val_take, val_cons, val_replicate_zero]
  exact Nat.mod_eq_of_lt (Nat.one_lt_pow hpos.ne' (by decide))

/-- The exponentiation, with an error `S` in the square of the radix. -/
theorem modpowMont_val (hodd : val m % 2 = 1) (hm : m.length ≤ bnLimbs) {b r2 e : Limbs}
    (hb : b.length = m.length) (hr2 : r2.length = m.length) (he : e.length = bnLimbs)
    {S : ZMod (val m)} (hS : (val r2 : ZMod (val m)) = S * montR m ^ 2) :
    (val (modpowMont b r2 e m) : ZMod (val m)) =
        S ^ (2 ^ bnBitlen e bnLimbs + val e) * (val b : ZMod (val m)) ^ val e ∧
      val (modpowMont b r2 e m) < val m := by
  have hodd' := val_odd_iff.mpr hodd
  have hpos : 0 < m.length := by
    rw [length_pos_iff]
    rintro rfl
    cases hodd
  obtain ⟨one, hone⟩ :
      ∃ o, o = (1 :: replicate (bnLimbs - 1) (0 : UInt32)).take m.length := ⟨_, rfl⟩
  have honeval : val one = 1 := by rw [hone, val_one_take hpos]
  have honelen : one.length = m.length := by
    rw [hone, length_take, length_cons, length_replicate] at *
    omega
  obtain ⟨ar, har⟩ : ∃ x, x = bnMontMul b r2 m (bnMprime (m.getD 0 0)) := ⟨_, rfl⟩
  obtain ⟨r, hr⟩ : ∃ x, x = bnMontMul one r2 m (bnMprime (m.getD 0 0)) := ⟨_, rfl⟩
  have harlen : ar.length = m.length := by rw [har, bnMontMul_length hodd' hb hr2]
  have hrlen : r.length = m.length := by rw [hr, bnMontMul_length hodd' honelen hr2]
  have harval : (val ar : ZMod (val m)) = val b * S * montR m := by
    apply (montR_isUnit hodd).mul_right_cancel
    rw [har, montR, bnMontMul_cast hodd' hb hr2, hS, montR]
    ring
  have hrval : (val r : ZMod (val m)) = S * montR m := by
    apply (montR_isUnit hodd).mul_right_cancel
    rw [hr, montR, bnMontMul_cast hodd' honelen hr2, hS, honeval, montR]
    ring
  obtain ⟨hloop, hlen⟩ := powLoop_form hodd e harlen harval (bnBitlen e bnLimbs) r hrlen S hrval
  have hexp : val e % 2 ^ bnBitlen e bnLimbs = val e := by
    have hlt := val_lt_bitlen e bnLimbs
    rw [Nat.mod_eq_of_lt (he ▸ val_lt e)] at hlt
    exact Nat.mod_eq_of_lt hlt
  rw [modpowMont, ← hone, ← har, ← hr]
  refine ⟨?_, bnMontMul_lt hodd' hlen honelen (by
    rw [honeval]
    exact Nat.mul_lt_mul_of_lt_of_le (hlen ▸ val_lt _) (by omega) (by omega))⟩
  apply (montR_isUnit hodd).mul_right_cancel
  have hback := bnMontMul_cast hodd' hlen honelen
  rw [← montR] at hback
  rw [hback, hloop, hexp, honeval]
  ring

end

theorem junk_length {m : Limbs} {n : ℕ} (hlen : m.length = bnLimbs) (hn : n ≤ bnLimbs)
    (junk : UInt32) : n + 1 ≤ (m ++ [junk]).length := by
  rw [length_append, length_singleton]
  omega

theorem radix_square_val {n : ℕ} (hn : n ≤ bnLimbs) :
    val ((replicate (2 * bnLimbs + 2) (0 : UInt32)).set (2 * n) 1) = radix ^ (2 * n) := by
  have hset := val_modify (replicate (2 * bnLimbs + 2) (0 : UInt32)) (2 * n) (fun _ => 1)
    (by rw [length_replicate]; omega)
  rw [← set_eq_modify, getD_toNat, val_replicate_zero, Nat.zero_div, UInt32.toNat_one, mul_one,
    zero_add] at hset
  exact hset

theorem radix_square_lt {n : ℕ} (hn : n ≤ bnLimbs) :
    val ((replicate (2 * bnLimbs + 2) (0 : UInt32)).set (2 * n) 1) < radix ^ (2 * n + 1) := by
  rw [radix_square_val hn]
  exact Nat.pow_lt_pow_right (by decide) (lt_succ_self _)

theorem two_pow_cut_le (K k n : ℕ) : 2 ^ K / 2 ^ k % 2 ^ (32 * (n + 1)) ≤ 2 ^
    (32 * n) * 2 ^ 31 := by
  rcases lt_or_ge K k with hlt | hle
  · rw [Nat.div_eq_of_lt (Nat.pow_lt_pow_right (by decide) hlt)]
    exact zero_le _
  rw [Nat.pow_div hle (by decide)]
  rcases lt_or_ge (K - k) (32 * (n + 1)) with hfit | hover
  · rw [Nat.mod_eq_of_lt (Nat.pow_lt_pow_right (by decide) hfit), ← pow_add]
    exact Nat.pow_le_pow_right (by decide) (by omega)
  · rw [Nat.mod_eq_zero_of_dvd (pow_dvd_pow 2 hover)]
    exact zero_le _

def cutBase (m : Limbs) (n : ℕ) (base : List UInt8) : ℕ :=
  let b := val (bnFromBytes bnLimbs base)
  if b % radix ^ n < val m then b % radix ^ n else b

structure Modulus (m : Limbs) (n : ℕ) : Prop where
  length : m.length = bnLimbs
  le : n ≤ bnLimbs
  pos : 0 < val m
  lt : val m < radix ^ n

namespace Modulus

variable {m : Limbs} {n : ℕ} (h : Modulus m n) (junk : UInt32)

include h

theorem read_eq :
    val (m ++ [junk]) % radix ^ (n + 1) =
      val m + if n = bnLimbs then radix ^ n * junk.toNat else 0 := by
  have hlast : val [junk] = junk.toNat := by rw [val_cons, val_nil, mul_zero, add_zero]
  have hlt := h.lt
  rw [val_append, h.length, hlast]
  split_ifs with hfull
  · have hj := toNat_lt_radix junk
    rw [← hfull, Nat.mod_eq_of_lt]
    calc val m + radix ^ n * junk.toNat < radix ^ n * (junk.toNat + 1) := by
          rw [Nat.mul_succ]
          omega
      _ ≤ radix ^ (n + 1) := by rw [pow_succ]; exact Nat.mul_le_mul_left _ hj
  · have hle := h.le
    have hdvd : radix ^ (n + 1) ∣ radix ^ bnLimbs := pow_dvd_pow _ (by omega)
    have hfit : val m < radix ^ (n + 1) := hlt.trans_le (Nat.pow_le_pow_right radix_pos n.le_succ)
    rw [Nat.add_mod, Nat.mod_eq_zero_of_dvd (hdvd.mul_right _), Nat.mod_eq_of_lt hfit, add_zero,
      Nat.mod_eq_of_lt hfit]

theorem read_sound (hsound : n < bnLimbs ∨ junk = 0) :
    val (m ++ [junk]) % radix ^ (n + 1) = val m := by
  rw [h.read_eq]
  rcases hsound with hfew | rfl
  · rw [if_neg hfew.ne, add_zero]
  · rw [UInt32.toNat_zero, mul_zero, ite_self, add_zero]

theorem bnMod_sound (hsound : n < bnLimbs ∨ junk = 0) {x : Limbs} {xl : ℕ}
    (hx : val x < radix ^ xl) :
    val ((bnMod x xl (m ++ [junk]) n).take n) = val x % val m := by
  have hread := h.read_sound junk hsound
  have hroom : 2 * val m ≤ radix ^ (n + 1) := by
    have hlt := h.lt
    have : 2 * radix ^ n ≤ radix * radix ^ n := Nat.mul_le_mul_right _ (by decide)
    rw [pow_succ']
    omega
  have hmod := bnMod_val hx h.le (junk_length h.length h.le junk) (by rw [hread]; exact h.pos)
    (by rw [hread]; exact hroom)
  rw [hread] at hmod
  exact val_take_of_succ hmod ((Nat.mod_lt _ h.pos).trans h.lt)

theorem r2_sound (hsound : n < bnLimbs ∨ junk = 0) :
    val ((modpowR2 junk m n).take n) = radix ^ (2 * n) % val m := by
  rw [modpowR2, h.bnMod_sound junk hsound (radix_square_lt h.le), radix_square_val h.le]

theorem r2_lost (hfull : n = bnLimbs) : val ((modpowR2 0xffffffff m n).take n) = 0 := by
  have hread := h.read_eq 0xffffffff
  rw [if_pos hfull] at hread
  have hkeep := bnMod_keep (radix_square_lt h.le) h.le (junk_length h.length h.le 0xffffffff) ?_
  · rw [radix_square_val h.le] at hkeep
    refine val_take_of_succ (hkeep.trans ?_) (radix_pow_pos n)
    rw [hfull]
    exact Nat.mod_eq_zero_of_dvd (pow_dvd_pow _ (by decide))
  intro k
  have hcut := two_pow_cut_le (32 * (2 * n)) k n
  have hones : radix ^ n * 2 ^ 31 ≤ radix ^ n * (0xffffffff : UInt32).toNat :=
    Nat.mul_le_mul_left _ (by decide)
  have hpos := h.pos
  rw [← radix_pow_eq, ← radix_pow_eq, ← radix_pow_eq] at hcut
  rw [radix_square_val h.le]
  omega

theorem base_cast (base : List UInt8) :
    (val ((modpowBase junk m n base).take n) : ZMod (val m)) = cutBase m n base := by
  obtain ⟨b, hb⟩ : ∃ b, b = bnFromBytes bnLimbs base := ⟨_, rfl⟩
  have hblt : val b < radix ^ bnLimbs := by
    have := val_lt b
    rwa [hb, bnFromBytes_length, ← hb] at this
  have hcmp : bnCmp b m n ≠ .lt ↔ val m ≤ val b % radix ^ n := by
    rw [bnCmp_ne_lt_iff, Nat.mod_eq_of_lt h.lt]
  rw [modpowBase, cutBase, ← hb]
  by_cases hle : val m ≤ val b % radix ^ n
  · rw [if_pos (hcmp.mpr hle), if_neg (not_lt.mpr hle), take_take, min_eq_left h.le]
    by_cases hsound : n < bnLimbs ∨ junk = 0
    · rw [h.bnMod_sound junk hsound hblt, ZMod.natCast_mod]
    -- the modulus read is above every number of 128 limbs
    rw [not_or, not_lt] at hsound
    have hfull : n = bnLimbs := h.le.antisymm hsound.1
    have hjunk : 0 < junk.toNat := Nat.pos_of_ne_zero fun hz => hsound.2 (UInt32.toNat_inj.mp hz)
    have hread := h.read_eq junk
    rw [if_pos hfull] at hread
    rw [← hfull] at hblt ⊢
    have hkeep := bnMod_keep hblt h.le (junk_length h.length h.le junk) fun k => by
      have hsmall := (Nat.mod_le (val b / 2 ^ k) (radix ^ (n + 1))).trans (Nat.div_le_self _ _)
      have hmul := Nat.mul_le_mul_left (radix ^ n) hjunk
      omega
    rw [Nat.mod_eq_of_lt (hblt.trans_le (Nat.pow_le_pow_right radix_pos n.le_succ))] at hkeep
    rw [val_take_of_succ hkeep hblt]
  · rw [if_neg (mt hcmp.mp hle), if_pos (not_le.mp hle), val_take]

theorem base_length (base : List UInt8) : ((modpowBase junk m n base).take n).length = n := by
  have hle := h.le
  rw [modpowBase]
  split_ifs
  · rw [take_take, min_eq_left hle, length_take_of_le]
    rw [bnMod_length (bnFromBytes_length _ _).ge hle (junk_length h.length hle junk)]
    omega
  · rw [length_take_of_le (by rw [bnFromBytes_length]; exact hle)]

theorem r2_length : ((modpowR2 junk m n).take n).length = n := by
  have hle := h.le
  rw [modpowR2, length_take_of_le]
  rw [bnMod_length (by rw [length_set, length_replicate]; omega) hle
    (junk_length h.length hle junk)]
  omega

theorem take_val : val (m.take n) = val m := by
  rw [val_take, Nat.mod_eq_of_lt h.lt]

theorem take_length : (m.take n).length = n := length_take_of_le (h.length.symm ▸ h.le)

theorem mont_val (hodd : val m % 2 = 1) (base : List UInt8) {e : Limbs} (he : e.length = bnLimbs) :
    ∃ r < val m, val (modpowMont ((modpowBase junk m n base).take n) ((modpowR2 junk m n).take n) e
        (m.take n)) = r ∧
      (n < bnLimbs ∨ junk = 0 → r ≡ cutBase m n base ^ val e [MOD val m]) ∧
      (n = bnLimbs → junk = 0xffffffff → r = 0) ∧ (val m ∣ cutBase m n base ^ val e → r = 0) := by
  obtain ⟨mm, hmm⟩ : ∃ mm, mm = m.take n := ⟨_, rfl⟩
  have hval : val mm = val m := by rw [hmm, h.take_val]
  have hmmlen : mm.length = n := by rw [hmm, h.take_length]
  have hodd' : val mm % 2 = 1 := by rw [hval, hodd]
  have hbase : (val ((modpowBase junk m n base).take n) : ZMod (val mm)) = cutBase m n base := by
    rw [ZMod.natCast_eq_natCast_iff, hval, ← ZMod.natCast_eq_natCast_iff, h.base_cast]
  -- the error in the square of the radix
  obtain ⟨S, hS⟩ : ∃ S : ZMod (val mm),
      (val ((modpowR2 junk m n).take n) : ZMod (val mm)) = S * montR mm ^ 2 := by
    obtain ⟨u, hu⟩ := (montR_isUnit hodd').pow 2
    exact ⟨_ * ↑u⁻¹, by rw [← hu, mul_assoc, Units.inv_mul, mul_one]⟩
  obtain ⟨hcast, hlt⟩ := modpowMont_val hodd' (hmmlen.trans_le h.le)
    ((h.base_length junk base).trans hmmlen.symm) ((h.r2_length junk).trans hmmlen.symm) he hS
  rw [hbase] at hcast
  rw [← hmm]
  have hzero {r : ℕ} (hr : r < val mm) (hcast : (r : ZMod (val mm)) = 0) : r = 0 :=
    Nat.eq_zero_of_dvd_of_lt ((ZMod.natCast_eq_zero_iff _ _).mp hcast) hr
  refine ⟨_, by rwa [hval] at hlt, rfl, fun hsound => ?_, fun hfull hjunk => ?_, fun hdvd => ?_⟩
  · have hone : S = 1 := by
      apply ((montR_isUnit hodd').pow 2).mul_right_cancel
      rw [← hS, h.r2_sound junk hsound, ← hval, ZMod.natCast_mod, one_mul, montR, hmmlen,
        mul_comm, pow_mul, Nat.cast_pow]
    rw [hone, one_pow, one_mul, ← Nat.cast_pow, ZMod.natCast_eq_natCast_iff, hval] at hcast
    exact hcast
  · have hnone : S = 0 := by
      apply ((montR_isUnit hodd').pow 2).mul_right_cancel
      rw [← hS, hjunk, h.r2_lost hfull, zero_mul, Nat.cast_zero]
    apply hzero hlt
    rw [hcast, hnone, zero_pow, zero_mul]
    have := Nat.two_pow_pos (bnBitlen e bnLimbs)
    omega
  · apply hzero hlt
    rw [hcast, ← Nat.cast_pow, (ZMod.natCast_eq_zero_iff _ _).mpr (hval ▸ hdvd), mul_zero]

end Modulus

def modulusLimbs (mod : List UInt8) : ℕ := bnUsed (bnFromBytes bnLimbs mod) bnLimbs

/-- The base that the exponentiation works with, for a modulus given as bytes. -/
def usedBase (base mod : List UInt8) : ℕ :=
  cutBase (bnFromBytes bnLimbs mod) (modulusLimbs mod) base

section

variable {base exp mod : List UInt8}

theorem ofBytes_lt_radix {k : ℕ} (hmod : mod.length ≤ 4 * k) : ofBytes mod < radix ^ k :=
  calc ofBytes mod < 256 ^ mod.length := ofBytes_lt mod
    _ ≤ 256 ^ (4 * k) := Nat.pow_le_pow_right (by decide) hmod
    _ = radix ^ k := bytes_pow_eq k

theorem ofBytes_short (hmod : mod.length ≤ 512) : ofBytes mod < radix ^ bnLimbs :=
  ofBytes_lt_radix hmod

theorem bnFromBytes_short (hmod : mod.length ≤ 512) : val (bnFromBytes bnLimbs mod) = ofBytes mod :=
  bnFromBytes_fits (by decide) (ofBytes_short hmod)

theorem modulusLimbs_le {k : ℕ} (hk : k ≤ bnLimbs) (hmod : mod.length ≤ 4 * k) :
    modulusLimbs mod ≤ k := by
  apply bnUsed_le_of_lt
  rw [bnFromBytes_short (by rw [bnLimbs] at hk; omega)]
  exact ofBytes_lt_radix hmod

theorem modulus_of_bytes (hmod : mod.length ≤ 512) (hpos : 0 < ofBytes mod) :
    Modulus (bnFromBytes bnLimbs mod) (modulusLimbs mod) where
  length := bnFromBytes_length _ _
  le := bnUsed_le _ _
  pos := by rwa [bnFromBytes_short hmod]
  lt := by
    have hlt := val_lt_of_used (bnFromBytes bnLimbs mod) bnLimbs
    rwa [Nat.mod_eq_of_lt (val_lt (bnFromBytes bnLimbs mod) |>.trans_eq
      (by rw [bnFromBytes_length]))] at hlt

theorem usedBase_of_lt (hmod : mod.length ≤ 512) (hlt : ofBytes base < ofBytes mod)
    (hbase : base.length ≤ 512) : usedBase base mod = ofBytes base := by
  have h := modulus_of_bytes hmod (by omega)
  have hfit := h.lt
  rw [bnFromBytes_short hmod] at hfit
  rw [usedBase, cutBase, bnFromBytes_short hmod, bnFromBytes_short hbase,
    Nat.mod_eq_of_lt (hlt.trans hfit), if_pos hlt]

theorem tlsModpow_eq {E : ℕ} (base : List UInt8) (hmod : mod.length ≤ 512)
    (hexp : val (bnFromBytes bnLimbs exp) = E) (hodd : ofBytes mod % 2 = 1) (junk : UInt32) :
    ∃ r < ofBytes mod, tlsModpow junk base exp mod = toBytes mod.length r ∧
      (modulusLimbs mod < bnLimbs ∨ junk = 0 → r ≡ usedBase base mod ^ E [MOD ofBytes mod]) ∧
      (modulusLimbs mod = bnLimbs → junk = 0xffffffff → r = 0) ∧
      (ofBytes mod ∣ usedBase base mod ^ E → r = 0) := by
  have hval := bnFromBytes_short hmod
  have hodd' : val (bnFromBytes bnLimbs mod) % 2 = 1 := by rw [hval, hodd]
  have h := modulus_of_bytes hmod (by omega)
  obtain ⟨r, hr, hmont, hspec⟩ := h.mont_val junk hodd' base (bnFromBytes_length bnLimbs exp)
  rw [hval, hexp] at hspec
  rw [hval] at hr
  refine ⟨r, hr, ?_, hspec⟩
  have hused : ¬(modulusLimbs mod = 0 ∨ (bnFromBytes bnLimbs mod).getD 0 0 &&& 1 = 0) := by
    rw [not_or]
    refine ⟨fun hzero => ?_, val_odd_iff.mpr hodd'⟩
    have hlt := h.lt
    rw [hzero, pow_zero] at hlt
    omega
  rw [tlsModpow, take_of_length_le hmod, ← modulusLimbs, if_neg hused, bnToBytes_eq, hmont]

/-- When the result is right for one exponent, whatever the unset limb holds: with fewer than 128
limbs, when the power of the base that is used is right; with 128, when both powers are multiples of
the modulus. -/
theorem tlsModpow_power_iff (base : List UInt8) (hmod : mod.length ≤ 512) (hexp : exp.length ≤ 512)
    (hodd : ofBytes mod % 2 = 1) :
    (∀ junk, tlsModpow junk base exp mod =
        toBytes mod.length (ofBytes base ^ ofBytes exp % ofBytes mod)) ↔
      (modulusLimbs mod < bnLimbs ∧
        usedBase base mod ^ ofBytes exp ≡ ofBytes base ^ ofBytes exp [MOD ofBytes mod]) ∨
      (modulusLimbs mod = bnLimbs ∧ ofBytes mod ∣ ofBytes base ^ ofBytes exp ∧
        ofBytes mod ∣ usedBase base mod ^ ofBytes exp) := by
  have hpos : 0 < ofBytes mod := by omega
  have hfits {v : ℕ} (hv : v < ofBytes mod) : v < 256 ^ mod.length := hv.trans (ofBytes_lt mod)
  have hbytes {r : ℕ} (hr : r < ofBytes mod) :
      toBytes mod.length r = toBytes mod.length (ofBytes base ^ ofBytes exp % ofBytes mod) ↔
        r = ofBytes base ^ ofBytes exp % ofBytes mod :=
    toBytes_inj (hfits hr) (hfits (Nat.mod_lt _ hpos))
  have hle : modulusLimbs mod ≤ bnLimbs := bnUsed_le _ _
  constructor
  · intro hall
    obtain ⟨r, hr, heq, hsound, -⟩ := tlsModpow_eq base hmod (bnFromBytes_short hexp) hodd 0
    rw [hall 0, eq_comm, hbytes hr] at heq
    have hcongr : usedBase base mod ^ ofBytes exp ≡ ofBytes base ^ ofBytes exp [MOD ofBytes mod] :=
      (hsound (Or.inr rfl)).symm.trans (heq ▸ Nat.mod_modEq _ _)
    rcases hle.lt_or_eq with hfew | hfull
    · exact Or.inl ⟨hfew, hcongr⟩
    obtain ⟨r', hr', heq', -, hlost, -⟩ :=
    tlsModpow_eq base hmod (bnFromBytes_short hexp) hodd 0xffffffff
    rw [hall 0xffffffff, eq_comm, hbytes hr', hlost hfull rfl] at heq'
    have hdvd := Nat.dvd_of_mod_eq_zero heq'.symm
    exact Or.inr ⟨hfull, hdvd, (hcongr.dvd_iff dvd_rfl).mpr hdvd⟩
  · intro hcond junk
    obtain ⟨r, hr, heq, hsound, -, hnone⟩ :=
      tlsModpow_eq base hmod (bnFromBytes_short hexp) hodd junk
    rw [heq, hbytes hr]
    rcases hcond with ⟨hfew, hcongr⟩ | ⟨-, hbase, hused⟩
    · rw [← Nat.mod_eq_of_lt hr]
      exact (hsound (Or.inl hfew)).trans hcongr
    · rw [hnone hused, Nat.mod_eq_zero_of_dvd hbase]

/-- The base that is used is the base modulo the modulus if its low limbs are not below the modulus,
so that it is divided, or if the limbs that are dropped are a multiple of the modulus. -/
theorem usedBase_modEq_iff (hmod : mod.length ≤ 512) (hbase : base.length ≤ 512)
    (hodd : ofBytes mod % 2 = 1) :
    usedBase base mod ≡ ofBytes base [MOD ofBytes mod] ↔
      ofBytes mod ≤ ofBytes base % radix ^ modulusLimbs mod ∨
        ofBytes mod ∣ ofBytes base / radix ^ modulusLimbs mod := by
  rw [usedBase, cutBase, bnFromBytes_short hmod, bnFromBytes_short hbase]
  split_ifs with hlow
  · have hcop : (ofBytes mod).Coprime (radix ^ modulusLimbs mod) := by
      rw [radix_pow_eq]
      exact (Nat.Coprime.pow_left _ (Nat.coprime_two_left.mpr (Nat.odd_iff.mpr hodd))).symm
    have hdropped : ofBytes base - ofBytes base % radix ^ modulusLimbs mod =
        radix ^ modulusLimbs mod * (ofBytes base / radix ^ modulusLimbs mod) := by
      have hsplit := Nat.div_add_mod (ofBytes base) (radix ^ modulusLimbs mod)
      omega
    rw [or_iff_right (Nat.not_le.mpr hlow), Nat.modEq_iff_dvd' (Nat.mod_le _ _), hdropped]
    exact hcop.dvd_mul_left
  · exact iff_of_true rfl (.inl (Nat.not_lt.mp hlow))

/-- The powers of a base are right for all exponents, whatever the unset limb holds, exactly when
the modulus has fewer than 128 limbs and the limbs of the base behind those of the modulus do not
matter. -/
theorem tlsModpow_iff (hmod : mod.length ≤ 512) (hbase : base.length ≤ 512)
    (hodd : ofBytes mod % 2 = 1) (hone : 1 < ofBytes mod) :
    (∀ exp : List UInt8, exp.length ≤ 512 → ∀ junk, tlsModpow junk base exp mod =
        toBytes mod.length (ofBytes base ^ ofBytes exp % ofBytes mod)) ↔
      modulusLimbs mod < bnLimbs ∧
        (ofBytes mod ≤ ofBytes base % radix ^ modulusLimbs mod ∨
          ofBytes mod ∣ ofBytes base / radix ^ modulusLimbs mod) := by
  rw [← usedBase_modEq_iff hmod hbase hodd]
  constructor
  · intro h
    -- the empty exponent tells whether the limb counts, the exponent 1 which base is used
    have hzero := (tlsModpow_power_iff base hmod (by simp) hodd).mp (h [] (by simp))
    have hfirst := (tlsModpow_power_iff base hmod (by simp) hodd).mp (h [1] (by simp))
    have hfew : modulusLimbs mod < bnLimbs := by
      rcases hzero with ⟨hfew, -⟩ | ⟨-, hdvd, -⟩
      · exact hfew
      · exact absurd (Nat.le_of_dvd one_pos hdvd) (Nat.not_le.mpr hone)
    refine ⟨hfew, ?_⟩
    rcases hfirst with ⟨-, hmodEq⟩ | ⟨hfull, -⟩
    · simpa [ofBytes] using hmodEq
    · omega
  · rintro ⟨hfew, hmodEq⟩ exp hexp
    exact (tlsModpow_power_iff base hmod hexp hodd).mpr (.inl ⟨hfew, hmodEq.pow _⟩)

end

/-- A base of two limbs modulo 3: the low one is not below 3, so the base is divided. -/
theorem tlsModpow_two_limbs : tlsModpow 5 [1, 0, 0, 0, 6] [3] [3] = [1] := by
  have hlimbs : modulusLimbs [3] = 1 := by decide +kernel
  have hcond : modulusLimbs [3] < bnLimbs ∧
      (ofBytes [3] ≤ ofBytes [1, 0, 0, 0, 6] % radix ^ modulusLimbs [3] ∨
        ofBytes [3] ∣ ofBytes [1, 0, 0, 0, 6] / radix ^ modulusLimbs [3]) := by
    rw [hlimbs]
    exact ⟨by decide, .inl (by decide)⟩
  exact (tlsModpow_iff (by decide) (by decide) (by decide) (by decide)).mpr hcond [3] (by decide) 5

/-- The base 2^32 passes for reduced modulo 3, as its low limb is zero. -/
theorem tlsModpow_long_base :
    tlsModpow 0 [1, 0, 0, 0, 0] [1] [3] = [0] ∧
      toBytes 1 (ofBytes [1, 0, 0, 0, 0] ^ ofBytes [1] % ofBytes [3]) = [1] := by
  constructor <;> decide +kernel

end Vnu.Tls
