import Mathlib.Data.ZMod.Basic
import Mathlib.Data.ZMod.Units
import Vnu.Tls.Division

/-!
Montgomery multiplication: a multiple of the modulus makes the product divisible by the radix power,
and at most one subtraction follows.
-/
namespace Vnu.Tls

open Lib.Limbs Nat List

theorem mprimeStep_error {m x c k : UInt32} (h : 1 - m * x = c * k) :
    1 - m * mprimeStep m x = c * c * (k * k) := by
  rw [mprimeStep]
  grind

theorem and_one_ne_zero_iff (w : UInt32) : w &&& 1 ≠ 0 ↔ w.toNat % 2 = 1 := by
  rw [Ne, ← UInt32.toNat_inj, UInt32.toNat_and, UInt32.toNat_one, Nat.and_one_is_mod,
    UInt32.toNat_zero]
  omega

theorem one_sub_even {m : UInt32} (h : m &&& 1 ≠ 0) : ∃ k, 1 - m = 2 * k := by
  have hodd := (and_one_ne_zero_iff m).mp h
  have hlt := m.toNat_lt
  have hm : m = 2 * UInt32.ofNat (m.toNat / 2) + 1 := by
    apply UInt32.toNat_inj.mp
    change m.toNat = (2 * (m.toNat / 2 % 2 ^ 32) % 2 ^ 32 + 1) % 2 ^ 32
    omega
  refine ⟨0 - UInt32.ofNat (m.toNat / 2), ?_⟩
  grind

theorem mul_bnMprime {m : UInt32} (h : m &&& 1 ≠ 0) : m * bnMprime m = 0 - 1 := by
  obtain ⟨k, hk⟩ := one_sub_even h
  have h0 : 1 - m * 1 = 2 * k := by rw [UInt32.mul_one, hk]
  have h5 := mprimeStep_error (mprimeStep_error (mprimeStep_error (mprimeStep_error
    (mprimeStep_error h0))))
  have hzero : 1 - m * (mprimeStep m)^[5] 1 = 0 := by
    refine h5.trans ?_
    have : (2 * 2 * (2 * 2) * (2 * 2 * (2 * 2)) * (2 * 2 * (2 * 2) * (2 * 2 * (2 * 2))) *
      (2 * 2 * (2 * 2) * (2 * 2 * (2 * 2)) * (2 * 2 * (2 * 2) * (2 * 2 * (2 * 2)))) : UInt32) =
        0 := by
      decide
    rw [this, UInt32.zero_mul]
  rw [bnMprime]
  grind

/-- The multiple of the modulus that is added annuls the lowest limb. -/
theorem annul_limb {m0 t0 : UInt32} (h : m0 &&& 1 ≠ 0) :
    (t0.toNat + (t0 * bnMprime m0).toNat * m0.toNat) % radix = 0 := by
  have hzero : t0 + t0 * bnMprime m0 * m0 = 0 := by
    have hinv := mul_bnMprime h
    grind
  have hnat := congrArg UInt32.toNat hzero
  rwa [UInt32.toNat_add, UInt32.toNat_mul, Nat.add_mod_mod, UInt32.toNat_zero] at hnat

theorem val_tail (t : Limbs) : val t.tail = val t / radix := by
  rw [← drop_one, val_drop, pow_one]

theorem headD_toNat (t : Limbs) : (t.headD 0).toNat = val t % radix := by
  cases t with
  | nil => rfl
  | cons w t => rw [headD_cons, val_cons, Nat.add_mul_mod_self_left,
      Nat.mod_eq_of_lt (toNat_lt_radix w)]

section

variable {m : Limbs}

theorem annul {t : Limbs} (hodd : m.getD 0 0 &&& 1 ≠ 0) :
    (val t + (t.headD 0 * bnMprime (m.getD 0 0)).toNat * val m) % radix = 0 := by
  have hlow := @annul_limb _ (t.headD 0) hodd
  rw [headD_toNat, getD_toNat, pow_zero, Nat.div_one] at hlow
  have hcongr : val t + (t.headD 0 * bnMprime (m.getD 0 0)).toNat * val m ≡
      val t % radix + (t.headD 0 * bnMprime (m.getD 0 0)).toNat * (val m % radix) [MOD radix] :=
    (Nat.mod_modEq _ _).symm.add ((Nat.mod_modEq _ _).symm.mul_left _)
  exact Eq.trans hcongr hlow

/-- Each turn adds a multiple of the modulus that makes the lowest limb zero. -/
theorem montLoop_val (hodd : m.getD 0 0 &&& 1 ≠ 0) (k : ℕ) (t : Limbs)
    (hlen : t.length = k + m.length + 1) (hval : val t < radix ^ (k + m.length) + val m) :
    ∃ u < radix ^ k, val (montLoop m (bnMprime (m.getD 0 0)) k t) * radix ^ k = val t + u * val m ∧
      (montLoop m (bnMprime (m.getD 0 0)) k t).length = m.length + 1 := by
  induction k generalizing t with
  | zero =>
    refine ⟨0, radix_pow_pos 0, ?_, ?_⟩
    · rw [montLoop, pow_zero, mul_one, zero_mul, add_zero]
    · rw [montLoop, hlen, zero_add]
  | succ k ih =>
    obtain ⟨w, hw⟩ : ∃ w, w = t.headD 0 * bnMprime (m.getD 0 0) := ⟨_, rfl⟩
    obtain ⟨row, hrow⟩ : ∃ row, row = addMul w m t 0 := ⟨_, rfl⟩
    have hrowlen : row.length = t.length := by rw [hrow, addMul_length]
    have hw_lt := toNat_lt_radix w
    have hsum : val t + w.toNat * val m < radix * (radix ^ (k + m.length) + val m) := by
      have hmul : (w.toNat + 1) * val m ≤ radix * val m := Nat.mul_le_mul_right _ hw_lt
      rw [show k + 1 + m.length = k + m.length + 1 by omega, pow_succ'] at hval
      rw [add_mul] at hmul
      rw [mul_add]
      omega
    have hfit : val t + w.toNat * val m < radix ^ t.length := by
      have hm : val m ≤ radix ^ (k + m.length) :=
        (val_lt m).le.trans (Nat.pow_le_pow_right radix_pos (by omega))
      calc val t + w.toNat * val m < radix * (radix ^ (k + m.length) + val m) := hsum
        _ ≤ radix * (radix * radix ^ (k + m.length)) := by
            apply Nat.mul_le_mul_left
            have : 2 * radix ^ (k + m.length) ≤ radix * radix ^ (k + m.length) :=
              Nat.mul_le_mul_right _ (by decide)
            omega
        _ = radix ^ t.length := by
            rw [← pow_succ', ← pow_succ']
            congr 1
            omega
    have hrowval : val row = val t + w.toNat * val m := by
      rw [hrow, addMul_val w m t 0 radix_pos (by omega), UInt64.toNat_zero, add_zero,
        Nat.mod_eq_of_lt hfit]
    have hannul := annul (t := t) hodd
    rw [← hw, ← hrowval] at hannul
    have htail : radix * val row.tail = val t + w.toNat * val m := by
      rw [val_tail, ← hrowval, Nat.mul_div_cancel' (Nat.dvd_of_mod_eq_zero hannul)]
    have htail_lt : val row.tail < radix ^ (k + m.length) + val m :=
      Nat.lt_of_mul_lt_mul_left (htail.trans_lt hsum)
    obtain ⟨u, hu, hq, hqlen⟩ := ih row.tail (by rw [length_tail]; omega) htail_lt
    rw [montLoop, ← hw, ← hrow]
    refine ⟨w.toNat + radix * u, ?_, ?_, hqlen⟩
    · calc w.toNat + radix * u < radix * (u + 1) := by rw [Nat.mul_succ]; omega
        _ ≤ radix ^ (k + 1) := by rw [pow_succ']; exact Nat.mul_le_mul_left _ hu
    · rw [pow_succ, ← mul_assoc, hq, add_mul, mul_comm _ radix, htail]
      ring

theorem reduce_once {q P M : ℕ} (hq : q < P + M) (hM : M < P) :
    (q / P = 1 ∨ M ≤ q % P ↔ M ≤ q) ∧ (M ≤ q → (q % P + P - M) % P = q - M) := by
  rcases lt_or_ge q P with hlt | hle
  · rw [Nat.div_eq_of_lt hlt, Nat.mod_eq_of_lt hlt]
    refine ⟨by omega, fun hge => ?_⟩
    rw [show q + P - M = q - M + P by omega, Nat.add_mod_right, Nat.mod_eq_of_lt (by omega)]
  · have hdiv : q / P = 1 := Nat.div_eq_of_lt_le (by omega) (by omega)
    have hmod : q % P = q - P := by rw [Nat.mod_eq_sub_mod hle, Nat.mod_eq_of_lt (by omega)]
    rw [hmod]
    refine ⟨by omega, fun hge => ?_⟩
    rw [show q - P + P - M = q - M by omega, Nat.mod_eq_of_lt (by omega)]

/-- The quotient is below twice the modulus, so one subtraction is enough. -/
theorem bnMontMul_val (hodd : m.getD 0 0 &&& 1 ≠ 0) {a b : Limbs} (ha : a.length = m.length)
    (hb : b.length = m.length) :
    (∃ u < radix ^ m.length, ∃ q, q * radix ^ m.length = val a * val b + u * val m ∧
      val (bnMontMul a b m (bnMprime (m.getD 0 0))) = if val m ≤ q then q - val m else q) ∧
    (bnMontMul a b m (bnMprime (m.getD 0 0))).length = m.length := by
  have hprod : val (bnMul a b) < radix ^ (m.length + m.length) := by
    rw [bnMul_val, pow_add]
    exact Nat.mul_lt_mul'' (ha ▸ val_lt a) (hb ▸ val_lt b)
  obtain ⟨u, hu, hq, hlen⟩ := montLoop_val hodd m.length (bnMul a b)
    (by rw [bnMul_length, ha, hb]) (by omega)
  obtain ⟨t, ht⟩ : ∃ t, t = montLoop m (bnMprime (m.getD 0 0)) m.length (bnMul a b) := ⟨_, rfl⟩
  rw [← ht] at hq hlen
  obtain ⟨P, hP⟩ : ∃ P, P = radix ^ m.length := ⟨_, rfl⟩
  have hPpos : 0 < P := hP ▸ radix_pow_pos _
  have hm : val m < P := hP ▸ val_lt m
  have hlow : val (t.take m.length) = val t % P := by rw [val_take, hP]
  have hlowlen : (t.take m.length).length = m.length := length_take_of_le (by omega)
  have hq_lt : val t < P + val m := by
    have hum : u * val m ≤ P * val m := Nat.mul_le_mul_right _ (hP ▸ hu.le)
    rw [pow_add, ← hP] at hprod
    rw [← hP] at hq
    refine Nat.lt_of_mul_lt_mul_right (a := P) ?_
    rw [add_mul, mul_comm (val m)]
    omega
  have htop : (t.getD m.length 0).toNat = val t / P := by
    rw [getD_toNat, ← hP, Nat.mod_eq_of_lt]
    have htwo : val t / P < 2 := (Nat.div_lt_iff_lt_mul hPpos).mpr (by omega)
    exact htwo.trans (by decide)
  obtain ⟨hiff, hsub⟩ := reduce_once hq_lt hm
  have hcond : (t.getD m.length 0 = 1 ∨ bnCmp (t.take m.length) m m.length ≠ .lt) ↔
      val m ≤ val t := by
    rw [bnCmp_ne_lt_iff, ← UInt32.toNat_inj, htop, hlow, ← hP, Nat.mod_mod, Nat.mod_eq_of_lt hm]
    exact hiff
  refine ⟨⟨u, hu, val t, by rw [hq, bnMul_val], ?_⟩, ?_⟩
  · rw [bnMontMul, ← ht]
    by_cases hle : val m ≤ val t
    · have hbn := bnSub_val (t.take m.length) m hlowlen.le
      rw [hlowlen, hlow, ← hP, Nat.mod_eq_of_lt hm, hsub hle] at hbn
      rw [if_pos (hcond.mpr hle), if_pos hle, hbn]
    · rw [if_neg (mt hcond.mp hle), if_neg hle, hlow, Nat.mod_eq_of_lt (by omega)]
  · rw [bnMontMul, ← ht]
    split_ifs
    · rw [bnSub_length, hlowlen]
    · exact hlowlen

theorem bnMontMul_length (hodd : m.getD 0 0 &&& 1 ≠ 0) {a b : Limbs} (ha : a.length = m.length)
    (hb : b.length = m.length) :
    (bnMontMul a b m (bnMprime (m.getD 0 0))).length = m.length :=
  (bnMontMul_val hodd ha hb).2

theorem bnMontMul_cast (hodd : m.getD 0 0 &&& 1 ≠ 0) {a b : Limbs} (ha : a.length = m.length)
    (hb : b.length = m.length) :
    (val (bnMontMul a b m (bnMprime (m.getD 0 0))) : ZMod (val m)) * (radix ^ m.length : ℕ) =
      val a * val b := by
  obtain ⟨u, _, q, hq, hval⟩ := (bnMontMul_val hodd ha hb).1
  have hcast : (q : ZMod (val m)) * (radix ^ m.length : ℕ) = val a * val b := by
    have := congrArg (Nat.cast (R := ZMod (val m))) hq
    rwa [Nat.cast_mul, Nat.cast_add, Nat.cast_mul, Nat.cast_mul, ZMod.natCast_self, mul_zero,
      add_zero] at this
  rw [hval]
  split_ifs with hle
  · rw [Nat.cast_sub hle, ZMod.natCast_self, sub_zero, hcast]
  · exact hcast

theorem bnMontMul_lt (hodd : m.getD 0 0 &&& 1 ≠ 0) {a b : Limbs} (ha : a.length = m.length)
    (hb : b.length = m.length) (hab : val a * val b < radix ^ m.length * val m) :
    val (bnMontMul a b m (bnMprime (m.getD 0 0))) < val m := by
  obtain ⟨u, hu, q, hq, hval⟩ := (bnMontMul_val hodd ha hb).1
  have hlt : q < val m + val m := by
    have hum : u * val m ≤ radix ^ m.length * val m := Nat.mul_le_mul_right _ hu.le
    refine Nat.lt_of_mul_lt_mul_right (a := radix ^ m.length) ?_
    rw [hq, add_mul, mul_comm (val m)]
    omega
  rw [hval]
  split_ifs <;> omega

/-- The last carry of the product is nothing, so what is behind it stays. -/
theorem bnMulIn_eq (t a b : Limbs) :
    bnMulIn t a b = bnMul a b ++ t.drop (a.length + b.length + 1) := by
  generalize hx : t.drop (a.length + b.length + 1) = x
  obtain ⟨hval, hlen⟩ := mulLoop_val a b (replicate (a.length + b.length + 1) 0 ++ x)
    (by rw [length_append, length_replicate]; omega)
  have hlt := val_lt (bnMul a b ++ x)
  rw [val_append, length_append, bnMul_val, bnMul_length] at hlt
  rw [length_append, length_replicate] at hval hlen
  rw [bnMulIn, hx]
  refine val_inj (by rw [hlen, length_append, bnMul_length]) ?_
  rw [hval, val_append, val_append, val_replicate_zero, zero_add, bnMul_val, bnMul_length,
    length_replicate, add_comm, Nat.mod_eq_of_lt hlt]

theorem bnMontMulIn_eq {a b : Limbs} (ha : a.length = m.length) (hb : b.length = m.length)
    (t : Limbs) (w : UInt32) : bnMontMulIn t a b m w =
      bnMontMul a b m w ++ montLoop m w m.length (bnMul a b) ++ t.drop (2 * m.length + 1) := by
  have hlen : (bnMul a b).length = 2 * m.length + 1 := by rw [bnMul_length]; omega
  rw [bnMontMulIn, bnMulIn_eq, ha, hb, ← two_mul]
  simp only [take_left' hlen, drop_left' hlen]
  rfl

end

end Vnu.Tls
