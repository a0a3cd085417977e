import Mathlib.Data.Nat.Bitwise
import Vnu.Lib.Limbs
import Vnu.Tls.Bignum

/-!
What the loops over limbs compute, in terms of the numbers the limbs stand for.
-/
namespace Vnu.Tls

open Lib.Limbs List Nat

theorem toNat_toUInt32 (x : UInt64) : x.toUInt32.toNat = x.toNat % radix := by
  rw [UInt64.toNat_toUInt32, radix]

theorem toNat_shift32 (x : UInt64) : (x >>> 32).toNat = x.toNat / radix := by
  rw [UInt64.toNat_shiftRight, Nat.shiftRight_eq_div_pow]
  rfl

theorem addCarry_length (t : Limbs) (c : UInt64) : (addCarry t c).length = t.length := by
  induction t generalizing c with
  | nil => rfl
  | cons t ts ih =>
    rw [addCarry]
    split_ifs
    · rfl
    · rw [length_cons, ih, length_cons]

theorem addCarry_val (t : Limbs) (c : UInt64) (hc : c.toNat < radix) :
    val (addCarry t c) = (val t + c.toNat) % radix ^ t.length := by
  induction t generalizing c with
  | nil => rw [addCarry, val_nil, length_nil, pow_zero, Nat.mod_one]
  | cons t ts ih =>
    rw [addCarry]
    split_ifs with hzero
    · rw [hzero, UInt64.toNat_zero, add_zero, Nat.mod_eq_of_lt (val_lt _)]
    have hcur : (t.toUInt64 + c).toNat = t.toNat + c.toNat := by
      rw [UInt64.toNat_add, UInt32.toNat_toUInt64]
      have := toNat_lt_radix t
      simp only [radix] at this hc
      omega
    have hnext : (t.toUInt64 + c).toNat / radix < radix := by
      have := toNat_lt_radix t
      simp only [radix] at this hc ⊢
      omega
    rw [val_cons, ih _ (by rwa [toNat_shift32]), toNat_shift32, toNat_toUInt32, carry_step,
      length_cons, pow_succ', val_cons]
    congr 1
    omega

theorem addMul_length (x : UInt32) (b t : Limbs) (c : UInt64) :
    (addMul x b t c).length = t.length := by
  induction b generalizing t c with
  | nil => rw [addMul, addCarry_length]; rintro _ _ _ _ ⟨⟩
  | cons b bs ih =>
    cases t with
    | nil => rfl
    | cons t ts => rw [addMul, length_cons, ih, length_cons]

theorem product_lt {x b t c : ℕ} (hx : x < radix) (hb : b < radix) (ht : t < radix)
    (hc : c < radix) : x * b + t + c < radix * radix := by
  have hmul : x * b ≤ (radix - 1) * (radix - 1) := Nat.mul_le_mul (by omega) (by omega)
  have hsq : (radix - 1) * (radix - 1) + (radix - 1) + (radix - 1) + 1 = radix * radix := rfl
  omega

theorem addMul_val (x : UInt32) (b t : Limbs) (c : UInt64) (hc : c.toNat < radix)
    (hlen : b.length ≤ t.length) :
    val (addMul x b t c) = (val t + x.toNat * val b + c.toNat) % radix ^ t.length := by
  induction b generalizing t c with
  | nil =>
    rw [addMul, addCarry_val t c hc, val_nil, mul_zero, add_zero]
    rintro _ _ _ _ ⟨⟩
  | cons b bs ih =>
    cases t with
    | nil => cases hlen
    | cons t ts =>
      have hfit := product_lt (toNat_lt_radix x) (toNat_lt_radix b) (toNat_lt_radix t) hc
      have hcur : (x.toUInt64 * b.toUInt64 + t.toUInt64 + c).toNat =
          x.toNat * b.toNat + t.toNat + c.toNat := by
        simp only [radix] at hfit
        rw [UInt64.toNat_add, UInt64.toNat_add, UInt64.toNat_mul, UInt32.toNat_toUInt64,
          UInt32.toNat_toUInt64, UInt32.toNat_toUInt64]
        omega
      have hnext : (x.toUInt64 * b.toUInt64 + t.toUInt64 + c).toNat / radix < radix := by
        rw [hcur, Nat.div_lt_iff_lt_mul radix_pos]
        exact hfit
      rw [addMul, val_cons, ih ts _ (by rwa [toNat_shift32]) (Nat.le_of_succ_le_succ hlen),
        toNat_shift32, toNat_toUInt32, carry_step, hcur, length_cons, pow_succ', val_cons, val_cons]
      congr 1
      ring

/-- Row by row, modulo the length of the array. -/
theorem mulLoop_val (a b prod : Limbs) (hlen : a.length + b.length ≤ prod.length) :
    val (mulLoop a b prod) = (val prod + val a * val b) % radix ^ prod.length ∧
      (mulLoop a b prod).length = prod.length := by
  induction a generalizing prod with
  | nil =>
    rw [val_nil, zero_mul, add_zero, Nat.mod_eq_of_lt (val_lt _)]
    exact ⟨rfl, rfl⟩
  | cons a as ih =>
    obtain ⟨row, hrow⟩ : ∃ row, row = if a = 0 then prod else addMul a b prod 0 := ⟨_, rfl⟩
    rw [length_cons] at hlen
    have hrowlen : row.length = prod.length := by
      rw [hrow]
      split_ifs
      · rfl
      · rw [addMul_length]
    have hrowval : val row = (val prod + a.toNat * val b) % radix ^ prod.length := by
      rw [hrow]
      split_ifs with hzero
      · rw [hzero, UInt32.toNat_zero, zero_mul, add_zero, Nat.mod_eq_of_lt (val_lt _)]
      · rw [addMul_val a b prod 0 radix_pos (by omega), UInt64.toNat_zero, add_zero]
    rw [mulLoop, ← hrow]
    cases row with
    | nil => rw [length_nil] at hrowlen; omega
    | cons r rs =>
      rw [length_cons] at hrowlen
      obtain ⟨hval, hlength⟩ := ih rs (by omega)
      have hcons : ([r] ++ mulLoop as b rs) = r :: mulLoop as b rs := rfl
      refine ⟨?_, by rw [take_succ_cons, take_zero, tail_cons, hcons, length_cons,
        hlength, hrowlen]⟩
      calc val ([r] ++ mulLoop as b rs)
          = (val (r :: rs) + radix * (val as * val b)) % radix ^ prod.length := by
            rw [hcons, val_cons, hval, cons_mod, ← hrowlen, pow_succ', val_cons]
            congr 1
            ring
        _ = (val prod + val (a :: as) * val b) % radix ^ prod.length := by
            rw [hrowval, Nat.mod_add_mod, val_cons]
            congr 1
            ring

theorem bnMul_val (a b : Limbs) : val (bnMul a b) = val a * val b := by
  have hlen : (replicate (a.length + b.length + 1) (0 : UInt32)).length =
      a.length + b.length + 1 := length_replicate
  rw [bnMul, (mulLoop_val a b _ (by omega)).1, val_replicate_zero, zero_add, hlen, Nat.mod_eq_of_lt]
  calc val a * val b < radix ^ a.length * radix ^ b.length := Nat.mul_lt_mul'' (val_lt a) (val_lt b)
    _ = radix ^ (a.length + b.length) := (pow_add _ _ _).symm
    _ ≤ radix ^ (a.length + b.length + 1) := Nat.pow_le_pow_right radix_pos (le_succ _)

theorem bnMul_length (a b : Limbs) : (bnMul a b).length = a.length + b.length + 1 := by
  have hlen : (replicate (a.length + b.length + 1) (0 : UInt32)).length =
      a.length + b.length + 1 := length_replicate
  rw [bnMul, (mulLoop_val a b _ (by omega)).2, hlen]

theorem subLoop_length (a b : Limbs) (c : UInt64) : (subLoop a b c).length = a.length := by
  induction a generalizing b c with
  | nil => cases b <;> rfl
  | cons a as ih =>
    cases b with
    | nil => rfl
    | cons b bs => rw [subLoop, length_cons, ih, length_cons]

theorem subLoop_val (a b : Limbs) (c : UInt64) (hc : c.toNat ≤ 1) (hlen : a.length = b.length) :
    (val (subLoop a b c) + val b + c.toNat) % radix ^ a.length = val a := by
  induction a generalizing b c with
  | nil => rw [length_nil, pow_zero, Nat.mod_one, val_nil]
  | cons a as ih =>
    cases b with
    | nil => cases hlen
    | cons b bs =>
      have ha := toNat_lt_radix a
      have hb := toNat_lt_radix b
      obtain ⟨borrow, hborrow⟩ : ∃ d : UInt64,
          d = if a.toUInt64 < b.toUInt64 + c then 1 else 0 := ⟨_, rfl⟩
      obtain ⟨diff, hdiff⟩ : ∃ w, w = (a.toUInt64 - (b.toUInt64 + c)).toUInt32 := ⟨_, rfl⟩
      have hsub : (b.toUInt64 + c).toNat = b.toNat + c.toNat := by
        rw [UInt64.toNat_add, UInt32.toNat_toUInt64]
        simp only [radix] at hb
        omega
      -- one limb: the difference, with what is borrowed from the next limb
      have hlimb : diff.toNat + b.toNat + c.toNat = a.toNat + radix * borrow.toNat ∧
          borrow.toNat ≤ 1 := by
        rw [hdiff, toNat_toUInt32, UInt64.toNat_sub, hborrow]
        simp only [UInt64.lt_iff_toNat_lt, UInt32.toNat_toUInt64, radix] at *
        split_ifs
        · simp only [UInt64.toNat_one]
          omega
        · simp only [UInt64.toNat_zero]
          omega
      have hrest := ih bs borrow hlimb.2 (Nat.succ.inj hlen)
      rw [subLoop, ← hdiff, ← hborrow, val_cons, val_cons, val_cons, length_cons, pow_succ',
        ← hrest, cons_mod]
      congr 1
      linarith [hlimb.1]

theorem bnSub_length (a b : Limbs) (n : ℕ) : (bnSub a b n).length = a.length := subLoop_length _ _ _

theorem bnSub_val (a b : Limbs) (hlen : a.length ≤ b.length) :
    val (bnSub a b a.length) = (val a + radix ^ a.length - val b % radix ^ a.length) %
      radix ^ a.length := by
  have hadd := subLoop_val a (b.take a.length) 0 (zero_le 1) (length_take_of_le hlen).symm
  have hlt := val_lt (bnSub a b a.length)
  rw [bnSub_length] at hlt
  have hb := Nat.mod_lt (val b) (radix_pow_pos a.length)
  rw [← bnSub, UInt64.toNat_zero, add_zero, val_take] at hadd
  obtain ⟨s, hs⟩ : ∃ s, s = val (bnSub a b a.length) := ⟨_, rfl⟩
  obtain ⟨v, hv⟩ : ∃ v, v = val b % radix ^ a.length := ⟨_, rfl⟩
  obtain ⟨P, hP⟩ : ∃ P, P = radix ^ a.length := ⟨_, rfl⟩
  rw [← hs, ← hP] at hlt
  rw [← hs, ← hv, ← hP] at hadd ⊢
  rcases lt_or_ge (s + v) P with hfit | hover
  · rw [Nat.mod_eq_of_lt hfit] at hadd
    rw [← hadd, show s + v + P - v = s + P by omega, Nat.add_mod_right, Nat.mod_eq_of_lt hlt]
  · rw [Nat.mod_eq_sub_mod hover, Nat.mod_eq_of_lt (by omega)] at hadd
    rw [← hadd, show s + v - P + P - v = s by omega, Nat.mod_eq_of_lt hlt]

theorem bnCmp_eq (a b : Limbs) (n : ℕ) :
    bnCmp a b n = compare (val a % radix ^ n) (val b % radix ^ n) := by
  induction n with
  | zero => rw [pow_zero, Nat.mod_one, Nat.mod_one]; rfl
  | succ n ih =>
    have hsplit (x : ℕ) : x % radix ^ (n + 1) =
        x % radix ^ n + radix ^ n * (x / radix ^ n % radix) := by rw [pow_succ, Nat.mod_mul]
    have ha := Nat.mod_lt (val a) (radix_pow_pos n)
    have hb := Nat.mod_lt (val b) (radix_pow_pos n)
    rw [bnCmp, hsplit, hsplit, ← getD_toNat, ← getD_toNat, ih]
    obtain ⟨P, hP⟩ : ∃ P, P = radix ^ n := ⟨_, rfl⟩
    rw [← hP] at ha hb ⊢
    have hgt_iff : a.getD n 0 > b.getD n 0 ↔ (b.getD n 0).toNat < (a.getD n 0).toNat :=
      UInt32.lt_iff_toNat_lt
    simp only [ne_eq, ← UInt32.toNat_inj, hgt_iff]
    rcases lt_trichotomy (a.getD n 0).toNat (b.getD n 0).toNat with hlt | heq | hgt
    · have hmul := Nat.mul_le_mul_left P (Nat.succ_le_of_lt hlt)
      rw [if_pos hlt.ne, if_neg hlt.not_gt, eq_comm, compare_lt_iff_lt]
      rw [Nat.mul_succ] at hmul
      omega
    · rw [heq, Nat.compare_eq_ite_lt, Nat.compare_eq_ite_lt]
      simp
    · have hmul := Nat.mul_le_mul_left P (Nat.succ_le_of_lt hgt)
      rw [if_pos hgt.ne', if_pos hgt, eq_comm, compare_gt_iff_gt]
      rw [Nat.mul_succ] at hmul
      omega

theorem bnCmp_ne_lt_iff (a b : Limbs) (n : ℕ) :
    bnCmp a b n ≠ .lt ↔ val b % radix ^ n ≤ val a % radix ^ n := by
  rw [bnCmp_eq, Ne, compare_lt_iff_lt, not_lt]

theorem bnUsed_le (a : Limbs) (n : ℕ) : bnUsed a n ≤ n := by
  induction n with
  | zero => exact le_refl 0
  | succ n ih =>
    rw [bnUsed]
    split_ifs
    · exact ih.trans (le_succ n)
    · exact le_refl _

theorem val_lt_of_used (a : Limbs) (n : ℕ) : val a % radix ^ n < radix ^ bnUsed a n := by
  induction n with
  | zero => rw [pow_zero, Nat.mod_one]; exact radix_pow_pos _
  | succ n ih =>
    rw [bnUsed]
    split_ifs with hzero
    · have htop := getD_toNat a n
      rw [hzero, UInt32.toNat_zero] at htop
      rwa [pow_succ, Nat.mod_mul, ← htop, mul_zero, add_zero]
    · exact Nat.mod_lt _ (radix_pow_pos _)

theorem bnUsed_top (a : Limbs) (n : ℕ) (hpos : bnUsed a n ≠ 0) : a.getD (bnUsed a n - 1) 0 ≠ 0 := by
  induction n with
  | zero => exact absurd rfl hpos
  | succ n ih =>
    rw [bnUsed] at hpos ⊢
    split_ifs at hpos ⊢ with hzero
    · exact ih hpos
    · exact hzero

theorem bnUsed_le_of_lt {a : Limbs} {n k : ℕ} (hlt : val a < radix ^ k) : bnUsed a n ≤ k := by
  by_contra hgt
  apply bnUsed_top a n (by omega)
  rw [← UInt32.toNat_inj, getD_toNat, Nat.div_eq_of_lt]
  · rfl
  · exact hlt.trans_le (Nat.pow_le_pow_right radix_pos (by omega))

theorem bnUsed_eq_zero_iff (a : Limbs) (n : ℕ) : bnUsed a n = 0 ↔ val a % radix ^ n = 0 := by
  constructor
  · intro hzero
    have hlt := val_lt_of_used a n
    rwa [hzero, pow_zero, Nat.lt_one_iff] at hlt
  intro hzero
  by_contra hne
  obtain ⟨u, hu⟩ : ∃ u, bnUsed a n = u + 1 := Nat.exists_eq_succ_of_ne_zero hne
  have hle := bnUsed_le a n
  have htop := bnUsed_top a n hne
  rw [hu] at hle htop
  obtain ⟨d, rfl⟩ := Nat.exists_eq_add_of_le hle
  obtain ⟨k, hk⟩ := Nat.dvd_of_mod_eq_zero hzero
  apply htop
  rw [Nat.add_sub_cancel, ← UInt32.toNat_inj, getD_toNat, hk, pow_add, pow_succ, mul_assoc,
    mul_assoc, Nat.mul_div_cancel_left _ (radix_pow_pos _), Nat.mul_mod_right]
  rfl

theorem lt_of_top_clear {v : UInt32} (h : v &&& 0x80000000 = 0) : v.toNat < 2 ^ 31 := by
  have hand : v.toNat &&& 2 ^ 31 = 0 := by
    have := congrArg UInt32.toNat h
    rwa [UInt32.toNat_and] at this
  rw [Nat.and_two_pow] at hand
  have hbit : v.toNat.testBit 31 = false := by
    by_contra hset
    rw [Bool.not_eq_false] at hset
    rw [hset] at hand
    cases hand
  have hdiv : v.toNat / 2 ^ 31 % 2 = 0 := by
    rw [← Nat.toNat_testBit, hbit]
    rfl
  have hlt := v.toNat_lt
  omega

theorem bitlenLoop_spec (fuel : ℕ) (v : UInt32) (bits : ℕ) (hfuel : fuel ≤ 31) :
    ∃ k ≤ fuel, bitlenLoop fuel v bits = bits - k ∧ v.toNat < 2 ^ (32 - k) := by
  induction fuel generalizing v bits with
  | zero => exact ⟨0, le_rfl, rfl, v.toNat_lt⟩
  | succ fuel ih =>
    rw [bitlenLoop]
    split_ifs with htop
    · obtain ⟨k, hk, hloop, hlt⟩ := ih (v <<< 1) (bits - 1) (by omega)
      have hv := lt_of_top_clear htop
      have hshift : (v <<< 1).toNat = 2 * v.toNat := by
        rw [UInt32.toNat_shiftLeft, Nat.shiftLeft_eq, UInt32.toNat_one, Nat.one_mod,
          Nat.mod_eq_of_lt (by omega), mul_comm]
      refine ⟨k + 1, by omega, by rw [hloop, Nat.sub_sub, add_comm], ?_⟩
      rw [show 32 - k = 32 - (k + 1) + 1 by omega] at hlt
      omega
    · exact ⟨0, zero_le _, rfl, v.toNat_lt⟩

theorem val_lt_bitlen (a : Limbs) (n : ℕ) : val a % radix ^ n < 2 ^ bnBitlen a n := by
  rw [bnBitlen]
  split_ifs with hzero
  · rw [(bnUsed_eq_zero_iff a n).mp hzero]
    exact Nat.two_pow_pos 0
  obtain ⟨u, hu⟩ := Nat.exists_eq_succ_of_ne_zero hzero
  have hlt := val_lt_of_used a n
  have hle := bnUsed_le a n
  obtain ⟨k, hk, hloop, htop⟩ := bitlenLoop_spec 31 (a.getD u 0) ((u + 1) * 32) le_rfl
  rw [hu] at hlt hle ⊢
  rw [Nat.succ_eq_add_one, Nat.add_sub_cancel, hloop]
  -- the limb below the top one is the quotient by the lower limbs
  have hquot : val a % radix ^ n / radix ^ u < 2 ^ (32 - k) := by
    rw [getD_toNat] at htop
    have hdvd : radix ^ (u + 1) ∣ radix ^ n := pow_dvd_pow _ hle
    rw [← Nat.mod_eq_of_lt hlt, Nat.mod_mod_of_dvd _ hdvd, pow_succ, Nat.mod_mul_right_div_self]
    exact htop
  calc val a % radix ^ n < 2 ^ (32 - k) * radix ^ u :=
        (Nat.div_lt_iff_lt_mul (radix_pow_pos u)).mp hquot
    _ = 2 ^ ((u + 1) * 32 - k) := by
        rw [radix_pow_eq, ← pow_add]
        congr 1
        omega

theorem bnGetbit_toNat (a : Limbs) (bit : ℕ) : (bnGetbit a bit).toNat = val a / 2 ^ bit % 2 := by
  have hshift : (UInt32.ofNat (bit % 32)).toNat % 32 = bit % 32 := by
    rw [UInt32.toNat_ofNat', Nat.mod_eq_of_lt (show bit % 32 < 2 ^ 32 by omega), Nat.mod_mod]
  have hlow : bit % 32 < 32 := Nat.mod_lt _ (by decide)
  rw [bnGetbit, UInt32.toNat_and, UInt32.toNat_shiftRight, hshift, UInt32.toNat_one,
    Nat.and_one_is_mod,
    Nat.shiftRight_eq_div_pow, getD_toNat, ← Nat.toNat_testBit, radix, Nat.testBit_mod_two_pow,
    decide_eq_true hlow, Bool.true_and, Nat.toNat_testBit, ← pow_mul, Nat.div_div_eq_div_mul,
    ← pow_add, Nat.div_add_mod]

theorem shiftIn_length (r : Limbs) (c : UInt32) : (shiftIn r c).length = r.length := by
  induction r generalizing c with
  | nil => rfl
  | cons r rs ih => rw [shiftIn, length_cons, ih, length_cons]

theorem shiftIn_limb (r c : UInt32) (hc : c.toNat ≤ 1) :
    ((r <<< 1) ||| c).toNat = (2 * r.toNat + c.toNat) % radix ∧
      (r >>> 31).toNat = (2 * r.toNat + c.toNat) / radix := by
  have hshift : (r <<< 1).toNat = 2 * (r.toNat % 2 ^ 31) := by
    rw [UInt32.toNat_shiftLeft, UInt32.toNat_one, Nat.one_mod]
    omega
  have hor : 2 * (r.toNat % 2 ^ 31) ||| c.toNat = 2 * (r.toNat % 2 ^ 31) + c.toNat := by
    have := Nat.shiftLeft_add_eq_or_of_lt (show c.toNat < 2 ^ 1 by omega) (r.toNat % 2 ^ 31)
    exact this.symm
  constructor
  · rw [UInt32.toNat_or, hshift, radix]
    omega
  · rw [UInt32.toNat_shiftRight, Nat.shiftRight_eq_div_pow, radix]
    change r.toNat / 2 ^ 31 = _
    omega

theorem shiftIn_val (r : Limbs) (c : UInt32) (hc : c.toNat ≤ 1) :
    val (shiftIn r c) = (2 * val r + c.toNat) % radix ^ r.length := by
  induction r generalizing c with
  | nil => rw [shiftIn, val_nil, length_nil, pow_zero, Nat.mod_one]
  | cons r rs ih =>
    obtain ⟨hlow, hnext⟩ := shiftIn_limb r c hc
    have hcarry : (2 * r.toNat + c.toNat) / radix ≤ 1 := by
      have hr := toNat_lt_radix r
      rw [← Nat.lt_succ_iff, Nat.div_lt_iff_lt_mul radix_pos]
      omega
    rw [shiftIn, val_cons, ih _ (by rwa [hnext]), hlow, hnext, carry_step, length_cons,
      pow_succ', val_cons]
    congr 1
    ring

theorem subLoop_take (a b : Limbs) (c : UInt64) (n : ℕ) :
    (subLoop a b c).take n = subLoop (a.take n) (b.take n) c := by
  induction n generalizing a b c with
  | zero => cases a <;> rfl
  | succ n ih =>
    cases a with
    | nil => cases b <;> rfl
    | cons a as =>
      cases b with
      | nil => rfl
      | cons b bs => simp only [subLoop, take_succ_cons, ih]

end Vnu.Tls
