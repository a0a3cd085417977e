import Vnu.Tls.Numbers

/-!
The binary division and the conversions from and to bytes. It is exact when twice the modulus fits
in its limbs, or when there is nothing to divide.
-/
namespace Vnu.Tls

open Lib.Limbs List Nat

theorem double_mod {M q bit : ℕ} (hM : 0 < M) (hbit : bit ≤ 1) :
    (2 * q + bit) % M =
      if M ≤ 2 * (q % M) + bit then 2 * (q % M) + bit - M else 2 * (q % M) + bit := by
  have hq := Nat.mod_lt q hM
  have hcongr : (2 * q + bit) % M = (2 * (q % M) + bit) % M :=
    ((Nat.mod_modEq q M).symm.mul_left 2).add_right bit
  rw [hcongr]
  split_ifs with hle
  · rw [Nat.mod_eq_sub_mod hle, Nat.mod_eq_of_lt (by omega)]
  · rw [Nat.mod_eq_of_lt (by omega)]

theorem bit_split (x k : ℕ) : x / 2 ^ k = 2 * (x / 2 ^ (k + 1)) + x / 2 ^ k % 2 := by
  rw [pow_succ, ← Nat.div_div_eq_div_mul, Nat.div_add_mod]

section

variable {x m : Limbs} {n : ℕ}

theorem modLoop_step {v M : ℕ} (rem : Limbs) (bit : ℕ) (hrem : n + 1 ≤ rem.length)
    (hm : n + 1 ≤ m.length) (hM : val m % radix ^ (n + 1) = M)
    (hv : (2 * val (rem.take (n + 1)) + val x / 2 ^ bit % 2) % radix ^ (n + 1) = v) :
    ∃ rem', modLoop x m n (bit + 1) rem = modLoop x m n bit rem' ∧ rem'.length = rem.length ∧
      val (rem'.take (n + 1)) = if M ≤ v then v - M else v := by
  obtain ⟨low, hlow⟩ : ∃ l, l = shiftIn (rem.take (n + 1)) (bnGetbit x bit) := ⟨_, rfl⟩
  have hlen : low.length = n + 1 := by rw [hlow, shiftIn_length, length_take_of_le hrem]
  have hval : val low = v := by
    rw [hlow, shiftIn_val _ _ (by rw [bnGetbit_toNat]; omega), bnGetbit_toNat,
      length_take_of_le hrem, hv]
  have htake : (low ++ rem.drop (n + 1)).take (n + 1) = low := by rw [← hlen, take_left]
  have hlength : (low ++ rem.drop (n + 1)).length = rem.length := by
    rw [length_append, length_drop]
    omega
  have hcmp : bnCmp (low ++ rem.drop (n + 1)) m (n + 1) ≠ .lt ↔ M ≤ v := by
    rw [bnCmp_ne_lt_iff, hM, ← val_take (low ++ rem.drop (n + 1)), htake, hval]
  refine ⟨_, by rw [modLoop, ← hlow], ?_, ?_⟩
  · split_ifs
    · rw [bnSub_length, hlength]
    · exact hlength
  by_cases hle : M ≤ v
  · have hsub := bnSub_val low m (by omega)
    have hlt := val_lt low
    rw [hlen, hval] at hsub hlt
    rw [if_pos (hcmp.mpr hle), if_pos hle, bnSub, subLoop_take, htake, take_take,
      Nat.min_self, ← bnSub, hsub, hM,
      show v + radix ^ (n + 1) - M = v - M + radix ^ (n + 1) by omega, Nat.add_mod_right,
      Nat.mod_eq_of_lt (by omega)]
  · rw [if_neg (mt hcmp.mp hle), if_neg hle, htake, hval]

def StepsMod (x m : Limbs) (n T : ℕ) : Prop :=
  ∀ k v, (2 * (val x / 2 ^ (k + 1) % T) + val x / 2 ^ k % 2) % radix ^ (n + 1) = v →
    (if val m % radix ^ (n + 1) ≤ v then v - val m % radix ^ (n + 1) else v) = val x / 2 ^ k % T

/-- The remainder of the upper bits becomes the remainder of the number. -/
theorem modLoop_mod {T : ℕ} (hm : n + 1 ≤ m.length) (hsteps : StepsMod x m n T) (k : ℕ)
    (rem : Limbs) (hrem : n + 1 ≤ rem.length) (hval : val (rem.take (n + 1)) = val x / 2 ^ k % T) :
    val ((modLoop x m n k rem).take (n + 1)) = val x % T := by
  induction k generalizing rem with
  | zero => rw [modLoop, hval, pow_zero, Nat.div_one]
  | succ k ih =>
    obtain ⟨rem', hloop, hlen, hnext⟩ := modLoop_step (x := x) rem k hrem hm rfl rfl
    rw [hloop]
    apply ih rem' (by omega)
    rw [hnext, hval]
    exact hsteps k _ rfl

theorem modLoop_length (hm : n + 1 ≤ m.length) (k : ℕ) (rem : Limbs) (hrem : n + 1 ≤ rem.length) :
    (modLoop x m n k rem).length = rem.length := by
  induction k generalizing rem with
  | zero => rfl
  | succ k ih =>
    obtain ⟨rem', hloop, hlen, _⟩ := modLoop_step (x := x) rem k hrem hm rfl rfl
    rw [hloop, ih rem' (by omega), hlen]

theorem bnMod_length {xl : ℕ} (hxl : xl ≤ x.length) (hn : n ≤ bnLimbs) (hm : n + 1 ≤ m.length) :
    (bnMod x xl m n).length = bnLimbs + 1 := by
  have hused := bnUsed_le x xl
  rw [bnMod]
  split_ifs
  · rw [length_append, length_take_of_le (by omega), length_replicate]
    omega
  · rw [modLoop_length hm _ _ (by rw [length_replicate]; omega), length_replicate]

theorem bnMod_start {xl M : ℕ} (hx : val x < radix ^ xl) :
    val ((List.replicate (bnLimbs + 1) (0 : UInt32)).take (n + 1)) =
      val x / 2 ^ bnBitlen x xl % M := by
  have hlt := val_lt_bitlen x xl
  rw [Nat.mod_eq_of_lt hx] at hlt
  rw [take_replicate, val_replicate_zero, Nat.div_eq_of_lt hlt, Nat.zero_mod]

theorem bnMod_copy {xl : ℕ} (hx : val x < radix ^ xl) (hused : bnUsed x xl ≤ n)
    (hcmp : bnCmp x m n = .lt) :
    val ((bnMod x xl m n).take (n + 1)) = val x ∧ val x < val m % radix ^ (n + 1) := by
  have hlt := val_lt_of_used x xl
  rw [Nat.mod_eq_of_lt hx] at hlt
  have hsmall : val x < radix ^ n := hlt.trans_le (Nat.pow_le_pow_right radix_pos hused)
  have hfit : val x < radix ^ (n + 1) := hsmall.trans_le (Nat.pow_le_pow_right radix_pos n.le_succ)
  have hle : val m % radix ^ n ≤ val m % radix ^ (n + 1) := by
    rw [pow_succ, Nat.mod_mul]
    exact le_add_right _ _
  constructor
  · rw [bnMod, if_pos ⟨hused, hcmp⟩, min_eq_left hused, val_take, val_append,
      val_replicate_zero, mul_zero, add_zero, val_take, Nat.mod_eq_of_lt hlt, Nat.mod_eq_of_lt hfit]
  · rw [bnCmp_eq, compare_lt_iff_lt, Nat.mod_eq_of_lt hsmall] at hcmp
    omega

theorem bnMod_mod {xl T : ℕ} (hx : val x < radix ^ xl) (hn : n ≤ bnLimbs) (hm : n + 1 ≤ m.length)
    (hT : val m % radix ^ (n + 1) ≤ T) (hsteps : StepsMod x m n T) :
    val ((bnMod x xl m n).take (n + 1)) = val x % T := by
  by_cases hshort : bnUsed x xl ≤ n ∧ bnCmp x m n = .lt
  · obtain ⟨hcopy, hlt⟩ := bnMod_copy hx hshort.1 hshort.2
    rw [hcopy, Nat.mod_eq_of_lt (hlt.trans_le hT)]
  · rw [bnMod, if_neg hshort]
    exact modLoop_mod hm hsteps _ _ (by rw [length_replicate]; omega) (bnMod_start hx)

theorem bnMod_val {xl : ℕ} (hx : val x < radix ^ xl) (hn : n ≤ bnLimbs) (hm : n + 1 ≤ m.length)
    (hpos : 0 < val m % radix ^ (n + 1)) (hroom : 2 * (val m % radix ^ (n + 1)) ≤ radix ^ (n + 1)) :
    val ((bnMod x xl m n).take (n + 1)) = val x % (val m % radix ^ (n + 1)) := by
  refine bnMod_mod hx hn hm le_rfl fun k v hv => ?_
  generalize val m % radix ^ (n + 1) = M at hpos hroom hv ⊢
  have hbit : val x / 2 ^ k % 2 ≤ 1 := by omega
  have hlt := Nat.mod_lt (val x / 2 ^ (k + 1)) hpos
  have hdouble := double_mod hpos hbit (q := val x / 2 ^ (k + 1))
  rw [← bit_split] at hdouble
  rw [← hv, Nat.mod_eq_of_lt (by omega), hdouble]

/-- When the modulus is never reached, the number is only cut off. -/
theorem bnMod_keep {xl : ℕ} (hx : val x < radix ^ xl) (hn : n ≤ bnLimbs) (hm : n + 1 ≤ m.length)
    (hless : ∀ k, val x / 2 ^ k % radix ^ (n + 1) < val m % radix ^ (n + 1)) :
    val ((bnMod x xl m n).take (n + 1)) = val x % radix ^ (n + 1) := by
  refine bnMod_mod hx hn hm (Nat.mod_lt _ (radix_pow_pos _)).le fun k v hv => ?_
  have hnext : v = val x / 2 ^ k % radix ^ (n + 1) := by
    rw [← hv]
    refine Eq.trans (((Nat.mod_modEq _ _).mul_left 2).add_right _) ?_
    rw [← bit_split]
  rw [hnext, if_neg (not_le.mpr (hless k))]

end

theorem val_modify (a : Limbs) (l : ℕ) (f : UInt32 → UInt32) (hl : l < a.length) :
    val (a.modify l f) + radix ^ l * (a.getD l 0).toNat =
      val a + radix ^ l * (f (a.getD l 0)).toNat := by
  induction a generalizing l with
  | nil => cases hl
  | cons w a ih =>
    cases l with
    | zero =>
      rw [modify_zero_cons, val_cons, val_cons, pow_zero, getD_cons_zero]
      omega
    | succ l =>
      have hrest := ih l (Nat.lt_of_succ_lt_succ hl)
      rw [modify_succ_cons, val_cons, val_cons, getD_cons_succ, pow_succ', mul_assoc, mul_assoc]
      have := congrArg (radix * ·) hrest
      simp only [mul_add] at this
      omega

theorem orByte_length (n : ℕ) (a : Limbs) (left : UInt32) (b : UInt8) :
    (orByte n a left b).length = a.length := by
  rw [orByte]
  split_ifs
  · exact length_modify _ _ _
  · rfl

theorem orByte_zero (n : ℕ) (a : Limbs) (left : UInt32) : orByte n a left 0 = a := by
  have hkeep (sh : UInt32) : (fun w : UInt32 => w ||| (UInt8.toUInt32 0 <<< sh)) = id := by
    funext w
    rw [show UInt8.toUInt32 0 = 0 from rfl, UInt32.zero_shiftLeft, UInt32.or_zero]
    rfl
  rw [orByte]
  split_ifs
  · rw [hkeep, modify_id]
  · rfl

theorem or_byte_toNat {s : ℕ} (hs : s ≤ 24) (c : ℕ) {w sh : UInt32} (b : UInt8)
    (hw : w.toNat = 2 ^ (s + 8) * c) (hsh : sh.toNat = s) :
    (w ||| (b.toUInt32 <<< sh)).toNat = w.toNat + b.toNat * 2 ^ s := by
  have hb : b.toNat * 2 ^ s < 2 ^ (s + 8) := by
    rw [add_comm s 8, pow_add]
    exact Nat.mul_lt_mul_of_pos_right b.toNat_lt (Nat.two_pow_pos s)
  have hword : 2 ^ (s + 8) ≤ 2 ^ 32 := Nat.pow_le_pow_right (by decide) (by omega)
  have hbyte : (b.toUInt32 <<< sh).toNat = b.toNat * 2 ^ s := by
    rw [UInt32.toNat_shiftLeft, hsh, Nat.mod_eq_of_lt (by omega : s < 32), Nat.shiftLeft_eq,
      UInt8.toNat_toUInt32, Nat.mod_eq_of_lt (hb.trans_le hword)]
  rw [UInt32.toNat_or, hbyte, hw, mul_comm, ← Nat.shiftLeft_eq, ← Nat.shiftLeft_add_eq_or_of_lt hb]

/-- A byte comes in at the low end, with the ones before it moved up. -/
theorem orByte_val {n : ℕ} (a : Limbs) (V k : ℕ) (b : UInt8) (hlen : a.length = n)
    (hk : k < 2 ^ 29) (ha : val a = V * 256 ^ (k + 1) % radix ^ n) :
    val (orByte n a (UInt32.ofNat k) b) = (V * 256 + b.toNat) * 256 ^ k % radix ^ n := by
  have h256 (j : ℕ) : 256 ^ j = 2 ^ (8 * j) := by rw [show 256 = 2 ^ 8 from rfl, ← pow_mul]
  have hpos : (UInt32.ofNat k * 8).toNat = 8 * k := by
    rw [UInt32.toNat_mul, UInt32.toNat_ofNat', Nat.mod_eq_of_lt (show k < 2 ^ 32 by omega)]
    change k * 8 % 2 ^ 32 = 8 * k
    omega
  have hlimb : ((UInt32.ofNat k * 8) >>> 5).toNat = k / 4 := by
    rw [UInt32.toNat_shiftRight, hpos, Nat.shiftRight_eq_div_pow]
    change 8 * k / 2 ^ 5 = k / 4
    omega
  have hshift : ((UInt32.ofNat k * 8) &&& 31).toNat = 8 * (k % 4) := by
    rw [UInt32.toNat_and, hpos]
    change 8 * k &&& 2 ^ 5 - 1 = 8 * (k % 4)
    rw [Nat.and_two_pow_sub_one_eq_mod]
    omega
  have hdistr : (V * 256 + b.toNat) * 256 ^ k = V * 256 ^ (k + 1) + b.toNat * 256 ^ k := by
    ring
  rw [orByte, hlimb]
  split_ifs with hin
  · -- the place of the byte is `k % 4` bytes up in limb `k / 4`
    have hplace : 256 ^ k = radix ^ (k / 4) * 2 ^ (8 * (k % 4)) := by
      rw [h256, radix_pow_eq, ← pow_add]
      congr 1
      omega
    have hnext : 256 ^ (k + 1) = radix ^ (k / 4) * 2 ^ (8 * (k % 4) + 8) := by
      rw [pow_succ, hplace, mul_assoc, pow_add 2 _ 8]
      norm_num only
    have hzero : (a.getD (k / 4) 0).toNat =
        2 ^ (8 * (k % 4) + 8) * (V % 2 ^ (24 - 8 * (k % 4))) := by
      have hsplit : radix ^ n = radix ^ (k / 4) * (radix * radix ^ (n - k / 4 - 1)) := by
        rw [← pow_succ', ← pow_add]
        congr 1
        omega
      have hradix : radix = 2 ^ (8 * (k % 4) + 8) * 2 ^ (24 - 8 * (k % 4)) := by
        rw [radix, ← pow_add]
        congr 1
        omega
      rw [getD_toNat, ha, hnext, hsplit, mul_left_comm, Nat.mul_mod_mul_left,
        Nat.mul_div_cancel_left _ (radix_pow_pos _), Nat.mod_mul_right_mod, hradix,
        mul_comm V, Nat.mul_mod_mul_left]
    have hor := or_byte_toNat (by omega) _ b hzero hshift
    have hmod := val_modify a (k / 4)
      (fun w => w ||| b.toUInt32 <<< ((UInt32.ofNat k * 8) &&& 31)) (by omega)
    have hlt := val_lt (a.modify (k / 4) fun w =>
      w ||| b.toUInt32 <<< ((UInt32.ofNat k * 8) &&& 31))
    rw [length_modify, hlen] at hlt
    have hval : val (a.modify (k / 4) fun w => w ||| b.toUInt32 <<< ((UInt32.ofNat k * 8) &&& 31)) =
        val a + b.toNat * 256 ^ k := by
      rw [hor, mul_add] at hmod
      rw [hplace, mul_left_comm]
      omega
    rw [← Nat.mod_eq_of_lt hlt, hval, ha, hdistr, Nat.mod_add_mod]
  · have hdvd : radix ^ n ∣ 256 ^ k := by
      rw [h256, radix_pow_eq]
      exact pow_dvd_pow 2 (by omega)
    rw [ha, Nat.mod_eq_zero_of_dvd (hdvd.trans (pow_dvd_pow _ k.le_succ) |>.mul_left V),
      Nat.mod_eq_zero_of_dvd (hdvd.mul_left _)]

theorem fromBytesLoop_val {n : ℕ} (bs : List UInt8) (a : Limbs) (V : ℕ) (hlen : a.length = n)
    (hbs : bs.length < 2 ^ 29) (ha : val a = V * 256 ^ bs.length % radix ^ n) :
    val (fromBytesLoop n bs a) = bs.foldl (fun v b => v * 256 + b.toNat) V % radix ^ n ∧
      (fromBytesLoop n bs a).length = n := by
  induction bs generalizing a V with
  | nil =>
    rw [length_nil, pow_zero, mul_one] at ha
    exact ⟨ha, hlen⟩
  | cons b bs ih =>
    rw [length_cons] at hbs ha
    exact ih _ (V * 256 + b.toNat) (by rw [orByte_length, hlen]) (by omega)
      (orByte_val a V bs.length b hlen (by omega) ha)

theorem fromBytesLoop_length (n : ℕ) (bs : List UInt8) (a : Limbs) :
    (fromBytesLoop n bs a).length = a.length := by
  induction bs generalizing a with
  | nil => rfl
  | cons b bs ih => rw [fromBytesLoop, ih, orByte_length]

theorem bnFromBytes_length (n : ℕ) (bs : List UInt8) : (bnFromBytes n bs).length = n := by
  rw [bnFromBytes, fromBytesLoop_length, length_replicate]

theorem bnFromBytes_val (n : ℕ) (bs : List UInt8) (hbs : bs.length < 2 ^ 29) :
    val (bnFromBytes n bs) = ofBytes bs % radix ^ n :=
  (fromBytesLoop_val bs _ 0 length_replicate hbs
    (by rw [val_replicate_zero, zero_mul, Nat.zero_mod])).1

theorem bnFromBytes_fits {n : ℕ} {bs : List UInt8} (hn : 4 * n < 2 ^ 29)
    (hfit : ofBytes bs < radix ^ n) : val (bnFromBytes n bs) = ofBytes bs := by
  induction bs with
  | nil => rw [bnFromBytes_val n [] (by decide)]; exact Nat.zero_mod _
  | cons b bs ih =>
    rw [ofBytes_cons] at hfit
    by_cases hlong : 4 * n ≤ bs.length
    · have hzero : b = 0 := by
        by_contra hne
        have hb : 1 ≤ b.toNat := Nat.one_le_iff_ne_zero.mpr fun h => hne (UInt8.toNat_inj.mp h)
        have hpow : 256 ^ (4 * n) ≤ 256 ^ bs.length := Nat.pow_le_pow_right (by decide) hlong
        have hmul : 1 * 256 ^ bs.length ≤ b.toNat * 256 ^ bs.length := Nat.mul_le_mul_right _ hb
        rw [bytes_pow_eq] at hpow
        omega
      rw [hzero, UInt8.toNat_zero, zero_mul, zero_add] at hfit
      rw [hzero, ofBytes_cons, UInt8.toNat_zero, zero_mul, zero_add, ← ih hfit, bnFromBytes,
        fromBytesLoop, orByte_zero, bnFromBytes]
    · rw [bnFromBytes_val n (b :: bs) (by rw [length_cons]; omega), ofBytes_cons,
        Nat.mod_eq_of_lt hfit]

theorem bnToBytes_eq (a : Limbs) (n : ℕ) : bnToBytes a n = toBytes n (val a) := by
  apply map_congr_left
  intro i _
  obtain ⟨j, hj⟩ : ∃ j, j = n - 1 - i := ⟨_, rfl⟩
  have hplace : 256 ^ j = radix ^ (j * 8 / 32) * 2 ^ (j * 8 % 32) := by
    rw [radix_pow_eq, ← pow_add, show 256 = 2 ^ 8 from rfl, ← pow_mul]
    congr 1
    omega
  rw [← hj]
  dsimp only
  split_ifs with hin
  · have hshift : (UInt32.ofNat (j * 8 % 32)).toNat % 32 = j * 8 % 32 := by
      rw [UInt32.toNat_ofNat', Nat.mod_eq_of_lt (show j * 8 % 32 < 2 ^ 32 by omega), Nat.mod_mod]
    apply UInt8.toNat_inj.mp
    rw [UInt32.toNat_toUInt8, UInt32.toNat_shiftRight, hshift,
      Nat.shiftRight_eq_div_pow, getD_toNat, UInt8.toNat_ofNat', hplace, ← Nat.div_div_eq_div_mul]
    have hcut : radix = 2 ^ (j * 8 % 32) * (2 ^ 8 * 2 ^ (24 - j * 8 % 32)) := by
      rw [radix, ← pow_add, ← pow_add]
      congr 1
      omega
    rw [hcut, Nat.mod_mul_right_div_self, Nat.mod_mul_right_mod]
  · rw [Nat.div_eq_of_lt]
    · rfl
    · calc val a < radix ^ a.length := val_lt a
        _ ≤ radix ^ (j * 8 / 32) := Nat.pow_le_pow_right radix_pos (by omega)
        _ ≤ 256 ^ j := by rw [hplace]; exact Nat.le_mul_of_pos_right _ (Nat.two_pow_pos _)

end Vnu.Tls
