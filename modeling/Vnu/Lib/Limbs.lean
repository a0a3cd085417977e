import Mathlib.Data.List.GetD
import Mathlib.Data.Nat.Digits.Lemmas
import Mathlib.Tactic.NormNum
import Mathlib.Tactic.Ring

/-!
The number a list of 32-bit limbs stands for, the lowest first, and that of a list of bytes, the
highest first.
-/
namespace Vnu.Lib.Limbs

open List Nat

def radix : ℕ := 2 ^ 32

theorem radix_pos : 0 < radix := Nat.two_pow_pos 32

theorem radix_pow_pos (n : ℕ) : 0 < radix ^ n := Nat.pow_pos radix_pos

theorem radix_pow_eq (n : ℕ) : radix ^ n = 2 ^ (32 * n) := by
  rw [radix, ← pow_mul]

theorem bytes_pow_eq (n : ℕ) : 256 ^ (4 * n) = radix ^ n := by
  rw [pow_mul, radix]
  norm_num only

theorem toNat_lt_radix (w : UInt32) : w.toNat < radix := w.toNat_lt

def val (a : List UInt32) : ℕ := Nat.ofDigits radix (a.map UInt32.toNat)

@[simp] theorem val_nil : val [] = 0 := rfl

@[simp] theorem val_cons (w : UInt32) (a : List UInt32) :
    val (w :: a) = w.toNat + radix * val a := by
  rw [val, map_cons, Nat.ofDigits_cons, val]

theorem val_append (a b : List UInt32) : val (a ++ b) = val a + radix ^ a.length * val b := by
  rw [val, map_append, Nat.ofDigits_append, length_map, val, val]

theorem limb_lt (a : List UInt32) : ∀ d ∈ a.map UInt32.toNat, d < radix := by
  simp only [mem_map]
  rintro _ ⟨w, _, rfl⟩
  exact toNat_lt_radix w

theorem val_lt (a : List UInt32) : val a < radix ^ a.length := by
  have hlt := Nat.ofDigits_lt_base_pow_length (by norm_num [radix]) (limb_lt a)
  rwa [length_map] at hlt

theorem val_inj {a b : List UInt32} (hlen : a.length = b.length) (h : val a = val b) : a = b := by
  refine map_injective_iff.mpr (fun _ _ => UInt32.toNat_inj.mp) ?_
  exact Nat.ofDigits_inj_of_len_eq (by norm_num [radix]) (by simpa using hlen) (limb_lt a)
    (limb_lt b) h

theorem val_replicate_zero (n : ℕ) : val (replicate n 0) = 0 := by
  induction n with
  | zero => rfl
  | succ n ih => rw [replicate_succ, val_cons, ih]; rfl

theorem carry_step (x y P : ℕ) :
    x % radix + radix * ((y + x / radix) % P) = (x + radix * y) % (radix * P) := by
  rw [Nat.mod_mul, Nat.add_mul_mod_self_left, Nat.add_mul_div_left _ _ radix_pos, add_comm y]

theorem cons_mod (w : UInt32) (y P : ℕ) :
    w.toNat + radix * (y % P) = (w.toNat + radix * y) % (radix * P) := by
  have hw := toNat_lt_radix w
  have hstep := carry_step w.toNat y P
  rwa [Nat.div_eq_of_lt hw, add_zero, Nat.mod_eq_of_lt hw] at hstep

theorem val_take (a : List UInt32) (n : ℕ) : val (a.take n) = val a % radix ^ n := by
  induction a generalizing n with
  | nil => rw [take_nil, val_nil, Nat.zero_mod]
  | cons w a ih =>
    cases n with
    | zero => rw [take_zero, pow_zero, Nat.mod_one, val_nil]
    | succ n =>
      rw [take_succ_cons, val_cons, val_cons, ih, cons_mod, pow_succ']

/-- A number that is small in `n + 1` limbs is the same in `n`. -/
theorem val_take_of_succ {a : List UInt32} {n v : ℕ} (h : val (a.take (n + 1)) = v)
    (hv : v < radix ^ n) : val (a.take n) = v := by
  rw [val_take] at h ⊢
  rw [← Nat.mod_eq_of_lt hv, ← h, Nat.mod_mod_of_dvd _ (pow_dvd_pow _ n.le_succ)]

theorem val_drop (a : List UInt32) (n : ℕ) : val (a.drop n) = val a / radix ^ n := by
  rcases lt_or_ge n a.length with hlt | hle
  · have hsplit := val_append (a.take n) (a.drop n)
    rw [take_append_drop, length_take_of_le hlt.le, val_take] at hsplit
    rw [hsplit, Nat.add_mul_div_left _ _ (radix_pow_pos n),
      Nat.div_eq_of_lt (Nat.mod_lt _ (radix_pow_pos n)), Nat.zero_add]
  · rw [drop_of_length_le hle, val_nil, Nat.div_eq_of_lt]
    exact (val_lt a).trans_le (Nat.pow_le_pow_right radix_pos hle)

theorem getD_toNat (a : List UInt32) (i : ℕ) : (a.getD i 0).toNat = val a / radix ^ i % radix := by
  rw [← val_drop]
  rcases lt_or_ge i a.length with hlt | hle
  · rw [drop_eq_getElem_cons hlt, val_cons, Nat.add_mul_mod_self_left,
      Nat.mod_eq_of_lt (toNat_lt_radix _), getD_eq_getElem _ _ hlt]
  · rw [drop_of_length_le hle, getD_eq_default _ _ hle]
    rfl

def ofBytes (bs : List UInt8) : ℕ := bs.foldl (fun v b => v * 256 + b.toNat) 0

def toBytes (n v : ℕ) : List UInt8 := (range n).map fun i =>
    UInt8.ofNat (v / 256 ^ (n - 1 - i))

theorem toBytes_length (n v : ℕ) : (toBytes n v).length = n := by
  rw [toBytes, length_map, length_range]

theorem ofBytes_append (bs : List UInt8) (b : UInt8) :
    ofBytes (bs ++ [b]) = ofBytes bs * 256 + b.toNat := by
  rw [ofBytes, foldl_append]
  rfl

theorem toBytes_succ (n v : ℕ) : toBytes (n + 1) v = toBytes n (v / 256) ++ [UInt8.ofNat v] := by
  rw [toBytes, range_succ, map_append, map_singleton]
  congr 1
  · apply map_congr_left
    intro i hi
    have hlt := mem_range.mp hi
    rw [show n + 1 - 1 - i = n - 1 - i + 1 by omega, pow_succ', Nat.div_div_eq_div_mul]
  · rw [Nat.add_sub_cancel, Nat.sub_self, pow_zero, Nat.div_one]

theorem ofBytes_toBytes (n v : ℕ) : ofBytes (toBytes n v) = v % 256 ^ n := by
  induction n generalizing v with
  | zero => rw [pow_zero, Nat.mod_one]; rfl
  | succ n ih =>
    rw [toBytes_succ, ofBytes_append, ih, UInt8.toNat_ofNat', pow_succ' 256 n, Nat.mod_mul]
    omega

theorem ofBytes_lt (bs : List UInt8) : ofBytes bs < 256 ^ bs.length := by
  induction bs using reverseRecOn with
  | nil => exact Nat.one_pos
  | append_singleton bs b ih =>
    have hb := b.toNat_lt
    rw [ofBytes_append, length_append, length_singleton]
    omega

theorem toBytes_ofBytes (bs : List UInt8) : toBytes bs.length (ofBytes bs) = bs := by
  induction bs using reverseRecOn with
  | nil => rfl
  | append_singleton bs b ih =>
    have hb := b.toNat_lt
    rw [length_append, length_singleton, toBytes_succ, ofBytes_append,
      show (ofBytes bs * 256 + b.toNat) / 256 = ofBytes bs by omega]
    congr 2
    apply UInt8.toNat_inj.mp
    rw [UInt8.toNat_ofNat']
    omega

theorem ofBytes_cons (b : UInt8) (bs : List UInt8) :
    ofBytes (b :: bs) = b.toNat * 256 ^ bs.length + ofBytes bs := by
  induction bs using reverseRecOn with
  | nil =>
    rw [length_nil, pow_zero, mul_one]
    exact Nat.zero_add _
  | append_singleton bs c ih =>
    rw [← cons_append, ofBytes_append, ih, ofBytes_append, length_append, length_singleton]
    ring

theorem toBytes_inj {n v w : ℕ} (hv : v < 256 ^ n) (hw : w < 256 ^ n) :
    toBytes n v = toBytes n w ↔ v = w := by
  constructor
  · intro h
    have hval := congrArg ofBytes h
    rwa [ofBytes_toBytes, ofBytes_toBytes, Nat.mod_eq_of_lt hv, Nat.mod_eq_of_lt hw] at hval
  · rintro rfl
    rfl

end Vnu.Lib.Limbs
