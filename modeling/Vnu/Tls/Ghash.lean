import Vnu.Lib.BinaryField
import Vnu.Tls.Gcm

/-!
The hash of GCM against NIST SP 800-38D. The code keeps a block with its bits in the opposite order,
so that a multiplication by the variable is a shift to the left.
-/
namespace Vnu.Tls

open Lib.BinaryField List Polynomial

namespace Nist

noncomputable def modulus : (ZMod 2)[X] := X ^ 128 + (X ^ 7 + X ^ 2 + X + 1)

theorem modulus_eq : modulus = X ^ 128 + (X ^ 7 + X ^ 2 + X + 1) := by
  unfold modulus
  exact rfl

def stringBit (b : Block) (i : ℕ) : Bool := (b.getD (i / 8) 0).toBitVec.getLsbD (7 - i % 8)

/-- The element of the field a block stands for: its first bit is the coefficient of 1. -/
noncomputable def element (b : Block) : AdjoinRoot modulus :=
  value (AdjoinRoot.root modulus) 128 (stringBit b)

noncomputable def ghash (H : Block) (blocks : List Block) : AdjoinRoot modulus :=
  blocks.foldl (fun y b => (y + element b) * element H) 0

end Nist

open Nist

/-- Bit `i` of a block in the order of the code, where byte 0 is the highest. -/
def fieldBit (b : Block) (i : ℕ) : Bool := (b.getD (15 - i / 8) 0).toBitVec.getLsbD (i % 8)

theorem forall_byte {p : UInt8 → Prop} (h : ∀ n < 256, p (UInt8.ofNat n)) (b : UInt8) : p b := by
  simpa using h b.toNat b.toNat_lt

theorem revByte_bit (v : UInt8) : ∀ k < 8,
    (revByte v).toBitVec.getLsbD k = v.toBitVec.getLsbD (7 - k) := by
  revert v
  apply forall_byte
  decide +kernel

theorem gcmRev128_getD (b : Block) {j : ℕ} (hj : j < 16) :
    (gcmRev128 b).getD j 0 = revByte (b.getD (15 - j) 0) := by
  rw [gcmRev128, getD_eq_getElem _ _ (by simpa using hj), getElem_map, getElem_range]

variable {b c : Block} {i : ℕ}

theorem fieldBit_rev (hi : i < 128) : fieldBit (gcmRev128 b) i = stringBit b i := by
  rw [fieldBit, gcmRev128_getD b (by omega), revByte_bit _ _ (by omega), stringBit]
  congr 3
  omega

theorem stringBit_rev (hi : i < 128) : stringBit (gcmRev128 b) i = fieldBit b i := by
  rw [stringBit, gcmRev128_getD b (by omega), revByte_bit _ _ (by omega), fieldBit]
  congr 2
  omega

theorem xor_getD (h : b.length = c.length) (j : ℕ) :
    (zipWith (· ^^^ ·) b c).getD j 0 = b.getD j 0 ^^^ c.getD j 0 := by
  simp only [getD_eq_getElem?_getD, getElem?_zipWith]
  rcases lt_or_ge j b.length with hlt | hge
  · rw [getElem?_eq_getElem hlt, getElem?_eq_getElem (h ▸ hlt)]
    rfl
  · rw [getElem?_eq_none hge, getElem?_eq_none (h ▸ hge)]
    rfl

theorem fieldBit_xor (h : b.length = c.length) (i : ℕ) :
    fieldBit (gfXor b c) i = (fieldBit b i ^^ fieldBit c i) := by
  rw [fieldBit, gfXor, xor_getD h, UInt8.toBitVec_xor, BitVec.getLsbD_xor]
  rfl

theorem shifted_bit (u v : UInt8) {k : ℕ} (hk : k < 8) :
    ((u <<< 1) ||| (v >>> 7)).toBitVec.getLsbD k =
      if k = 0 then v.toBitVec.getLsbD 7 else u.toBitVec.getLsbD (k - 1) := by
  have h1 : (UInt8.toBitVec 1 % 8).toNat = 1 := rfl
  have h7 : (UInt8.toBitVec 7 % 8).toNat = 7 := rfl
  simp only [UInt8.toBitVec_or, UInt8.toBitVec_shiftLeft, UInt8.toBitVec_shiftRight,
    BitVec.getLsbD_or, BitVec.shiftLeft_eq', BitVec.ushiftRight_eq', h1, h7,
    BitVec.getLsbD_shiftLeft, BitVec.getLsbD_ushiftRight]
  split_ifs with h0
  · simp [h0]
  · have hout : v.toBitVec.getLsbD (7 + k) = false := BitVec.getLsbD_of_ge _ _ (by omega)
    simp [hk, hout, show ¬ k < 1 by omega]

def tailBlock : Block := replicate 15 0 ++ [0x87]

theorem doubled_getD {v : Block} (hv : v.length = 16) {j : ℕ} (hj : j < 16) :
    ((range 15).map (fun j => (v.getD j 0 <<< 1) ||| (v.getD (j + 1) 0 >>> 7)) ++
      [v.getD 15 0 <<< 1]).getD j 0 = (v.getD j 0 <<< 1) ||| (v.getD (j + 1) 0 >>> 7) := by
  rcases (by omega : j < 15 ∨ j = 15) with hlt | rfl
  · rw [getD_append _ _ _ _ (by simpa using hlt), getD_eq_getElem _ _ (by simpa using hlt),
      getElem_map, getElem_range]
  · rw [getD_append_right _ _ _ _ (by simp), getD_eq_default v 0 (n := 16) (by omega)]
    exact (UInt8.or_zero ..).symm

/-- A shift by one bit, where the bit that falls out brings in the tail of the modulus. -/
theorem gfTimesX_bit {v : Block} (hv : v.length = 16) (hi : i < 128) : fieldBit (gfTimesX v) i =
    ((i != 0 && fieldBit v (i - 1)) ^^ (fieldBit v 127 && fieldBit tailBlock i)) := by
  have htop : ∀ u : UInt8, u >>> 7 ≠ 0 ↔ u.toBitVec.getLsbD 7 := forall_byte (by decide +kernel)
  obtain ⟨w, hw⟩ : ∃ w, w = (range 15).map (fun j => (v.getD j 0 <<< 1) |||
    (v.getD (j + 1) 0 >>> 7)) ++ [v.getD 15 0 <<< 1] := ⟨_, rfl⟩
  have hwlen : w.length = 16 := by simp [hw]
  have hbit : fieldBit w i = (i != 0 && fieldBit v (i - 1)) := by
    rw [fieldBit, hw, doubled_getD hv (by omega), shifted_bit _ _ (by omega), fieldBit]
    split_ifs with h8
    · rcases eq_or_ne i 0 with rfl | h0
      · rw [getD_eq_default v 0 (by omega)]
        rfl
      · rw [show 15 - (i - 1) / 8 = 15 - i / 8 + 1 by omega, show (i - 1) % 8 = 7 by omega,
          bne_iff_ne.mpr h0, Bool.true_and]
    · rw [show (i - 1) / 8 = i / 8 by omega, show (i - 1) % 8 = i % 8 - 1 by omega,
        bne_iff_ne.mpr (by omega), Bool.true_and]
  have hadd : fieldBit (w.set 15 (w.getD 15 0 ^^^ 0x87)) i =
      (fieldBit w i ^^ fieldBit tailBlock i) := by
    rcases lt_or_ge i 8 with hlow | hhigh
    · have hlast : 15 - i / 8 = 15 := by omega
      simp [fieldBit, tailBlock, hlast, hwlen]
    · have hzero : ∀ i < 128, 8 ≤ i → fieldBit tailBlock i = false := by decide +kernel
      rw [hzero i hi hhigh, Bool.xor_false]
      simp [fieldBit, show 15 ≠ 15 - i / 8 by omega]
  rw [gfTimesX, ← hw]
  simp only [htop]
  change fieldBit (if fieldBit v 127 = true then _ else _) i = _
  cases fieldBit v 127 with
  | false => rw [if_neg Bool.false_ne_true, hbit, Bool.false_and, Bool.xor_false]
  | true => rw [if_pos rfl, hadd, hbit, Bool.true_and]

noncomputable def codeElement (b : Block) : AdjoinRoot modulus :=
  value (AdjoinRoot.root modulus) 128 (fieldBit b)

theorem codeElement_rev (b : Block) : codeElement (gcmRev128 b) = element b :=
  value_congr fun _ hi => fieldBit_rev hi

theorem element_rev (b : Block) : element (gcmRev128 b) = codeElement b :=
  value_congr fun _ hi => stringBit_rev hi

theorem codeElement_zero : codeElement (replicate 16 0) = 0 :=
  (value_congr (by decide +kernel)).trans (value_false _ 128)

theorem codeElement_xor (h : b.length = c.length) :
    codeElement (gfXor b c) = codeElement b + codeElement c := by
  rw [codeElement, funext (fieldBit_xor h), value_xor]
  rfl

theorem codeElement_timesX (hb : b.length = 16) :
    codeElement (gfTimesX b) = AdjoinRoot.root modulus * codeElement b := by
  have htail : AdjoinRoot.root modulus ^ (127 + 1) =
      value (AdjoinRoot.root modulus) (127 + 1) (fieldBit tailBlock) := by
    rw [root_pow modulus_eq,
      value_eq_sum (s := {7, 2, 1, 0}) (by decide) (by decide +kernel)]
    simp [add_assoc]
  exact (value_congr fun _ hi => gfTimesX_bit hb hi).trans (value_shift htail _)

theorem gfXor_length (hb : b.length = 16) (hc : c.length = 16) : (gfXor b c).length = 16 := by
  rw [gfXor, length_zipWith, hb, hc, Nat.min_self]

theorem gfTimesX_length (v : Block) : (gfTimesX v).length = 16 := by
  simp only [gfTimesX]
  split_ifs <;> simp

theorem ghashLoop_element (x : Block) (n bit : ℕ) {v z : Block} (hv : v.length = 16)
    (hz : z.length = 16) : (ghashLoop x n bit v z).length = 16 ∧
      codeElement (ghashLoop x n bit v z) = codeElement z +
        value (AdjoinRoot.root modulus) n (fun j => fieldBit x (bit + j)) * codeElement v := by
  have hmask : ∀ u : UInt8, ∀ k < 8, (u >>> UInt8.ofNat k) &&& 1 ≠ 0 ↔ u.toBitVec.getLsbD k :=
    forall_byte (by decide +kernel)
  induction n generalizing bit v z with
  | zero => exact ⟨hz, by simp [ghashLoop, value]⟩
  | succ n ih =>
    simp only [ghashLoop, hmask _ (bit % 8) (Nat.mod_lt _ (by decide))]
    change (ghashLoop x n (bit + 1) (gfTimesX v) (if fieldBit x bit then gfXor z v else z)).length =
      16 ∧ codeElement (ghashLoop x n (bit + 1) (gfTimesX v) (if fieldBit x bit then _ else _)) = _
    obtain ⟨hlen, heq⟩ := @ih (bit + 1) _ (if fieldBit x bit then gfXor z v else z)
      (gfTimesX_length v) (by split_ifs; exacts [gfXor_length hz hv, hz])
    refine ⟨hlen, ?_⟩
    rw [heq, codeElement_timesX hv, value_succ, apply_ite codeElement,
      codeElement_xor (hz.trans hv.symm)]
    simp only [Nat.add_zero, Nat.add_right_comm bit 1, ← Nat.add_assoc]
    split_ifs <;> ring

theorem ghashAbsorb_element {acc block H : Block} (hacc : acc.length = 16) (hH : H.length = 16) :
    (ghashAbsorb acc block H).length = 16 ∧
      codeElement (ghashAbsorb acc block H) =
        (codeElement acc + element block) * codeElement H := by
  have hrev : (gcmRev128 block).length = 16 := by simp [gcmRev128]
  obtain ⟨hlen, heq⟩ := ghashLoop_element (gfXor acc (gcmRev128 block)) 128 0 hH
    (z := replicate 16 0) rfl
  refine ⟨hlen, heq.trans ?_⟩
  rw [codeElement_zero, zero_add, ← codeElement_rev, ← codeElement_xor (hacc.trans hrev.symm)]
  simp only [zero_add]
  rfl

theorem ghash_fold {H : Block} (hH : H.length = 16) (blocks : List Block) {acc : Block}
    (hacc : acc.length = 16) :
    (blocks.foldl (fun acc block => ghashAbsorb acc block H) acc).length = 16 ∧
      codeElement (blocks.foldl (fun acc block => ghashAbsorb acc block H) acc) =
        blocks.foldl (fun y block => (y + element block) * codeElement H) (codeElement acc) := by
  induction blocks generalizing acc with
  | nil => exact ⟨hacc, rfl⟩
  | cons block blocks ih =>
    obtain ⟨hlen, heq⟩ := @ghashAbsorb_element acc block H hacc hH
    rw [foldl_cons, foldl_cons, ← heq]
    exact ih hlen

theorem modulus_monic : modulus.Monic ∧ modulus.natDegree = 128 := by
  have hseven : (X ^ 7 + X ^ 2 + X + 1 : (ZMod 2)[X]).natDegree ≤ 7 := by compute_degree
  exact monic_and_natDegree modulus_eq
    ((degree_le_of_natDegree_le hseven).trans_lt (Nat.cast_lt.mpr (by decide)))

/-- A block stands for one element only. -/
theorem element_injective (hb : b.length = 16) (hc : c.length = 16)
    (h : element b = element c) : b = c := by
  have hbits := fun i => value_root_inj modulus_monic.1 modulus_monic.2 h (i := i)
  refine ext_getElem (hb.trans hc.symm) fun j hj hj' => ?_
  have hbyte : b.getD j 0 = c.getD j 0 := by
    apply UInt8.toBitVec_inj.mp
    apply BitVec.eq_of_getLsbD_eq
    intro k hk
    have hbit := hbits (j * 8 + (7 - k)) (by omega)
    rw [stringBit, stringBit, show (j * 8 + (7 - k)) / 8 = j by omega,
      show 7 - (j * 8 + (7 - k)) % 8 = k by omega] at hbit
    exact hbit
  rwa [getD_eq_getElem _ _ hj, getD_eq_getElem _ _ hj'] at hbyte

/-- The string the code ends with stands for the hash of the blocks. -/
theorem ghash_blocks (H : Block) (blocks : List Block) :
    element (gcmRev128 (blocks.foldl (fun acc block => ghashAbsorb acc block (gcmRev128 H))
      (replicate 16 0))) = ghash H blocks := by
  have hrev : (gcmRev128 H).length = 16 := by simp [gcmRev128]
  obtain ⟨-, heq⟩ := @ghash_fold _ hrev blocks (replicate 16 0) rfl
  rw [codeElement_rev, codeElement_zero, ← element_rev] at heq
  exact heq

end Vnu.Tls
