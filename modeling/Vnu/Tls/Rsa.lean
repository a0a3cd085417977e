import Mathlib.Tactic.NormNum.Prime
import Vnu.Lib.Carmichael
import Vnu.Tls.Modpow

/-!
RSA with PKCS #1 v1.5 padding. Decryption undoes encryption if the modulus has fewer than 128 limbs
and the private exponent fits in them.
-/
namespace Vnu.Tls

open Lib Lib.Limbs List Nat
open ArithmeticFunction (carmichael)

def rsaExponent : List UInt8 := [0x01, 0x00, 0x01]

def paddingByte (i : ℕ) : UInt8 := (0x01 + ((UInt32.ofNat i * 37 + 11) &&& 0xFE)).toUInt8

def pkcs1Block (nlen : ℕ) (m : List UInt8) : List UInt8 :=
  let pslen := nlen - m.length - 3
  0x00 :: 0x02 :: ((range pslen).map paddingByte ++ 0x00 :: m)

def tlsRsaEncryptPkcs1 (junk : UInt32) (n m : List UInt8) : Option (List UInt8) :=
  let nlen := n.length
  if nlen > 512 ∨ nlen < 12 then none
  else if m.length > nlen - 11 then none
  else some (tlsModpow junk (pkcs1Block nlen m) rsaExponent n)

def scanPadding (block : List UInt8) (nlen : ℕ) : ℕ → ℕ → ℕ
  | 0, i => i
  | fuel + 1, i =>
    if i < nlen ∧ block.getD i 0 ≠ 0 then scanPadding block nlen fuel (i + 1) else i

def tlsRsaDecryptPkcs1 (junk : UInt32) (n d inp : List UInt8) : Option (List UInt8) :=
  let nlen := n.length
  if nlen > 512 ∨ nlen < 12 then none
  else
    let block := tlsModpow junk (inp.take nlen) d n
    if block.getD 0 0 ≠ 0x00 ∨ block.getD 1 0 ≠ 0x02 then none
    else
      let i := scanPadding block nlen nlen 2
      if i = nlen ∨ i - 2 < 8 then none
      else if nlen - (i + 1) = 0 then none
      else some (block.drop (i + 1))

theorem paddingByte_ne_zero (i : ℕ) : paddingByte i ≠ 0 := by
  obtain ⟨y, hy⟩ : ∃ y, y = UInt32.ofNat i * 37 + 11 := ⟨_, rfl⟩
  have hle : (y &&& 0xFE).toNat ≤ 254 := by
    exact Nat.and_le_right
  intro hzero
  have hnat := congrArg UInt8.toNat hzero
  rw [paddingByte, ← hy] at hnat
  change (1 + (y &&& 0xFE).toNat) % 2 ^ 32 % 2 ^ 8 = 0 at hnat
  omega

/-- The scan stops at the first zero, and the padding has none. -/
theorem scanPadding_eq {pre post block : List UInt8} (hpre : ∀ b ∈ pre, b ≠ 0) {i fuel : ℕ}
    (hfuel : pre.length < fuel) (hdrop : block.drop i = pre ++ 0 :: post) :
    scanPadding block block.length fuel i = i + pre.length := by
  induction pre generalizing i fuel with
  | nil =>
    obtain ⟨fuel, rfl⟩ := Nat.exists_eq_succ_of_ne_zero (ne_of_gt hfuel)
    have hget : block.getD i 0 = 0 := by
      rw [getD_eq_getElem?_getD, ← head?_drop, hdrop]
      rfl
    rw [scanPadding, if_neg (fun h => h.2 hget), length_nil, add_zero]
  | cons b pre ih =>
    obtain ⟨fuel, rfl⟩ := Nat.exists_eq_succ_of_ne_zero (ne_of_gt (Nat.zero_lt_of_lt hfuel))
    have hlt : i < block.length := by
      by_contra hge
      rw [drop_of_length_le (not_lt.mp hge)] at hdrop
      cases hdrop
    have hget : block.getD i 0 = b := by
      rw [getD_eq_getElem?_getD, ← head?_drop, hdrop]
      rfl
    have hnext : block.drop (i + 1) = pre ++ 0 :: post := by
      rw [← tail_drop, hdrop]
      rfl
    rw [scanPadding, if_pos ⟨hlt, by rw [hget]; exact hpre b mem_cons_self⟩,
      ih (fun c hc => hpre c (mem_cons_of_mem b hc)) (Nat.lt_of_succ_lt_succ hfuel) hnext,
      length_cons]
    omega

section

variable {n m : List UInt8}

theorem pkcs1Block_length (hm : m.length + 11 ≤ n.length) :
    (pkcs1Block n.length m).length = n.length := by
  simp only [pkcs1Block, length_cons, length_append, length_map, length_range]
  omega

/-- A block starts with a zero byte, so its number is below a modulus that does not. -/
theorem pkcs1Block_lt (hm : m.length + 11 ≤ n.length) (htop : n.headD 0 ≠ 0) :
    ofBytes (pkcs1Block n.length m) < ofBytes n := by
  cases n with
  | nil => exact absurd rfl htop
  | cons t n =>
    have hlen := pkcs1Block_length hm
    have ht : 1 ≤ t.toNat := Nat.one_le_iff_ne_zero.mpr fun h => htop (UInt8.toNat_inj.mp h)
    obtain ⟨rest, hrest⟩ : ∃ rest, pkcs1Block (t :: n).length m = 0 :: rest := ⟨_, rfl⟩
    rw [hrest, length_cons, length_cons, Nat.add_right_cancel_iff] at hlen
    rw [hrest, ofBytes_cons, ofBytes_cons]
    calc 0 * 256 ^ rest.length + ofBytes rest < 256 ^ n.length := by
          rw [zero_mul, zero_add, ← hlen]
          exact ofBytes_lt rest
      _ ≤ t.toNat * 256 ^ n.length := Nat.le_mul_of_pos_left _ ht
      _ ≤ t.toNat * 256 ^ n.length + ofBytes n := le_add_right _ _

theorem decrypt_of_block {junk : UInt32} {d inp : List UInt8} (hn : n.length ≤ 512)
    (hpos : m ≠ []) (hm : m.length + 11 ≤ n.length)
    (hblock : tlsModpow junk (inp.take n.length) d n = pkcs1Block n.length m) :
    tlsRsaDecryptPkcs1 junk n d inp = some m := by
  have hlen := pkcs1Block_length hm
  have hm_pos := length_pos_iff.mpr hpos
  obtain ⟨pre, hpre⟩ :
      ∃ pre, pre = (range (n.length - m.length - 3)).map paddingByte := ⟨_, rfl⟩
  have hprelen : pre.length = n.length - m.length - 3 := by
    rw [hpre, length_map, length_range]
  have hform : pkcs1Block n.length m = 0 :: 2 :: (pre ++ 0 :: m) := by rw [hpre]; rfl
  have hscan : scanPadding (pkcs1Block n.length m) n.length n.length 2 = 2 + pre.length := by
    have hnz : ∀ b ∈ pre, b ≠ 0 := by
      rw [hpre]
      intro b hb
      obtain ⟨i, _, rfl⟩ := mem_map.mp hb
      exact paddingByte_ne_zero i
    have htail : (pkcs1Block n.length m).drop 2 = pre ++ 0 :: m := by rw [hform]; rfl
    have hres : scanPadding (pkcs1Block n.length m) (pkcs1Block n.length m).length n.length 2 =
        2 + pre.length := scanPadding_eq hnz (by omega) htail
    rwa [hlen] at hres
  have hdrop : (pkcs1Block n.length m).drop (2 + pre.length + 1) = m := by
    rw [hform, show 2 + pre.length + 1 = pre.length + 1 + 1 + 1 by omega, drop_succ_cons,
      drop_succ_cons, ← singleton_append, ← append_assoc]
    exact drop_left' (by rw [length_append, length_singleton])
  rw [tlsRsaDecryptPkcs1, if_neg (by omega), hblock]
  dsimp only
  rw [hscan, if_neg (by rw [hform]; simp), if_neg (by omega), if_neg (by omega), hdrop]

theorem rsa_undo {N d x : ℕ} (hN : Squarefree N) (hgt : 2 < N)
    (hd : ofBytes rsaExponent * d ≡ 1 [MOD carmichael N]) (hx : x < N) :
    (x ^ ofBytes rsaExponent % N) ^ d % N = x := by
  have hpow := pow_modEq_self hN (pos_of_modEq_one hgt hd) hd x
  calc (x ^ ofBytes rsaExponent % N) ^ d % N = x ^ (ofBytes rsaExponent * d) % N := by
        rw [← Nat.pow_mod, pow_mul]
    _ = x % N := hpow
    _ = x := Nat.mod_eq_of_lt hx

theorem tlsModpow_of_lt {base exp mod : List UInt8} {E : ℕ} (hmod : mod.length ≤ 508)
    (hbase : base.length ≤ 512) (hexp : val (bnFromBytes bnLimbs exp) = E)
    (hodd : ofBytes mod % 2 = 1) (hlt : ofBytes base < ofBytes mod) (junk : UInt32) :
    tlsModpow junk base exp mod = toBytes mod.length (ofBytes base ^ E % ofBytes mod) := by
  have hlimbs : modulusLimbs mod < bnLimbs := Nat.lt_succ_of_le (modulusLimbs_le (by decide) hmod)
  obtain ⟨r, hr, heq, hsound, -⟩ := tlsModpow_eq base (hmod.trans (by decide)) hexp hodd junk
  have hmodEq := hsound (Or.inl hlimbs)
  rw [usedBase_of_lt (hmod.trans (by decide)) hlt hbase] at hmodEq
  rw [heq, ← hmodEq, Nat.mod_eq_of_lt hr]

/-- The modulus has 127 limbs at most here, so that the limb that is not set is not read. -/
theorem rsa_transport {n d m : List UInt8} (hn : n.length ≤ 508) (htop : n.headD 0 ≠ 0)
    (hodd : ofBytes n % 2 = 1) (hsq : Squarefree (ofBytes n))
    (hd : ofBytes rsaExponent * ofBytes d ≡ 1 [MOD carmichael (ofBytes n)])
    (hfits : ofBytes d < radix ^ bnLimbs) (hm : m ≠ []) (hlen : m.length + 11 ≤ n.length)
    (junk : UInt32) :
    ∃ c, tlsRsaEncryptPkcs1 junk n m = some c ∧ c.length = n.length ∧
      ∀ junk', tlsRsaDecryptPkcs1 junk' n d c = some m := by
  have hblocklen := pkcs1Block_length hlen
  have hlt := pkcs1Block_lt hlen htop
  have hpos := length_pos_iff.mpr hm
  have hgt : 2 < ofBytes n := by
    refine lt_of_le_of_lt ?_ hlt
    rw [pkcs1Block, ofBytes_cons, ofBytes_cons]
    have hpow := Nat.one_le_pow ((range (n.length - m.length - 3)).map paddingByte ++
      0x00 :: m).length
      256 (by decide)
    change 2 ≤ _ + (2 * _ + _)
    omega
  obtain ⟨c, hc⟩ : ∃ c, c = tlsModpow junk (pkcs1Block n.length m) rsaExponent n := ⟨_, rfl⟩
  have henc : c = toBytes n.length
      (ofBytes (pkcs1Block n.length m) ^ ofBytes rsaExponent % ofBytes n) := by
    rw [hc, tlsModpow_of_lt hn (by omega) (bnFromBytes_short (by decide)) hodd hlt junk]
  have hlt_c : ofBytes (pkcs1Block n.length m) ^ ofBytes rsaExponent % ofBytes n < ofBytes n :=
    Nat.mod_lt _ (by omega)
  have hcval : ofBytes c = ofBytes (pkcs1Block n.length m) ^ ofBytes rsaExponent % ofBytes n := by
    rw [henc, ofBytes_toBytes, Nat.mod_eq_of_lt (hlt_c.trans (ofBytes_lt n))]
  have hclen : c.length = n.length := by rw [henc, toBytes_length]
  refine ⟨c, by rw [tlsRsaEncryptPkcs1, if_neg (by omega), if_neg (by omega), hc], hclen,
    fun junk' => ?_⟩
  apply decrypt_of_block (hn.trans (by decide)) hm hlen
  rw [take_of_length_le hclen.le,
    tlsModpow_of_lt hn (by omega) (bnFromBytes_fits (by decide) hfits) hodd
      (by rw [hcval]; exact hlt_c), hcval,
    rsa_undo hsq hgt hd hlt]
  have hback := toBytes_ofBytes (pkcs1Block n.length m)
  rwa [hblocklen] at hback

/-- A message that is encrypted and decrypted is the message. -/
theorem rsa_round_trip {n d m : List UInt8} (hn : n.length ≤ 508) (htop : n.headD 0 ≠ 0)
    (hodd : ofBytes n % 2 = 1) (hsq : Squarefree (ofBytes n))
    (hd : ofBytes rsaExponent * ofBytes d ≡ 1 [MOD carmichael (ofBytes n)])
    (hfits : ofBytes d < radix ^ bnLimbs) (hm : m ≠ []) (hlen : m.length + 11 ≤ n.length)
    (junk junk' : UInt32) :
    ∃ c, tlsRsaEncryptPkcs1 junk n m = some c ∧ tlsRsaDecryptPkcs1 junk' n d c = some m := by
  obtain ⟨c, henc, -, hdec⟩ := rsa_transport hn htop hodd hsq hd hfits hm hlen junk
  exact ⟨c, henc, hdec junk'⟩

end

section

def samplePrimes : List ℕ := [7, 11, 19, 23, 31, 43, 47, 59, 67, 71, 79, 83, 103, 107, 127, 131]

def sampleModulus : List UInt8 := [2, 76, 107, 84, 218, 129, 121, 146, 245, 198, 126, 1]

def samplePrivate : List UInt8 := [1, 10, 166, 13, 189, 212, 203, 243, 128, 237, 0, 1]

theorem samplePrimes_prime : ∀ p ∈ samplePrimes, p.Prime := by
  simp only [samplePrimes]
  norm_num

theorem sampleModulus_eq : ofBytes sampleModulus = samplePrimes.prod := by decide +kernel

theorem sampleModulus_squarefree : Squarefree (ofBytes sampleModulus) := by
  exact (prod_primes samplePrimes_prime (by decide)).1

theorem sample_inverse {d : List UInt8}
    (hd : ofBytes rsaExponent * ofBytes d ≡ 1 [MOD (samplePrimes.map (· - 1)).prod]) :
    ofBytes rsaExponent * ofBytes d ≡ 1 [MOD carmichael (ofBytes sampleModulus)] := by
  rw [sampleModulus_eq]
  exact modEq_one_of_prod samplePrimes_prime (by decide) hd

theorem rsa_round_trip_sample :
    ∃ c, tlsRsaEncryptPkcs1 0 sampleModulus [42] = some c ∧
      tlsRsaDecryptPkcs1 0 sampleModulus samplePrivate c = some [42] :=
  rsa_round_trip (by decide) (by decide) (by decide +kernel) sampleModulus_squarefree
    (sample_inverse (by decide +kernel)) (ofBytes_short (by decide)) (by decide) (by decide) 0 0

/-- An exponent of which one is left in 128 limbs. -/
def longPrivate : List UInt8 := [1, 67, 59, 160, 153, 250, 25, 54, 240, 138] ++
    replicate 511 0 ++ [1]

def sampleCipher : List UInt8 := [1, 168, 149, 9, 150, 226, 146, 8, 222, 157, 175, 166]

/-- Decryption with the long exponent leaves the ciphertext as it is. -/
theorem rsa_long_exponent :
    Squarefree (ofBytes sampleModulus) ∧
      ofBytes rsaExponent * ofBytes longPrivate ≡ 1 [MOD carmichael (ofBytes sampleModulus)] ∧
      tlsRsaEncryptPkcs1 0 sampleModulus [42] = some sampleCipher ∧
      tlsRsaDecryptPkcs1 0 sampleModulus longPrivate sampleCipher = none := by
  refine ⟨sampleModulus_squarefree, sample_inverse (by decide +kernel), by decide +kernel, ?_⟩
  have hblock : tlsModpow 0 (sampleCipher.take sampleModulus.length) longPrivate sampleModulus =
      sampleCipher := by
    decide +kernel
  rw [tlsRsaDecryptPkcs1, hblock]
  decide

end

end Vnu.Tls
