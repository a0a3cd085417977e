import Vnu.Tls.Certificate
import Vnu.Tls.Exchange

/-!
The key of a server: a certificate that carries it, and a secret that goes through it.
-/
namespace Vnu.Tls

open Lib Lib.Limbs List Option
open ArithmeticFunction (carmichael)

structure Carries (cert mod exp : List UInt8) : Prop where
  integers : ∃ n x, PublicKey cert n x ∧ (Magnitude n mod ∧ (n.headD 0).toNat < 128) ∧
    Magnitude x exp ∧ (x.headD 0).toNat < 128

section

variable {v m m' : List UInt8}

theorem Magnitude.ne_nil (h : Magnitude v m) : m ≠ [] := by
  rintro rfl
  rcases h.short with hnil | hhead
  · cases hnil
  · exact hhead rfl

theorem Magnitude.content_ne_nil (h : Magnitude v m) : v ≠ [] := by
  rintro rfl
  obtain ⟨z, hz⟩ := h.zeros
  exact h.ne_nil (append_eq_nil_iff.mp hz.symm).2

theorem Magnitude.length_le (h : Magnitude v m) (h' : Magnitude v m') : m.length ≤ m'.length := by
  obtain ⟨z, hz⟩ := h.zeros
  obtain ⟨z', hz'⟩ := h'.zeros
  have hlen := congrArg length hz
  have hlen' := congrArg length hz'
  rw [length_append, length_replicate] at hlen hlen'
  by_contra hlt
  have hpos := length_pos_iff.mpr h'.ne_nil
  rcases h.short with hzero | hhead
  · rw [hzero, length_singleton] at hlt
    omega
  -- the first byte of the longer one is among the zeros before the shorter one
  have hget : v.getD z 0 = m.headD 0 := by
    rw [hz, getD_append_right _ _ _ _ (by rw [length_replicate]), length_replicate, Nat.sub_self]
    cases m <;> rfl
  have hget' : v.getD z 0 = 0 := by
    rw [hz', getD_append _ _ _ _ (by rw [length_replicate]; omega)]
    exact getD_replicate _ (by omega)
  exact hhead (hget.symm.trans hget')

theorem Magnitude.unique (h : Magnitude v m) (h' : Magnitude v m') : m = m' := by
  obtain ⟨z, hz⟩ := h.zeros
  obtain ⟨z', hz'⟩ := h'.zeros
  exact (append_inj' (hz.symm.trans hz') (le_antisymm (h.length_le h') (h'.length_le h))).2

theorem Starts.length_le {bytes value rest : List UInt8} {tag : UInt8}
    (h : Starts bytes tag value rest) :
    value.length ≤ bytes.length ∧ rest.length ≤ bytes.length := by
  obtain ⟨-, len, -, rfl⟩ := h
  simp only [length_cons, length_append]
  omega

theorem KeyInfo.length_le {bytes info : List UInt8} (h : KeyInfo bytes info) :
    info.length ≤ bytes.length := by
  induction h with
  | here h _ => exact h.length_le.1
  | later h _ _ ih => exact ih.trans h.length_le.2

theorem PublicKey.length_le {der n e : List UInt8} (h : PublicKey der n e) :
    n.length ≤ der.length := by
  obtain ⟨cert, tbs, info, key, behind, ⟨_, hcert⟩, ⟨_, htbs⟩, hinfo,
    ⟨alg, after, bits, halg, ⟨_, hbits⟩, _, hkey⟩, hn, -⟩ := h
  have h₁ := hcert.length_le.1
  have h₂ := htbs.length_le.1
  have h₃ := hinfo.length_le
  have h₄ := halg.length_le.2
  have h₅ := hbits.length_le.1
  have h₆ := hkey.length_le.1
  have h₇ := hn.length_le.1
  rw [length_cons] at h₅
  omega

end

section

variable {cert mod exp : List UInt8}

theorem Carries.length_le (h : Carries cert mod exp) : mod.length ≤ cert.length := by
  obtain ⟨n, x, hkey, ⟨hmod, -⟩, -⟩ := h.integers
  obtain ⟨z, hz⟩ := hmod.zeros
  have hlen := congrArg length hz
  rw [length_append] at hlen
  have hle := hkey.length_le
  omega

theorem keyInteger_of_magnitude {key v m : List UInt8} {ko ko' cap : ℕ}
    (hnext : derNext key ko = some (⟨0x02, v⟩, ko')) (hm : Magnitude v m)
    (hclear : (v.headD 0).toNat < 128) (hcap : m.length ≤ cap) :
    keyInteger key ko cap = some (m, ko') := by
  have hv := hm.content_ne_nil
  have hvalue : intValue v = m := ((intValue_magnitude_iff hv).mpr hclear).unique hm
  have hpos := length_pos_iff.mpr hm.ne_nil
  have hbytes : intBytes ⟨0x02, v⟩ cap = some m := by
    rw [intBytes, if_neg, hvalue, if_neg (by omega)]
    simpa using hv
  rw [keyInteger, hnext, bind_some, hbytes, map_some]

theorem Carries.pubkey (h : Carries cert mod exp) {modCap expCap : ℕ} (hmod : mod.length ≤ modCap)
    (hexp : exp.length ≤ expCap) : tlsX509RsaPubkey cert modCap expCap = ⟨some mod, some exp⟩ := by
  obtain ⟨n, x, hkey, ⟨hn, hnclear⟩, hx, hxclear⟩ := h.integers
  obtain ⟨key, ko, ko', hcert, hnext, hnext'⟩ := publicKey_iff.mp hkey
  rw [tlsX509RsaPubkey_eq, hcert, elim_some, keyInteger_of_magnitude hnext hn hnclear hmod,
    elim_some, keyInteger_of_magnitude hnext' hx hxclear hexp, map_some]

end

/-- A key of 2048 bits with the exponent 65537 and a private one that fits the limbs. -/
structure Keypair.Usable (kp : Keypair) : Prop where
  length : kp.mod.length = 256
  top : kp.mod.headD 0 ≠ 0
  odd : ofBytes kp.mod % 2 = 1
  squarefree : Squarefree (ofBytes kp.mod)
  inverse : ofBytes rsaExponent * ofBytes kp.priv ≡ 1 [MOD carmichael (ofBytes kp.mod)]
  fits : ofBytes kp.priv < radix ^ bnLimbs

/-- The secret of the client gets to the server. -/
theorem Keypair.Usable.transport {kp : Keypair} (h : kp.Usable) (r : List UInt8) (junk : UInt32) :
    ∃ enc, tlsRsaEncryptPkcs1 junk kp.mod (premaster r) = some enc ∧ enc.length = 256 ∧
      ∀ junk', tlsRsaDecryptPkcs1 junk' kp.mod kp.priv enc = some (premaster r) := by
  have hlen := premaster_length r
  have hmod := h.length
  obtain ⟨enc, henc, henclen, hdec⟩ := rsa_transport (by omega) h.top h.odd h.squarefree h.inverse
    h.fits (length_pos_iff.mp (by omega)) (by omega : (premaster r).length + 11 ≤ _) junk
  exact ⟨enc, henc, henclen.trans hmod, hdec⟩

section

def serverPrimes : List ℕ :=
  (range 1472).filter fun p =>
    Nat.blt 2 p && (range 40).all fun d => Nat.ble d 1 || Nat.ble p d || Nat.blt 0 (p % d)

theorem serverPrimes_prime : ∀ p ∈ serverPrimes, p.Prime := by
  intro p hp
  obtain ⟨hrange, hp⟩ := mem_filter.mp hp
  have hlt := mem_range.mp hrange
  simp only [Bool.and_eq_true, List.all_eq_true, mem_range, Bool.or_eq_true, Nat.blt_eq,
    Nat.ble_eq] at hp
  refine Nat.prime_def_le_sqrt.mpr ⟨hp.1.le, fun d hd hsqrt hdvd => ?_⟩
  have hsq : d * d ≤ p := Nat.le_sqrt.mp hsqrt
  have hsmall : d < 40 := by
    by_contra hbig
    have := Nat.mul_le_mul (Nat.le_of_not_lt hbig) (Nat.le_of_not_lt hbig)
    omega
  have hless := Nat.mul_le_mul_right d hd
  have hmod := Nat.mod_eq_zero_of_dvd hdvd
  have hdiv := hp.2 d hsmall
  omega

theorem serverPrimes_nodup : serverPrimes.Nodup := nodup_range.filter _

def serverModulus : List UInt8 := toBytes 256 serverPrimes.prod

/-- The product with 65537 is one more than a multiple of the totient. -/
def serverPrivate : List UInt8 :=
  toBytes 256 ((35457 * (serverPrimes.map (· - 1)).prod + 1) / 65537)

theorem ofBytes_serverModulus : ofBytes serverModulus = serverPrimes.prod := by
  rw [serverModulus, ofBytes_toBytes]
  decide +kernel

def serverCertificate : List UInt8 :=
  [0x30, 0x82, 1, 39, 0x30, 0x82, 1, 35, 0x30, 0x82, 1, 31, 0x30, 11, 0x06, 9] ++
    oidRsaEncryption ++ [0x03, 0x82, 1, 14, 0, 0x30, 0x82, 1, 9, 0x02, 0x82, 1, 0] ++
    serverModulus ++ [0x02, 3, 1, 0, 1]

def serverKeypair : Keypair := ⟨serverCertificate, serverModulus, serverPrivate⟩

theorem serverKeypair_mod : serverKeypair.mod = serverModulus := rfl

theorem serverKeypair_priv : serverKeypair.priv = serverPrivate := rfl

theorem serverKeypair_usable : serverKeypair.Usable where
  length := toBytes_length _ _
  top := by decide +kernel
  odd := by
    rw [serverKeypair_mod, ofBytes_serverModulus]
    decide +kernel
  squarefree := by
    rw [serverKeypair_mod, ofBytes_serverModulus]
    exact (prod_primes serverPrimes_prime serverPrimes_nodup).1
  inverse := by
    rw [serverKeypair_mod, serverKeypair_priv, ofBytes_serverModulus]
    refine modEq_one_of_prod serverPrimes_prime serverPrimes_nodup ?_
    decide +kernel
  fits := by
    refine ofBytes_short ?_
    rw [serverKeypair_priv, serverPrivate, toBytes_length]
    decide

theorem serverCertificate_carries : Carries serverCertificate serverModulus rsaExponent where
  integers := by
    have hkey : PublicKey serverCertificate serverModulus rsaExponent := publicKey_iff.mpr
      ⟨[0x02, 0x82, 1, 0] ++ serverModulus ++ [0x02, 3, 1, 0, 1], 260, 265, by decide +kernel⟩
    have hmod : serverModulus.headD 0 ≠ 0 ∧ (serverModulus.headD 0).toNat < 128 := by
      decide +kernel
    exact ⟨_, _, hkey, ⟨⟨rfl, ⟨0, rfl⟩, Or.inr hmod.1⟩, hmod.2⟩,
      ⟨rfl, ⟨0, rfl⟩, Or.inr (by decide)⟩, by decide⟩

end

end Vnu.Tls
