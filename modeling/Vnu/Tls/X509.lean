import Mathlib.Data.List.Basic
import Mathlib.Tactic.NormNum

/-!
The DER parser that takes the RSA key out of a certificate. Pointers into the certificate
are lists of the bytes they point at.
-/
namespace Vnu.Tls

open Option

variable {v der : List UInt8} {modCap expCap : ℕ}

/-- `struct der`, without the header length, which nothing reads. -/
structure Der where
  tag : UInt8
  value : List UInt8
deriving DecidableEq

def derValue (b : List UInt8) (tag : UInt8) (i l : ℕ) : Option (Der × ℕ) :=
  if l > b.length - i then none else some (⟨tag, (b.drop i).take l⟩, i + l)

def derNext (b : List UInt8) (off : ℕ) : Option (Der × ℕ) :=
  if off ≥ b.length then none
  else
    let tag := b.getD off 0
    if tag &&& 0x1f = 0x1f then none
    else if off + 1 ≥ b.length then none
    else
      let l1 := b.getD (off + 1) 0
      let i := off + 2
      if l1 &&& 0x80 ≠ 0 then
        let nb := (l1 &&& 0x7f).toNat
        if nb = 0 ∨ nb > 4 ∨ i + nb > b.length then none
        else
          derValue b tag (i + nb) (((b.drop i).take nb).foldl (fun l c => l * 256 + c.toNat) 0)
      else derValue b tag i l1.toNat

def oidRsaEncryption : List UInt8 := [0x2a, 0x86, 0x48, 0x86, 0xf7, 0x0d, 0x01, 0x01, 0x01]

def oidEq (d : Der) (oid : List UInt8) : Bool := d.tag = 0x06 ∧ d.value = oid

def stripZeros : List UInt8 → List UInt8
  | a :: b :: bs => if a = 0 then stripZeros (b :: bs) else a :: b :: bs
  | bs => bs

def intValue (v : List UInt8) : List UInt8 :=
  stripZeros (if v.headD 0 &&& 0x80 ≠ 0 then v.tail else v)

def intBytes (d : Der) (outlen : ℕ) : Option (List UInt8) :=
  if d.tag ≠ 0x02 ∨ d.value.length = 0 then none
  else if (intValue d.value).length = 0 ∨ (intValue d.value).length > outlen then none
  else some (intValue d.value)

def bitStringKey (child : List UInt8) (ao : ℕ) : Option (List UInt8) := do
  let (bitstr, _) ← derNext child ao
  if bitstr.tag ≠ 0x03 then none
  if bitstr.value.length < 1 ∨ bitstr.value.headD 0 ≠ 0x00 then none
  let (key, _) ← derNext bitstr.value 1
  if key.tag ≠ 0x30 then none
  some key.value

def rsaAlgorithm (child : Der) : Option ℕ := do
  if child.tag ≠ 0x30 then none
  let (alg, ao) ← derNext child.value 0
  if alg.tag ≠ 0x30 then none
  let (oid, _) ← derNext alg.value 0
  if oidEq oid oidRsaEncryption then some ao else none

def findKey (tbs : List UInt8) : ℕ → ℕ → Option (List UInt8)
  | 0, _ => none
  | fuel + 1, off =>
    match derNext tbs off with
    | none => none
    | some (child, off') =>
      match rsaAlgorithm child with
      | none => findKey tbs fuel off'
      | some ao => bitStringKey child.value ao

def certificateKey (der : List UInt8) : Option (List UInt8) := do
  let (cert, _) ← derNext der 0
  if cert.tag ≠ 0x30 then none
  let (tbs, _) ← derNext cert.value 0
  if tbs.tag ≠ 0x30 then none
  findKey tbs.value tbs.value.length 0

structure Pubkey where
  mod : Option (List UInt8)
  exp : Option (List UInt8)
deriving DecidableEq

def tlsX509RsaPubkey (der : List UInt8) (modCap expCap : ℕ) : Pubkey :=
  match certificateKey der with
  | none => ⟨none, none⟩
  | some key =>
    match derNext key 0 with
    | none => ⟨none, none⟩
    | some (ki, ko) =>
      match intBytes ki modCap with
      | none => ⟨none, none⟩
      | some mod => ⟨some mod, (derNext key ko).bind fun e => intBytes e.1 expCap⟩

theorem intBytes_length {d : Der} {cap : ℕ} (h : intBytes d cap = some v) : v.length ≤ cap := by
  rw [intBytes] at h
  split_ifs at h with _ hlen
  rw [← some.inj h]
  omega

theorem tlsX509RsaPubkey_mod
    (h : (tlsX509RsaPubkey der modCap expCap).mod = some v) : v.length ≤ modCap := by
  rw [tlsX509RsaPubkey] at h
  split at h
  · cases h
  split at h
  · cases h
  split at h
  · cases h
  · rename_i hmod
    rw [← some.inj h]
    exact intBytes_length hmod

theorem tlsX509RsaPubkey_exp
    (h : (tlsX509RsaPubkey der modCap expCap).exp = some v) : v.length ≤ expCap := by
  rw [tlsX509RsaPubkey] at h
  split at h
  · cases h
  split at h
  · cases h
  · split at h
    · cases h
    · obtain ⟨e, _, hexp⟩ := bind_eq_some_iff.mp h
      exact intBytes_length hexp

end Vnu.Tls
