import Mathlib.Data.List.Range
import Mathlib.Tactic.NormNum

/-!
Numbers of up to 128 limbs and modular exponentiation. Where a loop works on a window that moves up
by one limb, the limbs below it are final.
-/
namespace Vnu.Tls

open List

abbrev Limbs := List UInt32

def bnLimbs : ℕ := 128

def orByte (n : ℕ) (a : Limbs) (left : UInt32) (b : UInt8) : Limbs :=
  let pos := left * 8
  let limb := (pos >>> 5).toNat
  let shift := pos &&& 31
  if limb < n then a.modify limb fun w => w ||| (b.toUInt32 <<< shift) else a

def fromBytesLoop (n : ℕ) : List UInt8 → Limbs → Limbs
  | [], a => a
  | b :: bs, a => fromBytesLoop n bs (orByte n a (UInt32.ofNat bs.length) b)

def bnFromBytes (n : ℕ) (b : List UInt8) : Limbs := fromBytesLoop n b (replicate n 0)

def bnToBytes (a : Limbs) (n : ℕ) : List UInt8 :=
  (range n).map fun i =>
    let pos := (n - 1 - i) * 8
    let limb := pos / 32
    let shift := UInt32.ofNat (pos % 32)
    if limb < a.length then (a.getD limb 0 >>> shift).toUInt8 else 0

def bnUsed (a : Limbs) : ℕ → ℕ
  | 0 => 0
  | n + 1 => if a.getD n 0 = 0 then bnUsed a n else n + 1

def bnCmp (a b : Limbs) : ℕ → Ordering
  | 0 => .eq
  | n + 1 =>
    if a.getD n 0 ≠ b.getD n 0 then (if a.getD n 0 > b.getD n 0 then .gt else .lt)
    else bnCmp a b n

def subLoop : Limbs → Limbs → UInt64 → Limbs
  | a :: as, b :: bs, borrow =>
    let sub := b.toUInt64 + borrow
    (a.toUInt64 - sub).toUInt32 :: subLoop as bs (if a.toUInt64 < sub then 1 else 0)
  | as, _, _ => as

def bnSub (a b : Limbs) (n : ℕ) : Limbs := subLoop a (b.take n) 0

def bitlenLoop : ℕ → UInt32 → ℕ → ℕ
  | 0, _, bits => bits
  | fuel + 1, v, bits =>
    if v &&& 0x80000000 = 0 then bitlenLoop fuel (v <<< 1) (bits - 1) else bits

def bnBitlen (a : Limbs) (n : ℕ) : ℕ :=
  let top := bnUsed a n
  if top = 0 then 0 else bitlenLoop 31 (a.getD (top - 1) 0) (top * 32)

def bnGetbit (a : Limbs) (bit : ℕ) : UInt32 :=
  (a.getD (bit / 32) 0 >>> UInt32.ofNat (bit % 32)) &&& 1

def addCarry : Limbs → UInt64 → Limbs
  | [], _ => []
  | t :: ts, carry =>
    if carry = 0 then t :: ts
    else
      let cur := t.toUInt64 + carry
      cur.toUInt32 :: addCarry ts (cur >>> 32)

def addMul (x : UInt32) : Limbs → Limbs → UInt64 → Limbs
  | b :: bs, t :: ts, carry =>
    let cur := x.toUInt64 * b.toUInt64 + t.toUInt64 + carry
    cur.toUInt32 :: addMul x bs ts (cur >>> 32)
  | _, ts, carry => addCarry ts carry

def mulLoop : Limbs → Limbs → Limbs → Limbs
  | [], _, prod => prod
  | a :: as, b, prod =>
    let row := if a = 0 then prod else addMul a b prod 0
    row.take 1 ++ mulLoop as b row.tail

def bnMul (a b : Limbs) : Limbs := mulLoop a b (replicate (a.length + b.length + 1) 0)

/-- `bn_mul` in the array `prod`, where a carry runs on as far as it goes. -/
def bnMulIn (prod a b : Limbs) : Limbs :=
  mulLoop a b (replicate (a.length + b.length + 1) 0 ++ prod.drop (a.length + b.length + 1))

def shiftIn : Limbs → UInt32 → Limbs
  | [], _ => []
  | r :: rs, carry => ((r <<< 1) ||| carry) :: shiftIn rs (r >>> 31)

def modLoop (x m : Limbs) (mlimbs : ℕ) : ℕ → Limbs → Limbs
  | 0, rem => rem
  | bit + 1, rem =>
    let rem := shiftIn (rem.take (mlimbs + 1)) (bnGetbit x bit) ++ rem.drop (mlimbs + 1)
    modLoop x m mlimbs bit
      (if bnCmp rem m (mlimbs + 1) ≠ .lt then bnSub rem m (mlimbs + 1) else rem)

def bnMod (x : Limbs) (xlimbs : ℕ) (m : Limbs) (mlimbs : ℕ) : Limbs :=
  let used := bnUsed x xlimbs
  if used ≤ mlimbs ∧ bnCmp x m mlimbs = .lt then
    x.take (min used mlimbs) ++ replicate (bnLimbs + 1 - min used mlimbs) 0
  else modLoop x m mlimbs (bnBitlen x xlimbs) (replicate (bnLimbs + 1) 0)

def mprimeStep (m0 x : UInt32) : UInt32 := x * (2 - m0 * x)

def bnMprime (m0 : UInt32) : UInt32 := 0 - (mprimeStep m0)^[5] 1

def montLoop (m : Limbs) (nprime : UInt32) : ℕ → Limbs → Limbs
  | 0, t => t
  | n + 1, t => montLoop m nprime n (addMul (t.headD 0 * nprime) m t 0).tail

def bnMontMul (a b m : Limbs) (nprime : UInt32) : Limbs :=
  let t := montLoop m nprime m.length (bnMul a b)
  let ql := t.getD m.length 0
  let q := t.take m.length
  if ql = 1 ∨ bnCmp q m m.length ≠ .lt then bnSub q m m.length else q

/-- `bn_mont_mul` in the array `t`. Its own carries stop at limb `2 * n`; the low limbs take the
copy of the ones above them. -/
def bnMontMulIn (t a b m : Limbs) (nprime : UInt32) : Limbs :=
  let n := m.length
  let t := bnMulIn t a b
  let high := montLoop m nprime n (t.take (2 * n + 1))
  let ql := high.getD n 0
  let q := high.take n
  (if ql = 1 ∨ bnCmp q m n ≠ .lt then bnSub q m n else q) ++ high ++ t.drop (2 * n + 1)

def powLoop (e ar m : Limbs) (nprime : UInt32) : ℕ → Limbs → Limbs
  | 0, r => r
  | bi + 1, r =>
    let r := bnMontMul r r m nprime
    powLoop e ar m nprime bi (if bnGetbit e bi ≠ 0 then bnMontMul r ar m nprime else r)

/-- The base, reduced in the limbs of the modulus; `junk` is the limb that is not set. -/
def modpowBase (junk : UInt32) (m : Limbs) (n : ℕ) (base : List UInt8) : Limbs :=
  let b := bnFromBytes bnLimbs base
  if bnCmp b m n ≠ .lt then (bnMod b bnLimbs (m ++ [junk]) n).take bnLimbs else b

def modpowR2 (junk : UInt32) (m : Limbs) (n : ℕ) : Limbs :=
  let xr := (replicate (2 * bnLimbs + 2) 0).set (2 * n) 1
  bnMod xr (2 * n + 1) (m ++ [junk]) n

def modpowMont (b r2 e m : Limbs) : Limbs :=
  let nprime := bnMprime (m.getD 0 0)
  let one := (1 :: replicate (bnLimbs - 1) 0).take m.length
  let ar := bnMontMul b r2 m nprime
  let r := bnMontMul one r2 m nprime
  let r := powLoop e ar m nprime (bnBitlen e bnLimbs) r
  bnMontMul r one m nprime

def tlsModpow (junk : UInt32) (base exp mod : List UInt8) : List UInt8 :=
  let mod := mod.take 512
  let m := bnFromBytes bnLimbs mod
  let n := bnUsed m bnLimbs
  if n = 0 ∨ m.getD 0 0 &&& 1 = 0 then replicate mod.length 0
  else
    let e := bnFromBytes bnLimbs exp
    let b := modpowBase junk m n base
    let r2 := modpowR2 junk m n
    bnToBytes (modpowMont (b.take n) (r2.take n) e (m.take n)) mod.length

end Vnu.Tls
