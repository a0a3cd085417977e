import Mathlib.Data.List.Range
import Mathlib.Tactic.NormNum
import Vnu.Lib.Heap

/-!
AES-128-GCM of the TLS library. The buffers of the caller are places of a heap, so that they can
overlap. Decryption of a block is not used by counter mode and is left out.
-/
namespace Vnu.Tls

open Lib List

abbrev Block := List UInt8

def sbox : List UInt8 :=
  [0x63, 0x7c, 0x77, 0x7b, 0xf2, 0x6b, 0x6f, 0xc5, 0x30, 0x01, 0x67, 0x2b,
   0xfe, 0xd7, 0xab, 0x76, 0xca, 0x82, 0xc9, 0x7d, 0xfa, 0x59, 0x47, 0xf0,
   0xad, 0xd4, 0xa2, 0xaf, 0x9c, 0xa4, 0x72, 0xc0, 0xb7, 0xfd, 0x93, 0x26,
   0x36, 0x3f, 0xf7, 0xcc, 0x34, 0xa5, 0xe5, 0xf1, 0x71, 0xd8, 0x31, 0x15,
   0x04, 0xc7, 0x23, 0xc3, 0x18, 0x96, 0x05, 0x9a, 0x07, 0x12, 0x80, 0xe2,
   0xeb, 0x27, 0xb2, 0x75, 0x09, 0x83, 0x2c, 0x1a, 0x1b, 0x6e, 0x5a, 0xa0,
   0x52, 0x3b, 0xd6, 0xb3, 0x29, 0xe3, 0x2f, 0x84, 0x53, 0xd1, 0x00, 0xed,
   0x20, 0xfc, 0xb1, 0x5b, 0x6a, 0xcb, 0xbe, 0x39, 0x4a, 0x4c, 0x58, 0xcf,
   0xd0, 0xef, 0xaa, 0xfb, 0x43, 0x4d, 0x33, 0x85, 0x45, 0xf9, 0x02, 0x7f,
   0x50, 0x3c, 0x9f, 0xa8, 0x51, 0xa3, 0x40, 0x8f, 0x92, 0x9d, 0x38, 0xf5,
   0xbc, 0xb6, 0xda, 0x21, 0x10, 0xff, 0xf3, 0xd2, 0xcd, 0x0c, 0x13, 0xec,
   0x5f, 0x97, 0x44, 0x17, 0xc4, 0xa7, 0x7e, 0x3d, 0x64, 0x5d, 0x19, 0x73,
   0x60, 0x81, 0x4f, 0xdc, 0x22, 0x2a, 0x90, 0x88, 0x46, 0xee, 0xb8, 0x14,
   0xde, 0x5e, 0x0b, 0xdb, 0xe0, 0x32, 0x3a, 0x0a, 0x49, 0x06, 0x24, 0x5c,
   0xc2, 0xd3, 0xac, 0x62, 0x91, 0x95, 0xe4, 0x79, 0xe7, 0xc8, 0x37, 0x6d,
   0x8d, 0xd5, 0x4e, 0xa9, 0x6c, 0x56, 0xf4, 0xea, 0x65, 0x7a, 0xae, 0x08,
   0xba, 0x78, 0x25, 0x2e, 0x1c, 0xa6, 0xb4, 0xc6, 0xe8, 0xdd, 0x74, 0x1f,
   0x4b, 0xbd, 0x8b, 0x8a, 0x70, 0x3e, 0xb5, 0x66, 0x48, 0x03, 0xf6, 0x0e,
   0x61, 0x35, 0x57, 0xb9, 0x86, 0xc1, 0x1d, 0x9e, 0xe1, 0xf8, 0x98, 0x11,
   0x69, 0xd9, 0x8e, 0x94, 0x9b, 0x1e, 0x87, 0xe9, 0xce, 0x55, 0x28, 0xdf,
   0x8c, 0xa1, 0x89, 0x0d, 0xbf, 0xe6, 0x42, 0x68, 0x41, 0x99, 0x2d, 0x0f,
   0xb0, 0x54, 0xbb, 0x16]

def rcon : List UInt8 :=
  [0x00, 0x01, 0x02, 0x04, 0x08, 0x10, 0x20, 0x40, 0x80, 0x1b, 0x36]

def xtime (v : UInt32) : UInt32 := (v <<< 1) ^^^ (if (v >>> 7) &&& 1 ≠ 0 then 0x1b else 0)

def gm2 (b : UInt8) : UInt8 := (xtime b.toUInt32).toUInt8

def gm3 (b : UInt8) : UInt8 := gm2 b ^^^ b

def aesAddroundkey (s rk : Block) : Block := zipWith (· ^^^ ·) s rk

def aesSubbytes (s : Block) : Block := s.map fun b => sbox.getD b.toNat 0

def aesShiftrows (s : Block) : Block :=
  [0, 5, 10, 15, 4, 9, 14, 3, 8, 13, 2, 7, 12, 1, 6, 11].map fun i => s.getD i 0

def mixColumn (a0 a1 a2 a3 : UInt8) : List UInt8 :=
  [gm2 a0 ^^^ gm3 a1 ^^^ a2 ^^^ a3, a0 ^^^ gm2 a1 ^^^ gm3 a2 ^^^ a3,
   a0 ^^^ a1 ^^^ gm2 a2 ^^^ gm3 a3, gm3 a0 ^^^ a1 ^^^ a2 ^^^ gm2 a3]

def aesMixcolumns (s : Block) : Block :=
  (range 4).flatMap fun c =>
    mixColumn (s.getD (4 * c) 0) (s.getD (4 * c + 1) 0) (s.getD (4 * c + 2) 0)
      (s.getD (4 * c + 3) 0)

def nextKey (i : ℕ) (rk : Block) : Block :=
  let box (j : ℕ) : UInt8 := sbox.getD (rk.getD j 0).toNat 0
  let w0 := [box 13 ^^^ rcon.getD i 0 ^^^ rk.getD 0 0, box 14 ^^^ rk.getD 1 0,
    box 15 ^^^ rk.getD 2 0, box 12 ^^^ rk.getD 3 0]
  let w1 := zipWith (· ^^^ ·) w0 ((rk.drop 4).take 4)
  let w2 := zipWith (· ^^^ ·) w1 ((rk.drop 8).take 4)
  let w3 := zipWith (· ^^^ ·) w2 ((rk.drop 12).take 4)
  w0 ++ w1 ++ w2 ++ w3

def setkeyLoop : ℕ → ℕ → Block → List Block
  | 0, _, rk => [rk]
  | n + 1, i, rk => rk :: setkeyLoop n (i + 1) (nextKey i rk)

abbrev Aes128 := List Block

def tlsAes128Setkey (key : Block) : Aes128 := setkeyLoop 10 1 key

def aesRound (s rk : Block) : Block :=
  aesAddroundkey (aesMixcolumns (aesShiftrows (aesSubbytes s))) rk

def tlsAes128Enc (a : Aes128) (inp : Block) : Block :=
  let s := (range 9).foldl (fun s r => aesRound s (a.getD (r + 1) []))
    (aesAddroundkey inp (a.getD 0 []))
  aesAddroundkey (aesShiftrows (aesSubbytes s)) (a.getD 10 [])

def inc32Loop : ℕ → ℕ → Block → Block
  | 0, _, ctr => ctr
  | n + 1, i, ctr =>
    let b := ctr.getD (15 - i) 0 + 1
    if b ≠ 0 then ctr.set (15 - i) b else inc32Loop n (i + 1) (ctr.set (15 - i) b)

def gcmInc32 (ctr : Block) : Block := inc32Loop 4 0 ctr

def revByte (v : UInt8) : UInt8 :=
  let v := ((v &&& 0x0f) <<< 4) ||| ((v &&& 0xf0) >>> 4)
  let v := ((v &&& 0x33) <<< 2) ||| ((v &&& 0xcc) >>> 2)
  ((v &&& 0x55) <<< 1) ||| ((v &&& 0xaa) >>> 1)

def gcmRev128 (inp : Block) : Block := (range 16).map fun i => revByte (inp.getD (15 - i) 0)

def gfXor (z x : Block) : Block := zipWith (· ^^^ ·) z x

def gfTimesX (v : Block) : Block :=
  let w := (range 15).map (fun j => (v.getD j 0 <<< 1) ||| (v.getD (j + 1) 0 >>> 7)) ++
    [v.getD 15 0 <<< 1]
  if v.getD 0 0 >>> 7 ≠ 0 then w.set 15 (w.getD 15 0 ^^^ 0x87) else w

def ghashLoop (x : Block) : ℕ → ℕ → Block → Block → Block
  | 0, _, _, z => z
  | n + 1, bit, v, z =>
    let xb := (x.getD (15 - bit / 8) 0 >>> UInt8.ofNat (bit % 8)) &&& 1
    ghashLoop x n (bit + 1) (gfTimesX v) (if xb ≠ 0 then gfXor z v else z)

def ghashAbsorb (acc block H : Block) : Block :=
  ghashLoop (gfXor acc (gcmRev128 block)) 128 0 H (replicate 16 0)

def xorBytes (h : Heap) (inp out : Ptr) : List UInt8 → Heap
  | [] => h
  | k :: ks => xorBytes (h.store out (h.bytes inp ^^^ k)) (inp.add 1) (out.add 1) ks

def gctrLoop (a : Aes128) (inp out : Ptr) (len : ℕ) : ℕ → ℕ → Heap → Block → Heap × Block
  | 0, _, h, ctr => (h, ctr)
  | fuel + 1, off, h, ctr =>
    if off < len then
      let e := tlsAes128Enc a ctr
      let n := min (len - off) 16
      gctrLoop a inp out len fuel (off + n)
        (xorBytes h (inp.add off) (out.add off) ((range n).map fun i => e.getD i 0))
        (gcmInc32 ctr)
    else (h, ctr)

def gcmGctr (a : Aes128) (ctr : Block) (h : Heap) (inp out : Ptr) (len : ℕ) : Heap × Block :=
  gctrLoop a inp out len len 0 h ctr

def absorbLoop (bs : List UInt8) (H : Block) : ℕ → ℕ → Block → Block
  | 0, _, S => S
  | fuel + 1, off, S =>
    if off < bs.length then
      let n := min (bs.length - off) 16
      absorbLoop bs H fuel (off + n)
        (ghashAbsorb S ((bs.drop off).take n ++ replicate (16 - n) 0) H)
    else S

def gcmLength (n : ℕ) : List UInt8 :=
  (range 8).map fun i => ((UInt64.ofNat n * 8) >>> (8 * UInt64.ofNat (7 - i))).toUInt8

/-- `aad` and `ct` are what the buffers hold when the function is called. -/
def gcmHashFinal (aad ct : List UInt8) (H S : Block) : Block :=
  let Hf := gcmRev128 H
  let S := absorbLoop aad Hf aad.length 0 S
  let S := absorbLoop ct Hf ct.length 0 S
  gcmRev128 (ghashAbsorb S (gcmLength aad.length ++ gcmLength ct.length) Hf)

def tagHeap (S : Block) : Heap := ⟨fun p => if p.obj = 0 then S.getD p.off 0 else 0, []⟩

def tagBytes (a : Aes128) (J0 S : Block) : Block :=
  (gcmGctr a J0 (tagHeap S) ⟨0, 0⟩ ⟨1, 0⟩ 16).1.load ⟨1, 0⟩ 16

def gcmJ0 (nonce : List UInt8) : Block := nonce ++ [0, 0, 0, 1]

def tlsGcmSeal (h : Heap) (key nonce aad : Ptr) (aadlen : ℕ) (pt : Ptr) (ptlen : ℕ) (ct : Ptr) :
    Heap :=
  let a := tlsAes128Setkey (h.load key 16)
  let H := tlsAes128Enc a (replicate 16 0)
  let J0 := gcmJ0 (h.load nonce 12)
  let h₁ := (gcmGctr a (gcmInc32 J0) h pt ct ptlen).1
  let S := gcmHashFinal (h₁.load aad aadlen) (h₁.load ct ptlen) H (replicate 16 0)
  h₁.write (ct.add ptlen) (tagBytes a J0 S)

def storeTag (h : Heap) (T : Block) : Option Ptr → Heap
  | some tag => h.write tag T
  | none => h

def tagDiff (h : Heap) (T : Block) (p : Ptr) : UInt8 :=
  (range 16).foldl (fun bad i => bad ||| (T.getD i 0 ^^^ h.bytes (p.add i))) 0

def tlsGcmOpen (h : Heap) (key nonce aad : Ptr) (aadlen : ℕ) (ct : Ptr) (ctlen : ℕ) (pt : Ptr)
    (tag : Option Ptr) : Bool × Heap :=
  if ctlen < 16 then (false, h)
  else
    let ptlen := ctlen - 16
    let a := tlsAes128Setkey (h.load key 16)
    let H := tlsAes128Enc a (replicate 16 0)
    let J0 := gcmJ0 (h.load nonce 12)
    let h₁ := (gcmGctr a (gcmInc32 J0) h ct pt ptlen).1
    let S := gcmHashFinal (h₁.load aad aadlen) (h₁.load ct ptlen) H (replicate 16 0)
    let T := tagBytes a J0 S
    let h₂ := storeTag h₁ T tag
    if tagDiff h₂ T (ct.add ptlen) ≠ 0 then (false, h₂.write pt (replicate ptlen 0)) else (true, h₂)

end Vnu.Tls
