import Mathlib.Tactic.NormNum
import Vnu.Lib.Overlay

/-!
SHA-256 of the TLS library, HMAC and the pseudo-random function of TLS 1.2. A state is eight words,
the number of bits seen and up to 63 bytes that do not fill a block yet.
-/
namespace Vnu.Tls

open Lib.Overlay List

def shaK : List UInt32 :=
  [0x428a2f98, 0x71374491, 0xb5c0fbcf, 0xe9b5dba5, 0x3956c25b,
   0x59f111f1, 0x923f82a4, 0xab1c5ed5, 0xd807aa98, 0x12835b01,
   0x243185be, 0x550c7dc3, 0x72be5d74, 0x80deb1fe, 0x9bdc06a7,
   0xc19bf174, 0xe49b69c1, 0xefbe4786, 0x0fc19dc6, 0x240ca1cc,
   0x2de92c6f, 0x4a7484aa, 0x5cb0a9dc, 0x76f988da, 0x983e5152,
   0xa831c66d, 0xb00327c8, 0xbf597fc7, 0xc6e00bf3, 0xd5a79147,
   0x06ca6351, 0x14292967, 0x27b70a85, 0x2e1b2138, 0x4d2c6dfc,
   0x53380d13, 0x650a7354, 0x766a0abb, 0x81c2c92e, 0x92722c85,
   0xa2bfe8a1, 0xa81a664b, 0xc24b8b70, 0xc76c51a3, 0xd192e819,
   0xd6990624, 0xf40e3585, 0x106aa070, 0x19a4c116, 0x1e376c08,
   0x2748774c, 0x34b0bcb5, 0x391c0cb3, 0x4ed8aa4a, 0x5b9cca4f,
   0x682e6ff3, 0x748f82ee, 0x78a5636f, 0x84c87814, 0x8cc70208,
   0x90befffa, 0xa4506ceb, 0xbef9a3f7, 0xc67178f2]

def rotr32 (x n : UInt32) : UInt32 := (x >>> n) ||| (x <<< (32 - n))

def be32Load (p : List UInt8) : UInt32 :=
  ((p.getD 0 0).toUInt32 <<< 24) ||| ((p.getD 1 0).toUInt32 <<< 16) |||
    ((p.getD 2 0).toUInt32 <<< 8) ||| (p.getD 3 0).toUInt32

def be32Store (v : UInt32) : List UInt8 :=
  [(v >>> 24).toUInt8, (v >>> 16).toUInt8, (v >>> 8).toUInt8, v.toUInt8]

/-- The eight words `h[0]` to `h[7]`, and the variables `a` to `h` of a block. -/
structure Words where
  a : UInt32
  b : UInt32
  c : UInt32
  d : UInt32
  e : UInt32
  f : UInt32
  g : UInt32
  h : UInt32
deriving DecidableEq

def Words.add (s t : Words) : Words :=
  ⟨s.a + t.a, s.b + t.b, s.c + t.c, s.d + t.d, s.e + t.e, s.f + t.f, s.g + t.g, s.h + t.h⟩

def scheduleLoop : ℕ → List UInt32 → List UInt32
  | 0, w => w
  | n + 1, w =>
    let i := w.length
    let w15 := w.getD (i - 15) 0
    let w2 := w.getD (i - 2) 0
    let s0 := rotr32 w15 7 ^^^ rotr32 w15 18 ^^^ (w15 >>> 3)
    let s1 := rotr32 w2 17 ^^^ rotr32 w2 19 ^^^ (w2 >>> 10)
    scheduleLoop n (w ++ [w.getD (i - 16) 0 + s0 + w.getD (i - 7) 0 + s1])

def sha256Schedule (p : List UInt8) : List UInt32 :=
  scheduleLoop 48 ((range 16).map fun i => be32Load (p.drop (4 * i)))

def sha256Round (w : List UInt32) (s : Words) (i : ℕ) : Words :=
  let s1 := rotr32 s.e 6 ^^^ rotr32 s.e 11 ^^^ rotr32 s.e 25
  let ch := (s.e &&& s.f) ^^^ (~~~s.e &&& s.g)
  let s0 := rotr32 s.a 2 ^^^ rotr32 s.a 13 ^^^ rotr32 s.a 22
  let maj := (s.a &&& s.b) ^^^ (s.a &&& s.c) ^^^ (s.b &&& s.c)
  let t1 := s.h + s1 + ch + shaK.getD i 0 + w.getD i 0
  let t2 := s0 + maj
  ⟨t1 + t2, s.a, s.b, s.c, s.d + t1, s.e, s.f, s.g⟩

def sha256Block (h : Words) (p : List UInt8) : Words :=
  h.add ((range 64).foldl (sha256Round (sha256Schedule p)) h)

/-- `tls_sha256_ctx`. Between calls the buffer is never full. -/
structure Sha256Ctx where
  h : Words
  bits : UInt64
  buf : List UInt8
  buflen : ℕ
  size : buf.length = 64
  room : buflen < 64

def tlsSha256Init (ctx : Sha256Ctx) : Sha256Ctx :=
  { ctx with
    h := ⟨0x6a09e667, 0xbb67ae85, 0x3c6ef372, 0xa54ff53a, 0x510e527f, 0x9b05688c, 0x1f83d9ab,
      0x5be0cd19⟩
    bits := 0, buflen := 0, room := by decide }

def Sha256Ctx.take (ctx : Sha256Ctx) (m : List UInt8) : ℕ := min (64 - ctx.buflen) m.length

theorem Sha256Ctx.take_le (ctx : Sha256Ctx) (m : List UInt8) :
    (overlay ctx.buf ctx.buflen (m.take (ctx.take m))).length = 64 := by
  rw [overlay_length, ctx.size]
  rw [length_take, ctx.size, Sha256Ctx.take]
  have := ctx.room
  omega

def updateRound (ctx : Sha256Ctx) (m : List UInt8) : Sha256Ctx :=
  let take := ctx.take m
  let buf := overlay ctx.buf ctx.buflen (m.take take)
  if h : ctx.buflen + take = 64 then
    { ctx with
      h := sha256Block ctx.h buf, buf := buf, buflen := 0
      size := ctx.take_le m, room := by decide }
  else
    { ctx with
      buf := buf, buflen := ctx.buflen + take, size := ctx.take_le m
      room := by
        have hroom := ctx.room
        have htake : take = min (64 - ctx.buflen) m.length := rfl
        omega }

def updateLoop : ℕ → Sha256Ctx → List UInt8 → Sha256Ctx
  | 0, ctx, _ => ctx
  | fuel + 1, ctx, m =>
    if m.length = 0 then ctx else updateLoop fuel (updateRound ctx m) (m.drop (ctx.take m))

def tlsSha256Update (ctx : Sha256Ctx) (m : List UInt8) : Sha256Ctx :=
  updateLoop m.length { ctx with bits := ctx.bits + UInt64.ofNat m.length * 8 } m

def lengthBytes (bits : UInt64) : List UInt8 :=
  (range 8).map fun i => (bits >>> (8 * UInt64.ofNat (7 - i))).toUInt8

def zeroCount (buflen : ℕ) : ℕ := ((56 - (UInt32.ofNat buflen + 1)) &&& 63).toNat

def tlsSha256Final (ctx : Sha256Ctx) : List UInt8 :=
  let pad : List UInt8 := 0x80 :: replicate 63 0
  let ctx' := tlsSha256Update ctx (pad.take (zeroCount ctx.buflen + 1))
  let h := (tlsSha256Update ctx' (lengthBytes ctx.bits)).h
  [h.a, h.b, h.c, h.d, h.e, h.f, h.g, h.h].flatMap be32Store

def blankCtx : Sha256Ctx :=
  ⟨⟨0, 0, 0, 0, 0, 0, 0, 0⟩, 0, replicate 64 0, 0, rfl, Nat.succ_pos 63⟩

def sha256Of (chunks : List (List UInt8)) : List UInt8 :=
  tlsSha256Final (chunks.foldl tlsSha256Update (tlsSha256Init blankCtx))

def hmacKey (key : List UInt8) : List UInt8 :=
  let k := if key.length > 64 then sha256Of [key] else key
  k ++ replicate (64 - k.length) 0

def tlsHmacSha256 (key msg : List UInt8) : List UInt8 :=
  let k := hmacKey key
  let inner := sha256Of [k.map (· ^^^ 0x36), msg]
  sha256Of [k.map (· ^^^ 0x5c), inner]

def prfLoop (secret seed : List UInt8) : ℕ → List UInt8 → ℕ → List UInt8
  | 0, _, _ => []
  | fuel + 1, a, left =>
    if left = 0 then []
    else
      let n := min left 32
      (tlsHmacSha256 secret (a ++ seed)).take n ++
        prfLoop secret seed fuel (tlsHmacSha256 secret a) (left - n)

def tlsPrf (secret seed : List UInt8) (outLen : ℕ) : List UInt8 :=
  if seed.length > 128 then []
  else prfLoop secret seed outLen (tlsHmacSha256 secret seed) outLen

theorem sha256Of_length (chunks : List (List UInt8)) : (sha256Of chunks).length = 32 := rfl

theorem prfLoop_length (secret seed : List UInt8) (fuel : ℕ) (a : List UInt8) (left : ℕ)
    (hfuel : left ≤ fuel) : (prfLoop secret seed fuel a left).length = left := by
  induction fuel generalizing a left with
  | zero => exact (Nat.le_zero.mp hfuel).symm
  | succ fuel ih =>
    rw [prfLoop]
    split_ifs with hzero
    · exact hzero.symm
    · have hmac : (tlsHmacSha256 secret (a ++ seed)).length = 32 := sha256Of_length _
      rw [length_append, length_take, ih _ _ (by omega)]
      omega

theorem tlsPrf_length (secret seed : List UInt8) (n : ℕ) (hseed : seed.length ≤ 128) :
    (tlsPrf secret seed n).length = n := by
  rw [tlsPrf, if_neg (by omega), prfLoop_length _ _ _ _ _ le_rfl]

end Vnu.Tls
