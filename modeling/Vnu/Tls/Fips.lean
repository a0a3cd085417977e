import Mathlib.Data.Nat.Nth
import Mathlib.Data.Nat.NthRoot.Defs
import Mathlib.Data.Nat.Prime.Defs
import Vnu.Lib.Chunks

/-!
SHA-256 as FIPS 180-4 describes it.
-/
namespace Vnu.Tls.Fips

open Lib.Chunks List

abbrev Word := BitVec 32

/-- The first 32 bits of the fractional part of the `k`-th root of `p`. -/
def rootBits (k p : ℕ) : Word := BitVec.ofNat 32 (Nat.nthRoot k (p * 2 ^ (32 * k)))

noncomputable def K (t : ℕ) : Word := rootBits 3 (Nat.nth Nat.Prime t)

def Ch (x y z : Word) : Word := (x &&& y) ^^^ (~~~x &&& z)

def Maj (x y z : Word) : Word := (x &&& y) ^^^ (x &&& z) ^^^ (y &&& z)

def bigSigma0 (x : Word) : Word := x.rotateRight 2 ^^^ x.rotateRight 13 ^^^ x.rotateRight 22

def bigSigma1 (x : Word) : Word := x.rotateRight 6 ^^^ x.rotateRight 11 ^^^ x.rotateRight 25

def smallSigma0 (x : Word) : Word := x.rotateRight 7 ^^^ x.rotateRight 18 ^^^ (x >>> 3)

def smallSigma1 (x : Word) : Word := x.rotateRight 17 ^^^ x.rotateRight 19 ^^^ (x >>> 10)

def W (M : ℕ → Word) (t : ℕ) : Word :=
  if t < 16 then M t
  else smallSigma1 (W M (t - 2)) + W M (t - 7) + smallSigma0 (W M (t - 15)) + W M (t - 16)
termination_by t

structure State where
  a : Word
  b : Word
  c : Word
  d : Word
  e : Word
  f : Word
  g : Word
  h : Word

noncomputable def initial : State :=
  let r (t : ℕ) := rootBits 2 (Nat.nth Nat.Prime t)
  ⟨r 0, r 1, r 2, r 3, r 4, r 5, r 6, r 7⟩

noncomputable def round (M : ℕ → Word) (s : State) (t : ℕ) : State :=
  let t1 := s.h + bigSigma1 s.e + Ch s.e s.f s.g + K t + W M t
  let t2 := bigSigma0 s.a + Maj s.a s.b s.c
  ⟨t1 + t2, s.a, s.b, s.c, s.d + t1, s.e, s.f, s.g⟩

def State.add (s t : State) : State :=
  ⟨s.a + t.a, s.b + t.b, s.c + t.c, s.d + t.d, s.e + t.e, s.f + t.f, s.g + t.g, s.h + t.h⟩

def wordAt (p : List UInt8) (t : ℕ) : Word :=
  (p.getD (4 * t) 0).toBitVec ++ (p.getD (4 * t + 1) 0).toBitVec ++
    (p.getD (4 * t + 2) 0).toBitVec ++ (p.getD (4 * t + 3) 0).toBitVec

noncomputable def compress (s : State) (p : List UInt8) : State :=
  ((range 64).foldl (round (wordAt p)) s).add s

def byteAt {w : ℕ} (n : ℕ) (x : BitVec w) (i : ℕ) : UInt8 :=
  UInt8.ofBitVec (x.extractLsb' (8 * (n - 1 - i)) 8)

def pad (m : List UInt8) : List UInt8 :=
  m ++ [0x80] ++ replicate ((119 - m.length % 64) % 64) 0 ++
    (range 8).map (byteAt 8 (BitVec.ofNat 64 (8 * m.length)))

def State.bytes (s : State) : List UInt8 :=
  [s.a, s.b, s.c, s.d, s.e, s.f, s.g, s.h].flatMap fun x => (range 4).map (byteAt 4 x)

noncomputable def sha256 (m : List UInt8) : List UInt8 :=
  ((blocks 64 (pad m)).foldl compress initial).bytes

end Vnu.Tls.Fips
