import Vnu.Lib.Canonical

/-!
The compressed data format of RFC 1951 as a grammar of bits. Which pieces a compressor chooses is
left open, and codes need not be complete.
-/
namespace Vnu.Px.Rfc1951

open Lib.Canonical List

/-- A number of `n` bits, the least significant first. -/
def word (n v : ℕ) : List Bool := (range n).map v.testBit

def octets (data : List UInt8) : List Bool := data.flatMap fun b => word 8 b.toNat

def lengthExtra (c : ℕ) : ℕ := if c < 265 ∨ c = 285 then 0 else (c - 261) / 4

def lengthFrom : ℕ → ℕ
  | 0 => 3
  | k + 1 => lengthFrom k + 2 ^ lengthExtra (257 + k)

def lengthBase (c : ℕ) : ℕ := if c = 285 then 258 else lengthFrom (c - 257)

def distanceExtra (d : ℕ) : ℕ := d / 2 - 1

def distanceBase : ℕ → ℕ
  | 0 => 1
  | d + 1 => distanceBase d + 2 ^ distanceExtra d

def repeated (out : List UInt8) (dist len : ℕ) : List UInt8 :=
  (range len).map fun k => out.getD (out.length - dist + k % dist) 0

/-- The compressed data of a block: the data before it, its bits, and the data after it. -/
inductive Coded (lit dist : List ℕ) : List UInt8 → List Bool → List UInt8 → Prop where
  | done (out : List UInt8) (hcode : len lit 256 ≠ 0) : Coded lit dist out (code lit 256) out
  | literal {out out' : List UInt8} {bits : List Bool} (b : UInt8) (hcode : len lit b.toNat ≠ 0)
      (rest : Coded lit dist (out ++ [b]) bits out') :
      Coded lit dist out (code lit b.toNat ++ bits) out'
  | copy {out out' : List UInt8} {bits : List Bool} (c ext d dext : ℕ) (hc : 257 ≤ c ∧ c ≤ 285)
      (hcode : len lit c ≠ 0) (hext : ext < 2 ^ lengthExtra c) (hd : d < 30)
      (hdcode : len dist d ≠ 0) (hdext : dext < 2 ^ distanceExtra d)
      (hback : distanceBase d + dext ≤ out.length)
      (rest : Coded lit dist
        (out ++ repeated out (distanceBase d + dext) (lengthBase c + ext)) bits out') :
      Coded lit dist out
        (code lit c ++ (word (lengthExtra c) ext ++
          (code dist d ++ (word (distanceExtra d) dext ++ bits)))) out'

def fixedLit : List ℕ :=
  (range 288).map fun s =>
    if s < 144 then 8 else if s < 256 then 9 else if s < 280 then 7 else 8

def fixedDist : List ℕ := replicate 32 5

def clOrder : List ℕ := [16, 17, 18, 0, 8, 7, 9, 6, 10, 5, 11, 4, 12, 3, 13, 2, 14, 1, 15]

def clLens (cl : List ℕ) : List ℕ := (range 19).map fun s => cl.getD (clOrder.idxOf s) 0

inductive Lengths (cl : List ℕ) : List ℕ → List Bool → List ℕ → Prop where
  | done (all : List ℕ) : Lengths cl all [] all
  | single {all all' : List ℕ} {bits : List Bool} (l : ℕ) (hl : l ≤ 15) (hcode : len cl l ≠ 0)
      (rest : Lengths cl (all ++ [l]) bits all') : Lengths cl all (code cl l ++ bits) all'
  | again {all all' : List ℕ} {bits : List Bool} (v ext : ℕ) (hv : all.getLast? = some v)
      (hcode : len cl 16 ≠ 0) (hext : ext < 2 ^ 2)
      (rest : Lengths cl (all ++ replicate (ext + 3) v) bits all') :
      Lengths cl all (code cl 16 ++ (word 2 ext ++ bits)) all'
  | zeros {all all' : List ℕ} {bits : List Bool} (ext : ℕ) (hcode : len cl 17 ≠ 0)
      (hext : ext < 2 ^ 3) (rest : Lengths cl (all ++ replicate (ext + 3) 0) bits all') :
      Lengths cl all (code cl 17 ++ (word 3 ext ++ bits)) all'
  | manyZeros {all all' : List ℕ} {bits : List Bool} (ext : ℕ) (hcode : len cl 18 ≠ 0)
      (hext : ext < 2 ^ 7) (rest : Lengths cl (all ++ replicate (ext + 11) 0) bits all') :
      Lengths cl all (code cl 18 ++ (word 7 ext ++ bits)) all'

structure Header (lit dist cl : List ℕ) (bits : List Bool) : Prop where
  lit_length : 257 ≤ lit.length ∧ lit.length ≤ 288
  dist_length : 1 ≤ dist.length ∧ dist.length ≤ 32
  cl_length : 4 ≤ cl.length ∧ cl.length ≤ 19
  cl_lt : ∀ l ∈ cl, l < 2 ^ 3
  cl_kraft : Kraft (clLens cl) 7
  lengths : Lengths (clLens cl) [] bits (lit ++ dist)
  lit_kraft : Kraft lit 15
  dist_kraft : Kraft dist 15

/-- A block behind its first bit; `pos` is where in the stream its type stands. -/
inductive Block (pos : ℕ) : List UInt8 → List Bool → List UInt8 → Prop where
  | stored (out data : List UInt8) (pad : List Bool) (hpad : pad.length < 8)
      (halign : (pos + 2 + pad.length) % 8 = 0) (hlen : data.length < 2 ^ 16) :
      Block pos out
        (word 2 0 ++ (pad ++ (word 16 data.length ++ (word 16 (2 ^ 16 - 1 - data.length) ++
          octets data)))) (out ++ data)
  | fixed {out out' : List UInt8} {bits : List Bool}
    (data : Coded fixedLit fixedDist out bits out') :
      Block pos out (word 2 1 ++ bits) out'
  | dynamic {out out' : List UInt8} {lens bits : List Bool} (lit dist cl : List ℕ)
      (header : Header lit dist cl lens) (data : Coded lit dist out bits out') :
      Block pos out
        (word 2 2 ++ (word 5 (lit.length - 257) ++ (word 5 (dist.length - 1) ++
          (word 4 (cl.length - 4) ++ (cl.flatMap (word 3) ++ (lens ++ bits)))))) out'

inductive Stream : ℕ → List UInt8 → List Bool → List UInt8 → Prop where
  | last {pos : ℕ} {out out' : List UInt8} {bits : List Bool}
    (block : Block (pos + 1) out bits out') :
      Stream pos out (true :: bits) out'
  | more {pos : ℕ} {out out₁ out' : List UInt8} {bits rest : List Bool}
      (block : Block (pos + 1) out bits out₁)
      (blocks : Stream (pos + 1 + bits.length) out₁ rest out') :
      Stream pos out (false :: (bits ++ rest)) out'

/-- The bytes begin with a stream of the data; whatever follows it is not looked at. -/
def Valid (src data : List UInt8) : Prop :=
  ∃ bits rest, octets src = bits ++ rest ∧ Stream 0 [] bits data

end Vnu.Px.Rfc1951
