import Vnu.Px.Inflate

/-!
The PNG decoder: IDAT chunks are collected in a buffer that doubles, decompressed and unfiltered in
place, and each pixel is flattened onto white.
-/
namespace Vnu.Px

open List

def sigPng : List UInt8 := [0x89, 80, 78, 71, 0x0D, 0x0A, 0x1A, 0x0A]

def typeIhdr : ℕ := 0x49484452
def typeIdat : ℕ := 0x49444154
def typePlte : ℕ := 0x504C5445
def typeTrns : ℕ := 0x74524E53
def typeIend : ℕ := 0x49454E44

def rd32be (d : List UInt8) (i : ℕ) : Except Stop ℕ := do
  let b0 ← byteAt d i
  let b1 ← byteAt d (i + 1)
  let b2 ← byteAt d (i + 2)
  let b3 ← byteAt d (i + 3)
  return b0 * 2 ^ 24 + b1 * 2 ^ 16 + b2 * 2 ^ 8 + b3

def readBytes (d : List UInt8) (i count : ℕ) : Except Stop (List UInt8) :=
  if i + count ≤ d.length then .ok ((d.drop i).take count) else .error .wild

def pxPaeth (a b c : UInt8) : UInt8 :=
  let p : ℤ := a.toNat + b.toNat - c.toNat
  let pa := if p - a.toNat < 0 then -(p - a.toNat) else p - a.toNat
  let pb := if p - b.toNat < 0 then -(p - b.toNat) else p - b.toNat
  let pc := if p - c.toNat < 0 then -(p - c.toNat) else p - c.toNat
  if pa ≤ pb ∧ pa ≤ pc then a else if pb ≤ pc then b else c

def pxCompose (fg bg : UInt8) (alpha : ℕ) : UInt8 :=
  UInt8.ofNat ((fg.toNat * alpha + bg.toNat * (255 - alpha) + 127) / 255)

structure PngAux where
  plte : List (List UInt8)
  trns : ℕ → UInt8
  haveTrns : Bool
  idat : List UInt8
  idatCap : ℕ
  gotIdat : Bool

section Decode

-- `mem` says which sizes the allocator serves, and `turns` how many turns each loop may take
variable (mem : ℕ → Bool) (turns : ℕ)

def growCap (need : ℕ) : ℕ → ℕ → Except Stop ℕ
  | 0, _ => .error .running
  | t + 1, ncap => if ncap < need then growCap need t (wrap32 (ncap * 2)) else .ok ncap

def reserve (len : ℕ) (s : PngAux) : Except Stop PngAux :=
  let need := wrap32 (s.idat.length + len)
  if s.idatCap < need then do
    let ncap ← growCap need turns (if s.idatCap = 0 then 1024 else wrap32 (s.idatCap * 2))
    if mem ncap then .ok { s with idatCap := ncap } else .error (.fail (-3))
  else .ok s

-- `data count` reads the first bytes of a chunk's data, of which there are `len`
variable (data : ℕ → Except Stop (List UInt8)) (len : ℕ)

def takeIdat (s : PngAux) : Except Stop PngAux := do
  let s ← reserve mem turns len s
  let bytes ← data len
  if s.idat.length + len ≤ s.idatCap then
    .ok { s with idat := s.idat ++ bytes, gotIdat := true }
  else .error .wild

def takePlte (s : PngAux) : Except Stop PngAux :=
  let cnt := len / 3
  if 256 < cnt then .error (.fail (-3))
  else do
    let bytes ← data (cnt * 3)
    return { s with plte := (range cnt).map fun i => (bytes.drop (i * 3)).take 3 }

/-- The alpha values of a palette; those of the other kinds are read and never used. -/
def takeTrns (ct : ℕ) (s : PngAux) : Except Stop PngAux :=
  if ct = 3 then do
    let bytes ← data (min len 256)
    return { s with
      haveTrns := true
      trns := fun i => if i < min len 256 then bytes.getD i 0 else s.trns i }
  else do
    let _ ← data (if ct = 0 ∧ 2 ≤ len then 2 else if ct = 2 ∧ 6 ≤ len then 3 else 0)
    return { s with haveTrns := true }

def takeChunk (ct type : ℕ) (s : PngAux) : Except Stop PngAux :=
  if type = typeIdat then takeIdat mem turns data len s
  else if type = typePlte then takePlte data len s
  else if type = typeTrns then takeTrns data len ct s
  else .ok s

def chunkLoop (d : List UInt8) (ct : ℕ) : ℕ → ℕ → PngAux → Except Stop PngAux
  | 0, _, _ => .error .running
  | t + 1, pos, s =>
    if d.length < wrap32 (pos + 12) then .error (.fail (-3))
    else do
      let len ← rd32be d pos
      if d.length < wrap32 (pos + 12 + len) then .error (.fail (-3))
      else do
        let type ← rd32be d (pos + 4)
        if type = typeIend then .ok s
        else do
          let s ← takeChunk mem turns (readBytes d (pos + 8)) len ct type s
          let pos := wrap32 (pos + 12 + len)
          if pos = d.length ∧ s.gotIdat then .ok s else chunkLoop d ct t pos s

def unfilterByte (ft f leftv upv ulv : UInt8) : UInt8 :=
  if ft = 0 then f
  else if ft = 1 then f + leftv
  else if ft = 2 then f + upv
  else if ft = 3 then f + UInt8.ofNat ((leftv.toNat + upv.toNat) >>> 1)
  else f + pxPaeth leftv upv ulv

def unfilterAt (rowbytes bpp : ℕ) (y x : ℕ) (raw : List UInt8) : List UInt8 :=
  let stride := 1 + rowbytes
  let line := y * stride + 1
  let up := (y - 1) * stride + 1
  let leftv := if bpp ≤ x then raw.getD (line + (x - bpp)) 0 else 0
  let upv := if y = 0 then 0 else raw.getD (up + x) 0
  let ulv := if y ≠ 0 ∧ bpp ≤ x then raw.getD (up + (x - bpp)) 0 else 0
  raw.set (line + x) (unfilterByte (raw.getD (y * stride) 0) (raw.getD (line + x) 0) leftv upv ulv)

def unfilterRow (rowbytes bpp y : ℕ) (raw : List UInt8) : List UInt8 :=
  (range rowbytes).foldl (fun raw x => unfilterAt rowbytes bpp y x raw) raw

def unfilter (rowbytes bpp : ℕ) : ℕ → ℕ → List UInt8 → Except Stop (List UInt8)
  | 0, _, raw => .ok raw
  | count + 1, y, raw =>
    if 4 < raw.getD (y * (1 + rowbytes)) 0 then .error (.fail (-3))
    else unfilter rowbytes bpp count (y + 1) (unfilterRow rowbytes bpp y raw)

def packed (bits x : ℕ) (row : List UInt8) : ℕ :=
  let ppb := 8 / bits
  ((row.getD (x / ppb) 0).toNat >>> (8 - bits * (x % ppb + 1))) &&& (1 <<< bits - 1)

def palettePixel (s : PngAux) (idx : ℕ) : Except Stop (List UInt8) :=
  if s.plte.length % 256 ≤ idx then .error (.fail (-3))
  else
    let entry := s.plte.getD idx []
    let color := (range 3).map fun c => entry.getD c 0
    if s.haveTrns ∧ s.trns idx ≠ 255 then .ok
      (color.map fun v => pxCompose v 255 (s.trns idx).toNat)
    else .ok color

def pixel (ct bits : ℕ) (s : PngAux) (row : List UInt8) (x : ℕ) : Except Stop (List UInt8) :=
  let at' := fun i => row.getD i 0
  if ct = 0 then
    let v := if 8 ≤ bits then at' (x * (bits / 8))
      else UInt8.ofNat (packed bits x row * 255 / (1 <<< bits - 1))
    .ok [v, v, v]
  else if ct = 2 then .ok [at' (x * 3), at' (x * 3 + 1), at' (x * 3 + 2)]
  else if ct = 4 then
    let c := pxCompose (at' (x * 2)) 255 (at' (x * 2 + 1)).toNat
    .ok [c, c, c]
  else if ct = 6 then
    let a := (at' (x * 4 + 3)).toNat
    .ok [pxCompose (at' (x * 4)) 255 a, pxCompose (at' (x * 4 + 1)) 255 a,
      pxCompose (at' (x * 4 + 2)) 255 a]
  else palettePixel s (packed bits x row)

def pixels (ct bits width height rowbytes : ℕ) (s : PngAux) (raw : List UInt8) :
    Except Stop (List UInt8) := do
  let rows ← (range height).mapM fun y =>
    (range width).mapM fun x => pixel ct bits s (raw.drop (y * (1 + rowbytes) + 1)) x
  return rows.flatten.flatten

structure Ihdr where
  width : ℕ
  height : ℕ
  bits : ℕ
  ct : ℕ
  deriving DecidableEq, Repr

def channels (ct : ℕ) : Option ℕ :=
  if ct = 0 then some 1
  else if ct = 2 then some 3
  else if ct = 3 then some 1
  else if ct = 4 then some 2
  else if ct = 6 then some 4
  else none

def readIhdr (d : List UInt8) : Except Stop (Ihdr × ℕ) :=
  if d.length < 33 ∨ d.take 8 ≠ sigPng then .error (.fail (-1))
  else do
    let len ← rd32be d 8
    let type ← rd32be d 12
    if len ≠ 13 ∨ type ≠ typeIhdr then .error (.fail (-1))
    else do
      let width ← rd32be d 16
      let height ← rd32be d 20
      let bits ← byteAt d 24
      let ct ← byteAt d 25
      let comp ← byteAt d 26
      let filt ← byteAt d 27
      let inter ← byteAt d 28
      if width = 0 ∨ height = 0 ∨ 4096 < width ∨ 4096 < height then .error (.fail (-1))
      else if comp ≠ 0 ∨ filt ≠ 0 ∨ inter ≠ 0 then .error (.fail (-2))
      else
        match channels ct with
        | none => .error (.fail (-2))
        | some ch =>
          if ct = 3 then
            if bits = 1 ∨ bits = 2 ∨ bits = 4 ∨ bits = 8 then .ok (⟨width, height, bits, ct⟩, ch)
            else .error (.fail (-2))
          else if bits ≠ 8 then .error (.fail (-2))
          else .ok (⟨width, height, bits, ct⟩, ch)

def inflateIdat (idat : List UInt8) (expected : ℕ) : Except Stop (List UInt8) :=
  if !mem (expected + 1) then .error (.fail (-3))
  else if idat.length < 4 then .error (.fail (-3))
  else if ((idat.getD 0 0).toNat * 2 ^ 8 + (idat.getD 1 0).toNat) % 31 ≠ 0 ∨
      (idat.getD 1 0) &&& 0x20 ≠ 0 then .error (.fail (-3))
  else
    match defInflate turns (idat.drop 2) (expected + 1) with
    | .ok raw => if raw.length = expected then .ok raw else .error (.fail (-3))
    | .error (.fail _) => .error (.fail (-3))
    | .error e => .error e

/-- `junk` is what stands on the stack where the alpha values of a palette will be. -/
def pxPngDecode (junk : ℕ → UInt8) (d : List UInt8) : Except Stop (ℕ × ℕ × List UInt8) := do
  let (h, ch) ← readIhdr d
  let bitpp := h.bits * ch
  let rowbytes := (h.width * bitpp + 7) / 8
  let expected := h.height * (1 + rowbytes)
  let s ← chunkLoop mem turns d h.ct turns 8 ⟨[], junk, false, [], 0, false⟩
  if !s.gotIdat then .error (.fail (-3))
  else do
    let raw ← inflateIdat mem turns s.idat expected
    let raw ← unfilter rowbytes ((bitpp + 7) / 8) h.height 0 raw
    let rgb ← pixels h.ct h.bits h.width h.height rowbytes s raw
    return (h.width, h.height, rgb)

end Decode

end Vnu.Px
