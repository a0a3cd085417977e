import Mathlib.Data.List.GetD
import Vnu.Lib.Trie

/-!
The decompressor for PNG data. An access outside the two buffers ends the run as `wild`. Positions
are 32 bits wide, so the end of a stored block is computed modulo `2 ^ 32`.
-/
namespace Vnu.Px

open Lib List

inductive Stop where
  /-- The function returns this number. -/
  | fail (code : ℤ)
  /-- An access outside the buffers. -/
  | wild
  /-- The turns given to a loop are used up. -/
  | running
  deriving DecidableEq, Repr

def wrap32 (n : ℕ) : ℕ := n % 2 ^ 32

structure PxBit where
  pos : ℕ
  bitpos : ℕ
  deriving DecidableEq, Repr

def PxBit.next (b : PxBit) : PxBit :=
  if b.bitpos + 1 = 8 then ⟨b.pos + 1, 0⟩ else ⟨b.pos, b.bitpos + 1⟩

section Reading

variable (src : List UInt8)

def byteAt (i : ℕ) : Except Stop ℕ :=
  match src[i]? with
  | none => .error .wild
  | some byte => .ok byte.toNat

def pbBit (b : PxBit) : Except Stop (Bool × PxBit) :=
  if src.length ≤ b.pos then .error (.fail (-1))
  else do
    let byte ← byteAt src b.pos
    return (byte.testBit b.bitpos, b.next)

def pbLoop : ℕ → ℕ → ℕ → PxBit → Except Stop (ℕ × PxBit)
  | 0, _, v, b => .ok (v, b)
  | n + 1, i, v, b => do
    let (bit, b) ← pbBit src b
    pbLoop n (i + 1) (if bit then v ||| 1 <<< i else v) b

def pbGet (nbits : ℕ) (b : PxBit) : Except Stop (ℕ × PxBit) := pbLoop src nbits 0 0 b

end Reading

def defHnMax : ℕ := 4096

def bump (c : List ℕ) (l : ℕ) : List ℕ := c.set l (c.getD l 0 + 1)

def cnt (lens : List ℕ) : List ℕ :=
  lens.foldl (fun c l => if l = 0 then c else bump c l) (replicate 16 0)

def nextCode (c : List ℕ) : ℕ → ℕ
  | 0 => 0
  | b + 1 => (nextCode c b + c.getD b 0) <<< 1

def nextCodes (c : List ℕ) : List ℕ := (range 16).map (nextCode c)

def defInsert (s c : ℕ) : ℕ → Trie ℕ → ℕ → Option (Trie ℕ × ℕ)
  | 0, t, used =>
    if t.label.isSome then none else some (.node (some s) (t.child false) (t.child true), used)
  | l + 1, t, used =>
    let dir := c.testBit l
    match t.child dir with
    | .nil =>
      if defHnMax ≤ used then none
      else (defInsert s c l (.node none .nil .nil) (used + 1)).map fun r => (t.graft dir r.1, r.2)
    | d => (defInsert s c l d used).map fun r => (t.graft dir r.1, r.2)

def buildLoop : List ℕ → ℕ → List ℕ → Trie ℕ → ℕ → Option (Trie ℕ)
  | [], _, _, t, _ => some t
  | l :: lens, i, next, t, used =>
    if l = 0 then buildLoop lens (i + 1) next t used
    else
      match defInsert i (next.getD l 0) l t used with
      | none => none
      | some (t, used) => buildLoop lens (i + 1) (bump next l) t used

def defBuild (lens : List ℕ) : Except Stop (Trie ℕ) :=
  match buildLoop lens 0 (nextCodes (cnt lens)) (.node none .nil .nil) 1 with
  | none => .error (.fail (-1))
  | some t => .ok t

def huffLoop (src : List UInt8) : ℕ → Trie ℕ → PxBit → Except Stop (ℕ × PxBit)
  | 0, _, _ => .error (.fail (-1))
  | n + 1, t, b => do
    let (bi, b) ← pbGet src 1 b
    match t.child (bi.testBit 0) with
    | .nil => .error (.fail (-1))
    | .node (some s) _ _ => .ok (s, b)
    | .node none zero one => huffLoop src n (.node none zero one) b

def defHuff (src : List UInt8) (t : Trie ℕ) (b : PxBit) : Except Stop (ℕ × PxBit) :=
  huffLoop src 15 t b

def defLbase : List ℕ :=
  [3, 4, 5, 6, 7, 8, 9, 10, 11, 13, 15, 17, 19, 23, 27, 31, 35, 43, 51, 59, 67, 83, 99, 115, 131,
    163, 195, 227, 258]

def defLext : List ℕ :=
  [0, 0, 0, 0, 0, 0, 0, 0, 1, 1, 1, 1, 2, 2, 2, 2, 3, 3, 3, 3, 4, 4, 4, 4, 5, 5, 5, 5, 0]

def defDbase : List ℕ :=
  [1, 2, 3, 4, 5, 7, 9, 13, 17, 25, 33, 49, 65, 97, 129, 193, 257, 385, 513, 769, 1025, 1537, 2049,
    3073, 4097, 6145, 8193, 12289, 16385, 24577]

def defDext : List ℕ :=
  [0, 0, 0, 0, 1, 1, 2, 2, 3, 3, 4, 4, 5, 5, 6, 6, 7, 7, 8, 8, 9, 9, 10, 10, 11, 11, 12, 12, 13, 13]

def defClorder : List ℕ := [16, 17, 18, 0, 8, 7, 9, 6, 10, 5, 11, 4, 12, 3, 13, 2, 14, 1, 15]

def defFixedLit : List ℕ :=
  replicate 144 8 ++ replicate 112 9 ++ replicate 24 7 ++ replicate 8 8

def defFixedDst : List ℕ := replicate 32 5

section Blocks

variable (src : List UInt8)

def readCcode : List ℕ → List ℕ → PxBit → Except Stop (List ℕ × PxBit)
  | [], ccode, b => .ok (ccode, b)
  | s :: order, ccode, b => do
    let (v, b) ← pbGet src 3 b
    readCcode order (ccode.set s v) b

def repeatLen (total v : ℕ) : ℕ → List ℕ → Except Stop (List ℕ)
  | 0, all => .ok all
  | k + 1, all =>
    if total ≤ all.length then .error (.fail (-1)) else repeatLen total v k (all ++ [v])

def repeatField (total v nbits least : ℕ) (all : List ℕ) (b : PxBit) :
    Except Stop (List ℕ × PxBit) := do
  let (rep, b) ← pbGet src nbits b
  let all ← repeatLen total v (rep + least) all
  return (all, b)

def lensTurn (total s : ℕ) (all : List ℕ) (b : PxBit) : Except Stop (List ℕ × PxBit) :=
  if s ≤ 15 then .ok (all ++ [s], b)
  else if s = 16 then
    match all.getLast? with
    | none => .error (.fail (-1))
    | some prv => repeatField src total prv 2 3 all b
  else if s = 17 then repeatField src total 0 3 3 all b
  else repeatField src total 0 7 11 all b

def lensLoop (dcl : Trie ℕ) (total : ℕ) : ℕ → List ℕ → PxBit → Except Stop (List ℕ × PxBit)
  | turns, all, b =>
    if total ≤ all.length then .ok (all, b)
    else
      match turns with
      | 0 => .error .running
      | turns + 1 => do
        let (s, b) ← defHuff src dcl b
        let (all, b) ← lensTurn src total s all b
        lensLoop dcl total turns all b

def readTrees (b : PxBit) : Except Stop (Trie ℕ × Trie ℕ × PxBit) := do
  let (hlit, b) ← pbGet src 5 b
  let (hdist, b) ← pbGet src 5 b
  let (hcl, b) ← pbGet src 4 b
  let nlit := hlit + 257
  let ndist := hdist + 1
  let ncl := hcl + 4
  let (ccode, b) ← readCcode src (defClorder.take ncl) (replicate 19 0) b
  let dcl ← defBuild ccode
  let (all, b) ← lensLoop src dcl (nlit + ndist) (nlit + ndist) [] b
  let dlit ← defBuild (all.take nlit)
  let ddist ← defBuild ((all.drop nlit).take ndist)
  return (dlit, ddist, b)

variable (dcap : ℕ)

def emit (out : List UInt8) (v : UInt8) : Except Stop (List UInt8) :=
  if out.length < dcap then .ok (out ++ [v]) else .error .wild

def copyBack : ℕ → ℕ → List UInt8 → Except Stop (List UInt8)
  | 0, _, out => .ok out
  | k + 1, srcp, out =>
    match out[srcp]? with
    | none => .error .wild
    | some v => do
      let out ← emit dcap out v
      copyBack k (srcp + 1) out

def defMatch (ddist : Trie ℕ) (s : ℕ) (b : PxBit) (out : List UInt8) :
    Except Stop (PxBit × List UInt8) :=
  let sym := s - 257
  if 29 ≤ sym then .error (.fail (-1))
  else do
    let (ext, b) ← pbGet src (defLext.getD sym 0) b
    let len := defLbase.getD sym 0 + ext
    let (dsym, b) ← defHuff src ddist b
    if 30 ≤ dsym then .error (.fail (-1))
    else do
      let (dext, b) ← pbGet src (defDext.getD dsym 0) b
      let dist := defDbase.getD dsym 0 + dext
      if dist = 0 ∨ out.length < dist ∨ dcap - out.length < len then .error (.fail (-1))
      else do
        let out ← copyBack dcap len (out.length - dist) out
        return (b, out)

def codesLoop (dlit ddist : Trie ℕ) : ℕ → PxBit → List UInt8 → Except Stop (PxBit × List UInt8)
  | 0, _, _ => .error .running
  | turns + 1, b, out => do
    let (s, b) ← defHuff src dlit b
    if s = 256 then .ok (b, out)
    else if s < 256 then
      if dcap ≤ out.length then .error (.fail (-2))
      else do
        let out ← emit dcap out (UInt8.ofNat s)
        codesLoop dlit ddist turns b out
    else do
      let (b, out) ← defMatch src dcap ddist s b out
      codesLoop dlit ddist turns b out

def codes (dlit ddist : Trie ℕ) (b : PxBit) (out : List UInt8) : Except Stop (PxBit × List UInt8) :=
  codesLoop src dcap dlit ddist (8 * src.length + 1) b out

def copyStored : ℕ → ℕ → List UInt8 → Except Stop (List UInt8)
  | 0, _, out => .ok out
  | k + 1, i, out => do
    let v ← byteAt src (wrap32 i)
    let out ← emit dcap out (UInt8.ofNat v)
    copyStored k (i + 1) out

def PxBit.aligned (b : PxBit) : ℕ := if b.bitpos = 0 then b.pos else b.pos + 1

def stored (b : PxBit) (out : List UInt8) : Except Stop (PxBit × List UInt8) :=
  let pos := b.aligned
  if src.length < wrap32 (pos + 4) then .error (.fail (-1))
  else do
    let b0 ← byteAt src (wrap32 pos)
    let b1 ← byteAt src (wrap32 (pos + 1))
    let b2 ← byteAt src (wrap32 (pos + 2))
    let b3 ← byteAt src (wrap32 (pos + 3))
    let len := b0 ||| b1 <<< 8
    let nlen := b2 ||| b3 <<< 8
    if len ^^^ 0xFFFF ≠ nlen ∨ dcap - out.length < len then .error (.fail (-1))
    else if src.length < wrap32 (pos + 4 + len) then .error (.fail (-1))
    else do
      let out ← copyStored src dcap len (pos + 4) out
      return (⟨wrap32 (pos + 4 + len), 0⟩, out)

def block (b : PxBit) (out : List UInt8) : Except Stop (Bool × PxBit × List UInt8) :=
  if src.length ≤ b.pos then .error (.fail (-1))
  else do
    let (fin, b) ← pbGet src 1 b
    let (type, b) ← pbGet src 2 b
    if type = 0 then do
      let (b, out) ← stored src dcap b out
      return (fin.testBit 0, b, out)
    else if type = 1 then do
      let dlit ← defBuild defFixedLit
      let ddist ← defBuild defFixedDst
      let (b, out) ← codes src dcap dlit ddist b out
      return (fin.testBit 0, b, out)
    else if type = 2 then do
      let (dlit, ddist, b) ← readTrees src b
      let (b, out) ← codes src dcap dlit ddist b out
      return (fin.testBit 0, b, out)
    else .error (.fail (-1))

def blocksLoop : ℕ → PxBit → List UInt8 → Except Stop (List UInt8)
  | 0, _, _ => .error .running
  | turns + 1, b, out => do
    let (fin, b, out) ← block src dcap b out
    if fin then .ok out else blocksLoop turns b out

end Blocks

/-- What the decompressor has written when it returns 0, for so many turns. -/
def defInflate (turns : ℕ) (src : List UInt8) (dcap : ℕ) : Except Stop (List UInt8) :=
  blocksLoop src dcap turns ⟨0, 0⟩ []

end Vnu.Px
