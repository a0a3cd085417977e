import Vnu.Fat16.Scan

/-!
Building new directory entries: the 8.3 form of a name, the mangled form, and the long-name slots in
front of it.
-/
namespace Vnu.Fat16

def sfnCharOk (c : UInt8) : Bool :=
  0x20 ≤ c && c < 0x80 &&
    !([0x20, 0x22, 0x2A, 0x2B, 0x2C, 0x2F, 0x3A, 0x3B, 0x3C, 0x3D, 0x3E, 0x3F, 0x5B, 0x5C, 0x5D,
      0x7C] : List UInt8).contains c

structure Short where
  base : List UInt8
  ext : List UInt8
  nt : UInt8
  /-- Representable as 8.3 at all. -/
  fits : Bool
  /-- One case per part, so the NT bits are enough. -/
  uniform : Bool

def lastDot : List UInt8 → Option ℕ
  | [] => none
  | c :: cs =>
    match lastDot cs with
    | some i => some (i + 1)
    | none => if c = 0x2E then some 0 else none

def splitName (name : List UInt8) : List UInt8 × List UInt8 :=
  match lastDot name with
  | none => (name, [])
  | some dot => (name.take dot, name.drop (dot + 1))

def shortPart (width : ℕ) (cs : List UInt8) : List UInt8 :=
  ((cs.map fun c => upper (if sfnCharOk c then c else 0x5F)).take width).rightpad width 0x20

def partFits (width : ℕ) (cs : List UInt8) : Bool := cs.all sfnCharOk && cs.length ≤ width

def onlyLower (cs : List UInt8) : Bool := cs.any isLower && !cs.any isUpper

def mixedCase (cs : List UInt8) : Bool := cs.any isLower && cs.any isUpper

def buildShort (name : List UInt8) : Short :=
  let (base, ext) := splitName name
  { base := shortPart 8 base
    ext := shortPart 3 ext
    nt := (if onlyLower base then 0x08 else 0) ||| (if onlyLower ext then 0x10 else 0)
    fits := partFits 8 base && base != [] && partFits 3 ext
    uniform := !mixedCase base && !mixedCase ext }

def isNative (name : List UInt8) : Bool := (buildShort name).fits && (buildShort name).uniform

def decimal : ℕ → ℕ → List UInt8
  | 0, _ => []
  | fuel + 1, m =>
    (if m / 10 = 0 then [] else decimal fuel (m / 10)) ++ [UInt8.ofNat (48 + m % 10)]

def candidate (s : Short) (n : ℕ) : List UInt8 :=
  let tail := 0x7E :: decimal 7 n
  let keep := max 1 (8 - tail.length)
  let stem := (s.base.takeWhile fun c => c != 0x20).take keep
  let stem := if stem = [] then [0x46] else stem
  ((stem ++ tail).take 8).rightpad 8 0x20 ++ s.ext

def uniqueLoop (fs : Fs) (dir : ℕ) (s : Short) (d : Disk) : ℕ → ℕ → List UInt8
  | 0, _ => s.base ++ s.ext
  | fuel + 1, n =>
    if dirHasSfn fs dir (candidate s n) d then uniqueLoop fs dir s d fuel (n + 1)
    else candidate s n

def makeUniqueSfn (fs : Fs) (dir : ℕ) (s : Short) (d : Disk) : List UInt8 :=
  uniqueLoop fs dir s d 999999 1

/-- Character `g` of a long name: a NUL behind the name, then 0xFFFF. -/
def lfnUnit (name : List UInt8) (g : ℕ) : ℕ :=
  if g < name.length then (name.getD g 0).toNat else if g = name.length then 0 else 0xFFFF

def lfnSlot (name : List UInt8) (chk : UInt8) (seq : ℕ) (last : Bool) : Slot := fun j =>
  if j = 0 then UInt8.ofNat seq ||| (if last then 0x40 else 0)
  else if j = 11 then 0x0F
  else if j = 13 then chk
  else
    match charOff.idxOf? j with
    | some k => UInt8.ofNat (lfnUnit name ((seq - 1) * 13 + k))
    | none =>
      match charOff.idxOf? (j - 1) with
      | some k => UInt8.ofNat (lfnUnit name ((seq - 1) * 13 + k) / 256)
      | none => 0

def lfnSlots (name : List UInt8) (chk : UInt8) (chunks : ℕ) : ℕ → List Slot
  | 0 => []
  | seq + 1 => lfnSlot name chk (seq + 1) (seq + 1 == chunks) :: lfnSlots name chk chunks seq

def shortSlot (sfn : List UInt8) (attr nt : UInt8) (cluster size : ℕ) : Slot := fun j =>
  if j < 11 then sfn.getD j 0
  else if j = 11 then attr
  else if j = 12 then nt
  else if j = 26 then UInt8.ofNat cluster
  else if j = 27 then UInt8.ofNat (cluster / 256)
  else if j = 28 then UInt8.ofNat size
  else if j = 29 then UInt8.ofNat (size / 256)
  else if j = 30 then UInt8.ofNat (size / 65536)
  else if j = 31 then UInt8.ofNat (size / 65536 / 256)
  else 0

def lfnChunks (name : List UInt8) : ℕ := max 1 ((name.length + 12) / 13)

def newSfn (fs : Fs) (dir : ℕ) (name : List UInt8) (d : Disk) : List UInt8 :=
  let s := buildShort name
  if isNative name then s.base ++ s.ext else makeUniqueSfn fs dir s d

def buildEntries (fs : Fs) (dir : ℕ) (name : List UInt8) (attr : UInt8) (cluster size : ℕ)
    (d : Disk) : Option (List Slot) :=
  let sfn := newSfn fs dir name d
  if isNative name then some [shortSlot sfn attr (buildShort name).nt cluster size]
  else if maxLfn < lfnChunks name then none
  else some (lfnSlots name (sfnChecksum sfn) (lfnChunks name) (lfnChunks name) ++
    [shortSlot sfn attr 0 cluster size])

end Vnu.Fat16
