import Mathlib.Data.List.FinRange
import Mathlib.Tactic.NormNum
import Vnu.Fat16.Clusters

/-!
Directory scanning: short names and the long names in front of them. A name is a C string without
its NUL, and `char` is signed.
-/
namespace Vnu.Fat16

open Lib List

abbrev Slot := Fin 32 → UInt8

instance (priority := high) slot_neZero : NeZero 32 := ⟨by decide⟩

def Slot.bytes (e : Slot) (a n : ℕ) : List UInt8 :=
  (range n).map fun i => e (Fin.ofNat 32 (a + i))

def attrVolume : UInt8 := 0x08
def attrDir : UInt8 := 0x10
def attrArch : UInt8 := 0x20

def isLower (c : UInt8) : Bool := 97 ≤ c && c ≤ 122
def isUpper (c : UInt8) : Bool := 65 ≤ c && c ≤ 90
def upper (c : UInt8) : UInt8 := if isLower c then c - 32 else c

def ciEqual : List UInt8 → List UInt8 → Bool
  | [], [] => true
  | a :: as, b :: bs => upper a == upper b && ciEqual as bs
  | _, _ => false

def sfnEqual (a b : List UInt8) : Bool := a.map upper == b.map upper

def sfnChecksum (sfn : List UInt8) : UInt8 :=
  sfn.foldl (fun sum b => (if sum &&& 1 = 0 then (0 : UInt8) else 0x80) + (sum >>> 1) + b) 0

def cstr (cs : List UInt8) : List UInt8 := cs.takeWhile fun c => c != 0

def sfnPart (cs : List UInt8) (lower : Bool) : List UInt8 :=
  (cs.takeWhile fun c => c != 0x20).map fun c => if lower && isUpper c then c + 32 else c

def buildSfnName (e : Slot) : List UInt8 :=
  -- A stored 0x05 stands for a name that starts with 0xE5.
  let raw := (if e 0 = 0x05 then 0xE5 else e 0) :: e.bytes 1 7
  let base := sfnPart raw (e 12 &&& 0x08 != 0)
  let ext := sfnPart (e.bytes 8 3) (e 12 &&& 0x10 != 0)
  cstr (base ++ if ext = [] then [] else 0x2E :: ext)

structure Entry where
  /-- Byte offset of the short entry in the directory. -/
  pos : ℕ
  cluster : ℕ
  size : ℕ
  attr : UInt8
  sfn : List UInt8
  name : List UInt8
  /-- Byte offsets of the long-name slots in front of it. -/
  lfnPos : List ℕ
deriving DecidableEq

def Entry.isVolume (ev : Entry) : Bool := ev.attr &&& attrVolume != 0
def Entry.isDir (ev : Entry) : Bool := ev.attr &&& attrDir != 0

def isDots (name : List UInt8) : Bool := name == [0x2E] || name == [0x2E, 0x2E]

structure Lfn where
  text : ℕ → UInt8
  pos : List ℕ
  maxSeq : ℕ
  chk : UInt8

def Lfn.start : Lfn := ⟨fun _ => 0, [], 0, 0⟩

def charOff : List (Fin 32) := [1, 3, 5, 7, 9, 14, 16, 18, 20, 22, 24, 28, 30]

def maxLfn : ℕ := 20

def Lfn.drop (st : Lfn) : Lfn := { st with pos := [], maxSeq := 0 }

def Lfn.begin (st : Lfn) (chk : UInt8) : Lfn :=
  if st.pos = [] then { st with chk := chk, maxSeq := 0, text := fun _ => 0 } else st

def Lfn.take (st : Lfn) (here : ℕ) (e : Slot) : Lfn :=
  let seq := (e 0 &&& 0x1F).toNat
  let st := st.begin (e 13)
  if e 13 ≠ st.chk ∨ seq = 0 ∨ maxLfn < seq ∨ maxLfn ≤ st.pos.length then st.drop
  else
    let start := (seq - 1) * 13
    { st with
      text := fun g => if start ≤ g ∧ g < start + 13 ∧ g < 256
        then e (charOff.getD (g - start) 0) else st.text g
      pos := st.pos ++ [here]
      maxSeq := max st.maxSeq seq }

def Lfn.name (st : Lfn) : List UInt8 :=
  cstr ((range (min (st.maxSeq * 13) 255)).map st.text)

def Slot.cluster (e : Slot) : ℕ := (e 26).toNat + 256 * (e 27).toNat

def Slot.size (e : Slot) : ℕ :=
  (e 28).toNat + 256 * (e 29).toNat + 65536 * ((e 30).toNat + 256 * (e 31).toNat)

def shortEntry (st : Lfn) (here : ℕ) (e : Slot) : Entry :=
  let long := st.pos ≠ [] ∧ st.chk = sfnChecksum (e.bytes 0 11)
  { pos := here
    cluster := e.cluster
    size := e.size
    attr := e 11 &&& 0x3F
    sfn := e.bytes 0 11
    name := if long then st.name else buildSfnName e
    lfnPos := if long then st.pos else [] }

inductive Scanned where
  | stop
  | skip (st : Lfn)
  | found (ev : Entry)

def scanSlot (st : Lfn) (here : ℕ) (e : Slot) : Scanned :=
  if e 0 = 0x00 then .stop
  else if e 0 = 0xE5 then .skip st.drop
  else if e 11 &&& 0x3F = 0x0F then .skip (st.take here e)
  else .found (shortEntry st here e)

def dirTotalBytes (fs : Fs) (dir : ℕ) (d : Disk) : ℕ :=
  if dir = 0 then fs.rootDirSectors * 512
  else
    match chainLen fs dir d with
    | none => 0
    | some len => len * fs.spc * 512

def dirSector (fs : Fs) (dir idx : ℕ) (d : Disk) : Option ℕ :=
  if dir = 0 then some (fs.firstRoot + idx)
  else
    match chainAt fs dir (idx / fs.spc) d with
    | none => none
    | some clu => some (clusterToSector fs clu + idx % fs.spc)

def dirReadSector (fs : Fs) (dir idx : ℕ) (d : Disk) : Option Buf :=
  (dirSector fs dir idx d).bind fun sec => devRead fs sec d

def dirWriteSector (fs : Fs) (dir idx : ℕ) (buf : Buf) : Act Disk Unit := do
  let sec ← Act.query (dirSector fs dir idx)
  devWrite fs sec buf

def slotAt (buf : Buf) (off : ℕ) : Slot := fun j => buf (off + j)

def scanLoop (fs : Fs) (dir total : ℕ) (d : Disk) : ℕ → Lfn → ℕ → Option Entry × ℕ
  | 0, _, pos => (none, pos)
  | fuel + 1, st, pos =>
    if pos + 32 ≤ total then
      match dirReadSector fs dir (pos / 512) d with
      | none => (none, pos)
      | some buf =>
        match scanSlot st pos (slotAt buf (pos % 512)) with
        | .stop => (none, pos + 32)
        | .skip st => scanLoop fs dir total d fuel st (pos + 32)
        | .found ev => (some ev, pos + 32)
    else (none, pos)

def scanNext (fs : Fs) (dir total : ℕ) (d : Disk) (pos : ℕ) : Option Entry × ℕ :=
  scanLoop fs dir total d (total / 32 + 1) Lfn.start pos

def scanUntil (fs : Fs) (dir total : ℕ) (d : Disk) (p : Entry → Bool) :
    ℕ → ℕ → Option (Entry × ℕ)
  | 0, _ => none
  | fuel + 1, pos =>
    match scanNext fs dir total d pos with
    | (none, _) => none
    | (some ev, next) =>
      if p ev then some (ev, next) else scanUntil fs dir total d p fuel next

def scanFor (fs : Fs) (dir : ℕ) (d : Disk) (p : Entry → Bool) : Option Entry :=
  let total := dirTotalBytes fs dir d
  (scanUntil fs dir total d p (total / 32 + 1) 0).map Prod.fst

def findEntry (fs : Fs) (dir : ℕ) (name : List UInt8) (d : Disk) : Option Entry :=
  if dirTotalBytes fs dir d = 0 then none
  else scanFor fs dir d fun ev => !ev.isVolume && ciEqual ev.name name

def dirHasSfn (fs : Fs) (dir : ℕ) (sfn : List UInt8) (d : Disk) : Bool :=
  (scanFor fs dir d fun ev => !ev.isVolume && sfnEqual ev.sfn sfn).isSome

def entriesFrom (fs : Fs) (dir total : ℕ) (d : Disk) : ℕ → ℕ → List Entry
  | 0, _ => []
  | fuel + 1, pos =>
    match scanNext fs dir total d pos with
    | (none, _) => []
    | (some ev, next) => ev :: entriesFrom fs dir total d fuel next

def entries (fs : Fs) (dir : ℕ) (d : Disk) : List Entry :=
  let total := dirTotalBytes fs dir d
  entriesFrom fs dir total d (total / 32 + 1) 0

end Vnu.Fat16
