import Mathlib.Data.List.Range
import Mathlib.Logic.Function.Basic
import Mathlib.Tactic.NormNum
import Vnu.Lib.Act

/-!
The lower half of the FAT16 driver: sectors of 512 bytes, the allocation table, chains and byte
ranges. The callbacks of a device succeed or fail by sector, and an action that returns false keeps
what it had stored.
-/
namespace Vnu.Fat16

open Lib Act

abbrev Buf := ℕ → UInt8

abbrev Disk := ℕ → Buf

/-- For which sectors the read and the write callback return 0. -/
structure Device where
  readOk : ℕ → Bool
  writeOk : ℕ → Bool

structure Fs where
  dev : Device
  partLba : ℕ
  totalSectors : ℕ
  spc : ℕ
  fatsz : ℕ
  numFats : ℕ
  rootEntries : ℕ
  rootDirSectors : ℕ
  firstFat : ℕ
  firstRoot : ℕ
  firstData : ℕ
  maxCluster : ℕ
  mounted : Bool

def rd16 (b : Buf) (i : ℕ) : ℕ := (b i).toNat + 256 * (b (i + 1)).toNat

def rd32 (b : Buf) (i : ℕ) : ℕ := rd16 b i + 65536 * rd16 b (i + 2)

def wr16 (b : Buf) (i v : ℕ) : Buf :=
  Function.update (Function.update b i (UInt8.ofNat v)) (i + 1) (UInt8.ofNat (v / 256))

def wr32 (b : Buf) (i v : ℕ) : Buf := wr16 (wr16 b i v) (i + 2) (v / 65536)

def Fs.lba (fs : Fs) (rel : ℕ) : ℕ := (fs.partLba + rel) % 2 ^ 32

def devRead (fs : Fs) (rel : ℕ) (d : Disk) : Option Buf :=
  if fs.dev.readOk (fs.lba rel) then some (d (fs.lba rel)) else none

def devWrite (fs : Fs) (rel : ℕ) (buf : Buf) : Act Disk Unit := fun d =>
  if fs.dev.writeOk (fs.lba rel) then (some (), Function.update d (fs.lba rel) buf)
  else (none, d)

def Fs.cb (fs : Fs) : ℕ := fs.spc * 512

def clusterToSector (fs : Fs) (cluster : ℕ) : ℕ :=
  (fs.firstData + (cluster + (2 ^ 32 - 2)) * fs.spc) % 2 ^ 32

def fatGet (fs : Fs) (cluster : ℕ) (d : Disk) : Option ℕ :=
  let off := cluster * 2 % 2 ^ 32
  (devRead fs (fs.firstFat + off / 512) d).map fun tmp => rd16 tmp (off % 512)

def fatSetLoop (fs : Fs) (cluster value : ℕ) : ℕ → ℕ → Act Disk Unit
  | 0, _ => pure ()
  | n + 1, copy => do
    let off := cluster * 2 % 2 ^ 32
    let sec := fs.firstFat + copy * fs.fatsz + off / 512
    let buf ← query (devRead fs sec)
    devWrite fs sec (wr16 buf (off % 512) value)
    fatSetLoop fs cluster value n (copy + 1)

def fatSet (fs : Fs) (cluster value : ℕ) : Act Disk Unit :=
  fatSetLoop fs cluster value fs.numFats 0

def fatNext (fs : Fs) (cluster : ℕ) (d : Disk) : Option ℕ :=
  (fatGet fs cluster d).map fun v => if v = 0 ∨ v = 0xFFF7 ∨ 0xFFF8 ≤ v then 0 else v

def Fs.InRange (fs : Fs) (c : ℕ) : Prop := 2 ≤ c ∧ c ≤ fs.maxCluster

instance (fs : Fs) (c : ℕ) : Decidable (fs.InRange c) := inferInstanceAs (Decidable (_ ∧ _))

/-- The walk gives up by itself in step `maxCluster + 3`, before the fuel ends. -/
def chainLenLoop (fs : Fs) (d : Disk) : ℕ → ℕ → ℕ → Option ℕ
  | 0, _, _ => none
  | fuel + 1, n, c =>
    if fs.InRange c then
      if n + 1 > fs.maxCluster + 2 then none
      else
        match fatNext fs c d with
        | none => none
        | some nx => if nx = 0 then some (n + 1) else chainLenLoop fs d fuel (n + 1) nx
    else some n

def chainLen (fs : Fs) (first : ℕ) (d : Disk) : Option ℕ :=
  chainLenLoop fs d (fs.maxCluster + 4) 0 first

def chainAt (fs : Fs) : ℕ → ℕ → Disk → Option ℕ
  | c, 0, _ => if c = 0 then none else some c
  | c, n + 1, d =>
    match fatNext fs c d with
    | none => none
    | some nx => if nx = 0 then none else chainAt fs nx n d

def zeroSectors (fs : Fs) : ℕ → ℕ → Act Disk Unit
  | _, 0 => pure ()
  | rel, count + 1 => do
    devWrite fs rel fun _ => 0
    zeroSectors fs (rel + 1) count

def zeroCluster (fs : Fs) (cluster : ℕ) : Act Disk Unit :=
  zeroSectors fs (clusterToSector fs cluster) fs.spc

def freeChainLoop (fs : Fs) : ℕ → ℕ → ℕ → Act Disk Unit
  | 0, _, _ => fail
  | fuel + 1, guard, c =>
    if fs.InRange c then
      if guard + 1 > fs.maxCluster + 2 then fail
      else do
        let nx ← query (fatNext fs c)
        fatSet fs c 0
        freeChainLoop fs fuel (guard + 1) nx
    else pure ()

def freeChain (fs : Fs) (first : ℕ) : Act Disk Unit :=
  freeChainLoop fs (fs.maxCluster + 4) 0 first

def freeInSector (fs : Fs) (sec : ℕ) (buf : Buf) : Option ℕ :=
  ((List.range 256).find? fun i =>
    decide (fs.InRange (sec * 256 + i)) && (buf (i * 2) == 0 && buf (i * 2 + 1) == 0)).map
      (sec * 256 + ·)

def findFree (fs : Fs) : ℕ → ℕ → Disk → Option ℕ
  | 0, _, _ => some 0
  | n + 1, sec, d =>
    match devRead fs (fs.firstFat + sec) d with
    | none => none
    | some buf =>
      match freeInSector fs sec buf with
      | some c => some c
      | none => findFree fs n (sec + 1) d

def linkAfter (fs : Fs) (prev found : ℕ) : Act Disk Unit :=
  if prev = 0 then pure () else fatSet fs prev found

def clusterAlloc (fs : Fs) (prev : ℕ) : Act Disk ℕ := do
  let found ← query (findFree fs fs.fatsz 0)
  if found = 0 then fail
  else do
    fatSet fs found 0xFFFF
    linkAfter fs prev found
    zeroCluster fs found
    pure found

def growChain (fs : Fs) : ℕ → ℕ → Act Disk Unit
  | 0, _ => pure ()
  | n + 1, last => do
    let nc ← clusterAlloc fs last
    growChain fs n nc

def fileChainLen (fs : Fs) (first : ℕ) (d : Disk) : Option ℕ :=
  if first = 0 then some 0 else chainLen fs first d

def ensureChain (fs : Fs) (first need : ℕ) : Act Disk ℕ :=
  if need = 0 then pure first
  else do
    let len ← query (fileChainLen fs first)
    if need ≤ len then pure first
    else if len = 0 then do
      let nc ← clusterAlloc fs 0
      growChain fs (need - 1) nc
      pure nc
    else do
      let last ← query (chainAt fs first (len - 1))
      growChain fs (need - len) last
      pure first

def storeChunk (fs : Fs) (src : Buf) (done abs so chunk : ℕ) : Act Disk Unit :=
  if so = 0 ∧ chunk = 512 then devWrite fs abs fun i => src (done + i)
  else do
    let sec ← query (devRead fs abs)
    devWrite fs abs fun i => if so ≤ i ∧ i < so + chunk then src (done + (i - so)) else sec i

/-- The sector loop of `range_write`. Every round stores a byte, so `len` rounds are enough. -/
def rangeWriteLoop (fs : Fs) (src : Buf) (len : ℕ) : ℕ → ℕ → ℕ → ℕ → Act Disk Unit
  | 0, _, _, _ => pure ()
  | fuel + 1, done, within, clu =>
    if done < len then do
      let so := within % 512
      let chunk := min (512 - so) (len - done)
      storeChunk fs src done (clusterToSector fs clu + within / 512) so chunk
      if fs.cb ≤ within + chunk ∧ done + chunk < len then do
        let nx ← query (fatNext fs clu)
        if nx = 0 then fail
        else rangeWriteLoop fs src len fuel (done + chunk) (within + chunk - fs.cb) nx
      else rangeWriteLoop fs src len fuel (done + chunk) (within + chunk) clu
    else pure ()

def rangeWrite (fs : Fs) (first off : ℕ) (src : Buf) (len : ℕ) : Act Disk Unit := do
  let clu ← query (chainAt fs first (off / fs.cb))
  rangeWriteLoop fs src len len 0 (off % fs.cb) clu

end Vnu.Fat16
