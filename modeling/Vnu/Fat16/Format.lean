import Vnu.Fat16.Operations

/-!
Formatting a partition and mounting it. `format` finds the size of the table by iteration and writes
the boot sector; `mount` computes the geometry again from it.
-/
namespace Vnu.Fat16

open Lib Function

def spcLoop (partSectors : ℕ) : ℕ → ℕ → ℕ
  | 0, spc => spc
  | fuel + 1, spc =>
    if 60000 < partSectors / spc ∧ spc < 128 then spcLoop partSectors fuel (spc * 2) else spc

/-- Doubling from 1 stops at 128 after seven rounds. -/
def spcFor (partSectors : ℕ) : ℕ := spcLoop partSectors 7 1

def clustersWith (partSectors spc fatsz : ℕ) : ℕ := (partSectors - 1 - 2 * fatsz - 32) / spc

/-- The sizing loop: `none` when the fuel ends, `some none` when it refuses the partition. -/
def fatszLoop (partSectors spc : ℕ) : ℕ → ℕ → Option (Option ℕ)
  | 0, _ => none
  | fuel + 1, fatsz =>
    if partSectors ≤ 1 + 2 * fatsz + 32 then some none
    else
      let need := (clustersWith partSectors spc fatsz + 2) * 2
      let fatsecs := (need + 511) / 512
      if fatsecs ≤ fatsz then some (some fatsz)
      else if 0xFFFF < fatsecs then some none
      else fatszLoop partSectors spc fuel fatsecs

def formatFs (dev : Device) (partLba partSectors : ℕ) : Option Fs :=
  let spc := spcFor partSectors
  match fatszLoop partSectors spc 2 1 with
  | some (some fatsz) =>
    let clusters := clustersWith partSectors spc fatsz
    if clusters < 4085 ∨ 0xFFF4 < clusters + 2 then none
    else some
      { dev := dev, partLba := partLba, totalSectors := partSectors, spc := spc, fatsz := fatsz
        numFats := 2, rootEntries := 512, rootDirSectors := 32, firstFat := 1
        firstRoot := 1 + 2 * fatsz, firstData := 1 + 2 * fatsz + 32
        maxCluster := clusters + 1, mounted := true }
  | _ => none

def copyPadded (b : Buf) (start cap : ℕ) (src : List UInt8) : Buf := fun i =>
  if start ≤ i ∧ i < start + cap then src.getD (i - start) 0x20 else b i

def fsType : List UInt8 := [0x46, 0x41, 0x54, 0x31, 0x36]

def bootSector (fs : Fs) (oem label : List UInt8) (volumeId : ℕ) : Buf :=
  let b : Buf := fun _ => 0
  let b := update (update (update b 0 0xEB) 1 0x3C) 2 0x90
  let b := copyPadded b 3 8 oem
  let b := wr16 b 11 512
  let b := update b 13 (UInt8.ofNat fs.spc)
  let b := wr16 b 14 1
  let b := update b 16 2
  let b := wr16 b 17 512
  let b := if fs.totalSectors < 65536 then wr32 (wr16 b 19 fs.totalSectors) 32 0
    else wr32 (wr16 b 19 0) 32 fs.totalSectors
  let b := update b 21 0xF8
  let b := wr16 b 22 fs.fatsz
  let b := wr16 b 24 63
  let b := wr16 b 26 255
  let b := wr32 b 28 fs.partLba
  let b := update b 36 0x80
  let b := update b 38 0x29
  let b := wr32 b 39 volumeId
  let b := copyPadded b 43 11 label
  let b := copyPadded b 54 8 fsType
  update (update b 510 0x55) 511 0xAA

def labelSlot (label : List UInt8) : Slot := fun j =>
  if j < 11 then label.getD j 0x20 else if j = 11 then attrVolume else 0

def reserveLoop (fs : Fs) : ℕ → ℕ → Act Disk Unit
  | 0, _ => pure ()
  | n + 1, copy => do
    let sec ← Act.query (devRead fs (fs.firstFat + copy * fs.fatsz))
    devWrite fs (fs.firstFat + copy * fs.fatsz) (wr16 (wr16 sec 0 0xFFF8) 2 0xFFFF)
    reserveLoop fs n (copy + 1)

def format (dev : Device) (partLba partSectors : ℕ) (oem label : List UInt8) (volumeId : ℕ) :
    Act Disk Unit :=
  match formatFs dev partLba partSectors with
  | none => Act.fail
  | some fs => do
    devWrite fs 0 (bootSector fs oem label volumeId)
    zeroSectors fs fs.firstFat fs.fatsz
    zeroSectors fs (fs.firstFat + fs.fatsz) fs.fatsz
    reserveLoop fs 2 0
    zeroSectors fs fs.firstRoot fs.rootDirSectors
    writeEntryAt fs 0 0 (labelSlot label)

def bootFs (dev : Device) (partLba : ℕ) (b : Buf) : Option Fs :=
  let spc := (b 13).toNat
  let reserved := rd16 b 14
  let numFats := (b 16).toNat
  let rootEntries := rd16 b 17
  let tot := if rd16 b 19 = 0 then rd32 b 32 else rd16 b 19
  let fatsz := rd16 b 22
  let rootDirSectors := (rootEntries * 32 + 512 - 1) / 512
  let firstRoot := reserved + numFats * fatsz
  let firstData := firstRoot + rootDirSectors
  let clusters := (tot - firstData) / spc
  if b 510 ≠ 0x55 ∨ b 511 ≠ 0xAA then none
  else if rd16 b 11 ≠ 512 then none
  else if spc = 0 ∨ spc &&& (spc - 1) ≠ 0 then none
  else if reserved = 0 ∨ numFats = 0 ∨ fatsz = 0 then none
  else if tot ≤ firstData then none
  else if clusters < 4085 ∨ 0xFFF4 < clusters + 2 then none
  else some
    { dev := dev, partLba := partLba, totalSectors := tot, spc := spc, fatsz := fatsz
      numFats := numFats, rootEntries := rootEntries, rootDirSectors := rootDirSectors
      firstFat := reserved, firstRoot := firstRoot, firstData := firstData
      maxCluster := clusters + 1, mounted := true }

def blankFs (dev : Device) (partLba : ℕ) : Fs :=
  ⟨dev, partLba, 0, 0, 0, 0, 0, 0, 0, 0, 0, 0, false⟩

def mount (dev : Device) (partLba : ℕ) (d : Disk) : Option Fs :=
  (devRead (blankFs dev partLba) 0 d).bind (bootFs dev partLba)

end Vnu.Fat16
