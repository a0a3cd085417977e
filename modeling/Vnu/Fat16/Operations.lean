import Vnu.Fat16.Names

/-!
The calls of the driver on a mounted volume. A call that answers a boolean in the source returns a
value or gives up here.
-/
namespace Vnu.Fat16

open Lib Act

def putSlot (buf : Buf) (off : ℕ) (e : Slot) : Buf := fun i =>
  if h : off ≤ i ∧ i < off + 32 then e ⟨i - off, by omega⟩ else buf i

def editSlot (fs : Fs) (dir pos : ℕ) (g : Slot → Slot) : Act Disk Unit := do
  let sec ← query (dirReadSector fs dir (pos / 512))
  dirWriteSector fs dir (pos / 512) (putSlot sec (pos % 512) (g (slotAt sec (pos % 512))))

def writeEntryAt (fs : Fs) (dir pos : ℕ) (e : Slot) : Act Disk Unit :=
  editSlot fs dir pos fun _ => e

def Slot.deleted (e : Slot) : Slot := Function.update e 0 0xE5

def Slot.ended (e : Slot) : Slot := Function.update e 0 0x00

def markDeleted (fs : Fs) (dir pos : ℕ) : Act Disk Unit := editSlot fs dir pos Slot.deleted

def Slot.located (cluster size : ℕ) (e : Slot) : Slot := fun j =>
  if j = 20 ∨ j = 21 then 0
  else if j = 26 then UInt8.ofNat cluster
  else if j = 27 then UInt8.ofNat (cluster / 256)
  else if j = 28 then UInt8.ofNat size
  else if j = 29 then UInt8.ofNat (size / 256)
  else if j = 30 then UInt8.ofNat (size / 65536)
  else if j = 31 then UInt8.ofNat (size / 65536 / 256)
  else e j

/-- `update_entry` reports nothing: it leaves the entry alone when the device fails. -/
def updateEntry (fs : Fs) (dir pos cluster size : ℕ) : Act Disk Unit :=
  attempt (editSlot fs dir pos (Slot.located cluster size))

def endLoop (fs : Fs) (dir total : ℕ) (d : Disk) : ℕ → ℕ → Option ℕ
  | 0, pos => some pos
  | fuel + 1, pos =>
    if pos + 32 ≤ total then
      match dirReadSector fs dir (pos / 512) d with
      | none => none
      | some buf => if buf (pos % 512) = 0 then some pos else endLoop fs dir total d fuel (pos + 32)
    else some pos

def extendLoop (fs : Fs) (dir want : ℕ) : ℕ → ℕ → Act Disk ℕ
  | 0, _ => fail
  | fuel + 1, total =>
    if total < want then
      if dir = 0 then fail
      else do
        let len ← query (chainLen fs dir)
        if len = 0 then fail
        else do
          let last ← query (chainAt fs dir (len - 1))
          let _ ← clusterAlloc fs last
          extendLoop fs dir want fuel (total + fs.spc * 512)
    else pure total

def writeEntries (fs : Fs) (dir : ℕ) : ℕ → List Slot → Act Disk Unit
  | _, [] => pure ()
  | pos, e :: es => do
    writeEntryAt fs dir pos e
    writeEntries fs dir (pos + 32) es

def dirAppend (fs : Fs) (dir : ℕ) (es : List Slot) : Act Disk Unit := do
  let total ← query fun d => some (dirTotalBytes fs dir d)
  if total = 0 then fail
  else do
    let pos ← query fun d => endLoop fs dir total d (total / 32 + 1) 0
    let total ← extendLoop fs dir (pos + es.length * 32) (es.length + 1) total
    writeEntries fs dir pos es
    if pos + es.length * 32 + 32 ≤ total then
      editSlot fs dir (pos + es.length * 32) Slot.ended
    else pure ()

def initSubdir (fs : Fs) (clu parent : ℕ) : Act Disk Unit := do
  let sec ← query (devRead fs (clusterToSector fs clu))
  let dot := shortSlot ([0x2E].rightpad 11 0x20) attrDir 0 clu 0
  let dotdot := shortSlot ([0x2E, 0x2E].rightpad 11 0x20) attrDir 0 parent 0
  devWrite fs (clusterToSector fs clu) (putSlot (putSlot sec 0 dot) 32 dotdot)

def lookup (fs : Fs) (dir : ℕ) (name : List UInt8) (d : Disk) : Option (ℕ × ℕ × UInt8) :=
  (findEntry fs dir name d).map fun ev => (ev.cluster, ev.size, ev.attr)

def readLoop (fs : Fs) (d : Disk) (len : ℕ) : ℕ → ℕ → ℕ → ℕ → Option (List UInt8)
  | 0, _, _, _ => some []
  | fuel + 1, done, within, clu =>
    if done < len then
      match devRead fs (clusterToSector fs clu + within / 512) d with
      | none => none
      | some sec =>
        let so := within % 512
        let chunk := min (512 - so) (len - done)
        let got := (List.range chunk).map fun i => sec (so + i)
        if fs.cb ≤ within + chunk ∧ done + chunk < len then
          match fatNext fs clu d with
          | none => some got
          | some nx =>
            if nx = 0 then some got
            else (readLoop fs d len fuel (done + chunk) (within + chunk - fs.cb) nx).map (got ++ ·)
        else (readLoop fs d len fuel (done + chunk) (within + chunk) clu).map (got ++ ·)
    else some []

/-- The bytes `read` copies out: none when the chain does not reach `off`. -/
def read (fs : Fs) (dir : ℕ) (name : List UInt8) (off len : ℕ) (d : Disk) :
    Option (List UInt8) :=
  match findEntry fs dir name d with
  | none => none
  | some ev =>
    if ev.isDir then none
    else if ev.size ≤ off then some []
    else
      let len := min len (ev.size - off)
      match chainAt fs ev.cluster (off / fs.cb) d with
      | none => some []
      | some clu => readLoop fs d len len 0 (off % fs.cb) clu

def create (fs : Fs) (dir : ℕ) (name : List UInt8) : Act Disk Unit := do
  if (← query fun d => some (findEntry fs dir name d)).isSome then fail
  else do
    let es ← query (buildEntries fs dir name attrArch 0 0)
    dirAppend fs dir es

def findOrCreate (fs : Fs) (dir : ℕ) (name : List UInt8) : Act Disk Entry := do
  match ← query fun d => some (findEntry fs dir name d) with
  | some ev => pure ev
  | none => do
    create fs dir name
    query (findEntry fs dir name)

def Fs.clustersFor (fs : Fs) (n : ℕ) : ℕ := (n + fs.cb - 1) % 2 ^ 32 / fs.cb

def zeroGap (fs : Fs) (first size off : ℕ) : Act Disk Unit :=
  if size < off then rangeWrite fs first size (fun _ => 0) (off - size) else pure ()

def write (fs : Fs) (dir : ℕ) (name : List UInt8) (off : ℕ) (buf : List UInt8) :
    Act Disk ℕ := do
  let ev ← findOrCreate fs dir name
  if ev.isDir then fail
  else if buf.length = 0 then pure 0
  else if 0xFFFFFFFF - buf.length < off then fail
  else do
    let last := off + buf.length
    let nf ← ensureChain fs ev.cluster (fs.clustersFor last)
    zeroGap fs nf ev.size off
    rangeWrite fs nf off (fun i => buf.getD i 0) buf.length
    updateEntry fs dir ev.pos nf (if ev.size < last then last else ev.size)
    pure buf.length

def cutBehind (fs : Fs) (last rest : ℕ) : Act Disk Unit :=
  if rest = 0 then pure ()
  else do
    freeChain fs rest
    fatSet fs last 0xFFFF

def shrinkTo (fs : Fs) (first keep size : ℕ) : Act Disk Unit := do
  let last ← query (chainAt fs first (keep - 1))
  let rest ← query (fatNext fs last)
  cutBehind fs last rest
  let tail := size - (keep - 1) * fs.cb
  if tail < fs.cb then rangeWrite fs first size (fun _ => 0) (fs.cb - tail) else pure ()

def dropChain (fs : Fs) (first : ℕ) : Act Disk Unit :=
  if first = 0 then pure () else freeChain fs first

def truncate (fs : Fs) (dir : ℕ) (name : List UInt8) (size : ℕ) : Act Disk Unit := do
  let ev ← query (findEntry fs dir name)
  if ev.isDir then fail
  else if size = ev.size then pure ()
  else if ev.size < size then do
    let nf ← ensureChain fs ev.cluster (fs.clustersFor size)
    updateEntry fs dir ev.pos nf size
  else if fs.clustersFor size = 0 then do
    dropChain fs ev.cluster
    updateEntry fs dir ev.pos 0 size
  else do
    shrinkTo fs ev.cluster (fs.clustersFor size) size
    updateEntry fs dir ev.pos ev.cluster size

def markAll (fs : Fs) (dir : ℕ) : List ℕ → Act Disk Unit
  | [] => pure ()
  | pos :: rest => do
    markDeleted fs dir pos
    markAll fs dir rest

def unlink (fs : Fs) (dir : ℕ) (name : List UInt8) : Act Disk Unit := do
  let ev ← query (findEntry fs dir name)
  if ev.isDir then fail
  else do
    dropChain fs ev.cluster
    markAll fs dir (ev.lfnPos ++ [ev.pos])

def mkdir (fs : Fs) (dir : ℕ) (name : List UInt8) : Act Disk Unit := do
  if (← query fun d => some (findEntry fs dir name d)).isSome then fail
  else do
    let clu ← clusterAlloc fs 0
    onFail (do
      initSubdir fs clu dir
      let es ← query (buildEntries fs dir name attrDir clu 0)
      dirAppend fs dir es) (freeChain fs clu)

def dirOccupied (fs : Fs) (dir : ℕ) (d : Disk) : Bool :=
  (scanFor fs dir d fun ev => !isDots ev.name).isSome

def rmdir (fs : Fs) (dir : ℕ) (name : List UInt8) : Act Disk Unit := do
  let ev ← query (findEntry fs dir name)
  if ev.isDir then do
    if ← query fun d => some (dirOccupied fs ev.cluster d) then fail
    else do
      freeChain fs ev.cluster
      markAll fs dir (ev.lfnPos ++ [ev.pos])
  else fail

structure Iter where
  dirCluster : ℕ
  pos : ℕ
  total : ℕ
  seen : ℕ

def opendir (fs : Fs) (dir : ℕ) (d : Disk) : Iter := ⟨dir, 0, dirTotalBytes fs dir d, 0⟩

def readdir (fs : Fs) (it : Iter) (nameCap : ℕ) (d : Disk) :
    Option (List UInt8 × (ℕ × ℕ × UInt8) × Iter) :=
  (scanUntil fs it.dirCluster it.total d (fun ev => !ev.isVolume && !isDots ev.name)
    (it.total / 32 + 1) it.pos).map fun (ev, next) =>
      (ev.name.take (nameCap - 1), (ev.cluster, ev.size, ev.attr),
        { it with pos := next, seen := it.seen + 1 })

def readdirWalk (fs : Fs) (nameCap : ℕ) (d : Disk) : ℕ → Iter → List (List UInt8)
  | 0, _ => []
  | fuel + 1, it =>
    match readdir fs it nameCap d with
    | none => []
    | some (name, _, it) => name :: readdirWalk fs nameCap d fuel it

def readdirAll (fs : Fs) (dir nameCap : ℕ) (d : Disk) : List (List UInt8) :=
  readdirWalk fs nameCap d (dirTotalBytes fs dir d / 32 + 1) (opendir fs dir d)

def statsLoop (fs : Fs) (d : Disk) : ℕ → ℕ → Option (ℕ × Buf) → ℕ → Option ℕ
  | 0, _, _, free => some free
  | n + 1, c, loaded, free =>
    let sec := c * 2 / 512
    let hit := match loaded with
      | some (s, buf) => if s = sec then some buf else devRead fs (fs.firstFat + sec) d
      | none => devRead fs (fs.firstFat + sec) d
    match hit with
    | none => none
    | some buf => statsLoop fs d n (c + 1) (some (sec, buf))
        (if rd16 buf (c * 2 % 512) = 0 then free + 1 else free)

def volumeStats (fs : Fs) (d : Disk) : Option (ℕ × ℕ) :=
  if fs.mounted = false ∨ fs.spc = 0 ∨ fs.maxCluster < 2 then none
  else (statsLoop fs d (fs.maxCluster - 1) 2 none 0).map fun free =>
    ((fs.maxCluster - 1) * fs.cb % 2 ^ 32, free * fs.cb % 2 ^ 32)

def nameMax : ℕ := 256

structure Place where
  cluster : ℕ
  size : ℕ
  attr : UInt8

def Place.root : Place := ⟨0, 0, attrDir⟩

def Place.up (fs : Fs) (d : Disk) (here : Place) : Place :=
  if here.cluster = 0 then here
  else match findEntry fs here.cluster [0x2E, 0x2E] d with
    | some ev => { here with cluster := ev.cluster }
    | none => { here with cluster := 0 }

def Place.down (fs : Fs) (d : Disk) (here : Place) (comp rest : List UInt8) : Option Place :=
  match findEntry fs here.cluster (comp.take (nameMax - 1)) d with
  | none => none
  | some ev =>
    if !ev.isDir && !rest.isEmpty then none else some ⟨ev.cluster, ev.size, ev.attr⟩

def resolveLoop (fs : Fs) (d : Disk) : ℕ → List UInt8 → Place → Option Place
  | 0, _, here => some here
  | fuel + 1, path, here =>
    let path := path.dropWhile (· == 0x2F)
    let comp := path.takeWhile (· != 0x2F)
    let rest := path.dropWhile (· != 0x2F)
    if path = [] then some here
    else if comp = [0x2E] then resolveLoop fs d fuel rest here
    else if comp = [0x2E, 0x2E] then resolveLoop fs d fuel rest (here.up fs d)
    else (here.down fs d comp rest).bind (resolveLoop fs d fuel rest)

def resolve (fs : Fs) (path : List UInt8) (d : Disk) : Option Place :=
  resolveLoop fs d (path.length + 1) path Place.root

end Vnu.Fat16
