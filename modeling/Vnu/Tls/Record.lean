import Vnu.Lib.Act
import Vnu.Tls.Gcm
import Vnu.Tls.Sha256

/-!
The state of a connection during the handshake and its record layer. Transport, random numbers and
memory are lists of answers; one that is missing is a failure. Every store to an array is logged.
-/
namespace Vnu.Tls

open Lib Act List

abbrev Bytes (n : ℕ) := { l : List UInt8 // l.length = n }

def bytesOf (n : ℕ) (l : List UInt8) : Bytes n :=
  ⟨(l ++ replicate n 0).take n, by
    rw [length_take_of_le (by rw [length_append, length_replicate]; omega)]⟩

def maxPlain : ℕ := 16384

def maxRecordRx : ℕ := maxPlain + 256 + 16

inductive Buffer
  | lastError | err | heap (size : ℕ)
  | crandom | srandom | master | ckey | skey | civ | siv | peerMod
  | hdr | flightRec | finishedRec
  | sendBuf | sendCt | nonce | aad | pt
  | hello | hmsg | pms | enc | cke | ccs | serverHello | pmsbuf | mod | exp
  | seed | keyBlock | fin | verify | hash | finishedSeed | prfBuf | hmacKey | rsaBlock
deriving DecidableEq

def Buffer.size : Buffer → ℕ
  | lastError | err => 96
  | heap size => size
  | crandom | srandom => 32
  | master => 48
  | ckey | skey => 16
  | civ | siv => 4
  | peerMod => 512
  | hdr => 5
  | flightRec => maxRecordRx
  | finishedRec => maxRecordRx + 64
  | sendBuf => maxPlain + 5 + 8 + 16
  | sendCt => maxPlain + 16
  | nonce => 12
  | aad => 13
  | pt => 32
  | hello => 256
  | hmsg => 256 + 4
  | pms => 48
  | enc => 256
  | cke => 258
  | ccs => 6
  | serverHello => 45
  | pmsbuf => 512
  | mod => 512
  | exp => 8
  | seed => 77
  | keyBlock => 40
  | fin => 16
  | verify => 12
  | hash => 32
  | finishedSeed => 47
  | prfBuf => 32 + 128
  | hmacKey => 64
  | rsaBlock => 512

structure Write where
  buf : Buffer
  off : ℕ
  len : ℕ

def Write.Inside (w : Write) : Prop := ∀ i < w.len, w.off + i < w.buf.size

inductive Stage
  | init | awaitShd | flightDone | established
deriving DecidableEq

structure Env where
  /-- How many bytes each receive call may hand over. -/
  sizes : List ℕ
  /-- The bytes the peer sends. -/
  peer : List UInt8
  rngs : List (List UInt8)
  mallocs : List Bool
  /-- How many bytes each send call may take. -/
  sends : List ℕ
  /-- What the limb of the modulus holds that `tls_modpow` does not set. -/
  junk : UInt32

structure Sealing where
  key : List UInt8
  nonce : List UInt8
  text : List UInt8

/-- What a side takes from its peer: a message, a ChangeCipherSpec, or a Finished with the check
value it holds and the computed one. -/
inductive Event
  | message (type : UInt8)
  | ccs
  | finished (verify expected : List UInt8)

/-- `struct tls_conn` without the buffers of application data, with the environment and what is
recorded of the run. -/
structure Conn extends Env where
  sent : List UInt8
  err : String
  hs : List UInt8
  hsCap : ℕ
  rx : List UInt8
  rxCap : ℕ
  crandom : Bytes 32
  srandom : Bytes 32
  master : Bytes 48
  ckey : Bytes 16
  skey : Bytes 16
  civ : Bytes 4
  siv : Bytes 4
  seqW : UInt64
  seqR : UInt64
  peerMod : List UInt8
  stage : Stage
  isServer : Bool
  writeEnc : Bool
  readEnc : Bool
  /-- The stores so far, the last one first. -/
  log : List Write
  /-- The lengths of the records that were decrypted. -/
  opened : List ℕ
  /-- The calls of the cipher that seal, the last one first. -/
  sealings : List Sealing
  /-- What was taken from the peer, the last one first. -/
  trace : List Event

def newConn (env : Env) (isServer : Bool) : Conn :=
  { env with
    sent := [], err := "", hs := [], hsCap := 0, rx := [], rxCap := 0
    crandom := bytesOf 32 [], srandom := bytesOf 32 [], master := bytesOf 48 []
    ckey := bytesOf 16 [], skey := bytesOf 16 [], civ := bytesOf 4 [], siv := bytesOf 4 []
    seqW := 0, seqR := 0, peerMod := [], stage := .init, isServer
    writeEnc := false, readEnc := false, log := [], opened := [], sealings := [], trace := [] }

abbrev Hs := Act Conn

def getConn : Hs Conn := query fun s => some s

def wrote (buf : Buffer) (off len : ℕ) : Hs Unit :=
  update fun s => { s with log := ⟨buf, off, len⟩ :: s.log }

def emit (buf : Buffer) : ℕ → List (List UInt8) → Hs Unit
  | _, [] => pure ()
  | off, p :: ps => do
    wrote buf off p.length
    emit buf (off + p.length) ps

def logHeap (h : Heap) (buf : Buffer) : Hs Unit :=
  update fun s => { s with log := h.log.map (fun p => ⟨buf, p.off, 1⟩) ++ s.log }

def cutMessage (m : String) : String := String.ofList (m.toList.take 95)

def seterr (m : String) : Hs Unit := do
  wrote .lastError 0 ((cutMessage m).length + 1)
  wrote .err 0 ((cutMessage m).length + 1)
  update fun s => { s with err := cutMessage m }

def seterrGlobal (m : String) : Hs Unit := wrote .lastError 0 ((cutMessage m).length + 1)

def giveUp {α : Type} (m : String) : Hs α := do
  seterr m
  fail

def refuse (c : Prop) [Decidable c] (m : String) : Hs Unit := if c then giveUp m else pure ()

def refuseGlobal (c : Prop) [Decidable c] (m : String) : Hs Unit :=
  if c then do
    seterrGlobal m
    fail
  else pure ()

def alertErr (desc : UInt8) : Hs Unit :=
  if desc = 20 then seterr "peer: bad record mac"
  else if desc = 40 then seterr "peer: handshake failure"
  else if desc = 47 then seterr "peer: illegal parameter"
  else if desc = 50 then seterr "peer: decode error"
  else if desc = 0 then seterr "peer closed"
  else seterr "peer: fatal alert"

def refuseAlert (c : Prop) [Decidable c] (desc : UInt8) : Hs Unit :=
  if c then do
    alertErr desc
    fail
  else pure ()

def be16 (p : List UInt8) : ℕ := (p.getD 0 0).toNat * 256 + (p.getD 1 0).toNat

def be24 (p : List UInt8) : ℕ :=
  (p.getD 0 0).toNat * 65536 + (p.getD 1 0).toNat * 256 + (p.getD 2 0).toNat

def put16 (v : ℕ) : List UInt8 := [UInt8.ofNat (v / 256), UInt8.ofNat v]

def put24 (v : ℕ) : List UInt8 := [UInt8.ofNat (v / 65536), UInt8.ofNat (v / 256), UInt8.ofNat v]

def ctEq (a b : List UInt8) (n : ℕ) : Bool :=
  (range n).foldr (fun i d => d ||| (a.getD i 0 ^^^ b.getD i 0)) 0 = 0

def malloc : Hs Bool := do
  let s ← getConn
  update fun s => { s with mallocs := s.mallocs.tail }
  pure (s.mallocs.headD false)

def growLoop (need : ℕ) : ℕ → ℕ → ℕ
  | 0, ncap => ncap
  | fuel + 1, ncap => if ncap < need then growLoop need fuel (ncap * 2) else ncap

/-- Returns the new capacity. A buffer of capacity zero is not there yet. -/
def grow (cap need : ℕ) : Hs ℕ := do
  let ncap := growLoop need need (if cap ≠ 0 then cap else 4096)
  let got ← malloc
  refuse (got = false) "out of memory"
  wrote (.heap ncap) 0 cap
  pure ncap

def room (cap need : ℕ) : Hs ℕ := if need > cap then grow cap need else pure cap

def sendLoop : ℕ → List UInt8 → Hs Unit
  | 0, _ => pure ()
  | fuel + 1, p =>
    if p.length = 0 then pure ()
    else do
      let s ← getConn
      let r := min p.length (s.sends.headD 0)
      update fun s => { s with sends := s.sends.tail }
      refuse (r = 0) "transport error"
      update fun s => { s with sent := s.sent ++ p.take r }
      sendLoop fuel (p.drop r)

def sendAll (p : List UInt8) : Hs Unit := sendLoop p.length p

def recvFn (buf : Buffer) (off n : ℕ) : Hs (List UInt8) := do
  let s ← getConn
  let r := min n (min (s.sizes.headD 0) s.peer.length)
  update fun s => { s with sizes := s.sizes.tail }
  refuse (r = 0) "transport error"
  wrote buf off r
  update fun s => { s with peer := s.peer.drop r }
  pure (s.peer.take r)

def recvLoop (buf : Buffer) : ℕ → ℕ → ℕ → Hs (List UInt8)
  | 0, _, _ => pure []
  | fuel + 1, off, n =>
    if n = 0 then pure []
    else do
      let bs ← recvFn buf off n
      let rest ← recvLoop buf fuel (off + bs.length) (n - bs.length)
      pure (bs ++ rest)

def recvAll (buf : Buffer) (n : ℕ) : Hs (List UInt8) := recvLoop buf n 0 n

def wantRng (buf : Buffer) (off n : ℕ) : Hs (Bytes n) := do
  let s ← getConn
  refuse (s.rngs = []) "no randomness source"
  wrote buf off n
  update fun s => { s with rngs := s.rngs.tail }
  pure (bytesOf n (s.rngs.headD []))

def transcriptAdd (p : List UInt8) : Hs Unit := do
  let s ← getConn
  let cap ← room s.hsCap (s.hs.length + p.length)
  wrote (.heap cap) s.hs.length p.length
  update fun s => { s with hs := s.hs ++ p, hsCap := cap }

def rxAdd (p : List UInt8) : Hs Unit := do
  let s ← getConn
  let cap ← room s.rxCap (s.rx.length + p.length)
  wrote (.heap cap) s.rx.length p.length
  update fun s => { s with rx := s.rx ++ p, rxCap := cap }

def ctCcs : UInt8 := 0x14

def ctAlert : UInt8 := 0x15

def ctHandshake : UInt8 := 0x16

structure Record where
  rtype : UInt8
  body : List UInt8
deriving DecidableEq

def readRecord (out : Buffer) : Hs Record := do
  let hdr ← recvAll .hdr 5
  refuse (hdr.getD 1 0 ≠ 3 ∨ hdr.getD 2 0 > 3) "version mismatch"
  let n := be16 (hdr.drop 3)
  refuse (n > out.size) "peer violation (record too large)"
  let body ← recvAll out n
  pure ⟨hdr.getD 0 0, body⟩

def seqBytes (seq : UInt64) : List UInt8 :=
  (range 8).map fun i => (seq >>> (8 * UInt64.ofNat (7 - i))).toUInt8

def gcmNonce (iv : Bytes 4) (seq : UInt64) : List UInt8 := iv.val ++ seqBytes seq

def gcmNonceWire (iv : Bytes 4) (rec : List UInt8) : List UInt8 := iv.val ++ rec.take 8

def gcmAad (seq : UInt64) (type : UInt8) (ptlen : ℕ) : List UInt8 :=
  seqBytes seq ++ [type, 3, 3] ++ put16 ptlen

def objects (strings : List (List UInt8)) : Heap :=
  ⟨fun p => (strings.getD p.obj []).getD p.off 0, []⟩

def sealRecord (key : Bytes 16) (nonce aad pt : List UInt8) : Hs (List UInt8) := do
  let h := tlsGcmSeal (objects [key.val, nonce, aad, pt]) ⟨0, 0⟩ ⟨1, 0⟩ ⟨2, 0⟩ 13 ⟨3, 0⟩ pt.length
    ⟨4, 0⟩
  logHeap h .sendCt
  update fun s => { s with sealings := ⟨key.val, nonce, pt⟩ :: s.sealings }
  pure (h.load ⟨4, 0⟩ (pt.length + 16))

def sendSealed (type : UInt8) (pt : List UInt8) : Hs (List UInt8) := do
  let s ← getConn
  let key := if s.isServer then s.skey else s.ckey
  let iv := if s.isServer then s.siv else s.civ
  emit .nonce 0 [iv.val, seqBytes s.seqW]
  emit .aad 0 [seqBytes s.seqW, [type], [3], [3], put16 pt.length]
  let ct ← sealRecord key (gcmNonce iv s.seqW) (gcmAad s.seqW type pt.length) pt
  let parts := [put16 (8 + pt.length + 16), seqBytes s.seqW, ct]
  emit .sendBuf 3 parts
  pure parts.flatten

def sendPlain (pt : List UInt8) : Hs (List UInt8) := do
  emit .sendBuf 3 [put16 pt.length, pt]
  pure (put16 pt.length ++ pt)

def sendBody (type : UInt8) (pt : List UInt8) : Hs (List UInt8) := do
  let s ← getConn
  if s.writeEnc then sendSealed type pt else sendPlain pt

def tlsSendRecord (type : UInt8) (pt : List UInt8) : Hs Unit := do
  refuse (pt.length > maxPlain) "peer violation (bad length)"
  emit .sendBuf 0 [[type], put16 0x0303]
  let rest ← sendBody type pt
  sendAll ([type] ++ put16 0x0303 ++ rest)
  update fun s => { s with seqW := s.seqW + 1 }

section

variable {s : Conn} {E : Conn → Prop} {Q : Unit → Conn → Prop}

@[simp] theorem ends_getConn {R : Conn → Conn → Prop} : getConn.Ends s R E ↔ R s s := Iff.rfl

@[simp] theorem ends_wrote {buf : Buffer} {off len : ℕ} :
    (wrote buf off len).Ends s Q E ↔ Q () { s with log := ⟨buf, off, len⟩ :: s.log } := Iff.rfl

theorem ends_refuse {c : Prop} [Decidable c] {m : String} (hfail : c → ∀ s', E s')
    (hgo : ¬c → Q () s) : (refuse c m).Ends s Q E := by
  rw [refuse]
  split_ifs with hc
  · exact hfail hc _
  · exact hgo hc

theorem ends_refuseAlert {c : Prop} [Decidable c] {desc : UInt8} (hfail : c → ∀ s', E s')
    (hgo : ¬c → Q () s) : (refuseAlert c desc).Ends s Q E := by
  rw [refuseAlert]
  split_ifs with hc
  · exact ends_bind.mpr (Ends.of_forall (fun _ => hfail hc) (hfail hc))
  · exact hgo hc

theorem ends_emit {buf : Buffer} {off : ℕ} {ps : List (List UInt8)}
    (h : ∀ log, Q () { s with log }) : (emit buf off ps).Ends s Q E := by
  induction ps generalizing off s with
  | nil => exact h s.log
  | cons p ps ih =>
    exact ih fun log => h log

end

end Vnu.Tls
