import Vnu.Tls.Handshake

/-!
A connection behind its handshake. A call that fails leaves it as it is; only `tls_close` ends it.
-/
namespace Vnu.Tls

open Lib Act

def ctApp : UInt8 := 0x17

structure Session extends Conn where
  /-- The `in_len` bytes of the buffer. -/
  inbuf : List UInt8
  inOff : ℕ
  inCap : ℕ
  closed : Bool
  /-- The texts that were sealed and whether they were sent, the last one first. -/
  attempts : List (List UInt8 × Bool)
  /-- The types and texts of the records that were decrypted, in their order. -/
  received : List Record
  /-- The bytes that `tls_read` returned, in their order. -/
  returned : List UInt8

def newSession (c : Conn) : Session :=
  { c with
    inbuf := [], inOff := 0, inCap := 0, closed := false
    attempts := c.sealings.map fun x => (x.text, true), received := [], returned := [] }

abbrev Ap := Act Session

def getSession : Ap Session := query fun t => some t

def onConn {α : Type} (x : Hs α) : Ap α := fun t =>
  ((x t.toConn).1, { t with toConn := (x t.toConn).2 })

def orElse {α : Type} (x : Ap α) (a : α) : Ap α := fun t => (some ((x t).1.getD a), (x t).2)

def sendRecord (type : UInt8) (pt : List UInt8) : Ap Unit := fun t =>
  let r := onConn (tlsSendRecord type pt) t
  (r.1, { r.2 with attempts := (pt, r.1.isSome) :: r.2.attempts })

def writeLoop : ℕ → List UInt8 → Ap Unit
  | 0, _ => pure ()
  | fuel + 1, p =>
    if p.length = 0 then pure ()
    else do
      let chunk := if p.length > maxPlain then maxPlain else p.length
      sendRecord ctApp (p.take chunk)
      writeLoop fuel (p.drop chunk)

/-- Returns how much was written: everything, or nothing when a send failed. -/
def tlsWrite (buf : List UInt8) : Ap Int32 := do
  let t ← getSession
  if t.stage ≠ .established then do
    onConn (seterrGlobal "not connected")
    pure 0
  else orElse (do writeLoop buf.length buf; pure (Int32.ofNat buf.length)) 0

/-- What `tls_gcm_open` reads. Object 4 is the free part of the buffer. -/
def dataHeap (key : Bytes 16) (iv : Bytes 4) (seq : UInt64) (type : UInt8) (rec : List UInt8) :
    Heap :=
  objects [key.val, gcmNonceWire iv rec, gcmAad seq type (rec.length - 24), rec]

def dataOpen (key : Bytes 16) (iv : Bytes 4) (seq : UInt64) (type : UInt8) (rec : List UInt8) :
    Bool × Heap :=
  tlsGcmOpen (dataHeap key iv seq type rec) ⟨0, 0⟩ ⟨1, 0⟩ ⟨2, 0⟩ 13 ⟨3, 8⟩
    (rec.length - 24 + 16) ⟨4, 0⟩ (some ⟨5, 0⟩)

def decryptRecord (type : UInt8) (rec : List UInt8) : Ap Unit := do
  let t ← getSession
  onConn (refuse (rec.length < 24) "peer violation (record too short)")
  let ptlen := rec.length - 24
  onConn (refuse (ptlen > maxPlain) "peer violation (bad length)")
  let cap ← onConn (room t.inCap (t.inbuf.length + ptlen))
  update fun t => { t with inCap := cap }
  let rkey := if t.isServer then t.ckey else t.skey
  let riv := if t.isServer then t.civ else t.siv
  let res := dataOpen rkey riv t.seqR type rec
  onConn (refuse (res.1 = false) "record authentication failed")
  let text := res.2.load ⟨4, 0⟩ ptlen
  update fun t =>
    { t with
      seqR := t.seqR + 1
      inbuf := t.inbuf ++ text
      received := t.received ++ [⟨type, text⟩] }

def takeBytes (len : ℕ) : Ap (List UInt8) := do
  let t ← getSession
  let avail := t.inbuf.length - t.inOff
  let n := if avail > len then len else avail
  let out := (t.inbuf.drop t.inOff).take n
  update fun t => { t with inOff := t.inOff + n, returned := t.returned ++ out }
  update fun t => if t.inOff = t.inbuf.length then { t with inbuf := [], inOff := 0 } else t
  pure out

def takeAlert : Ap Bool := do
  let t ← getSession
  if t.inbuf.length - t.inOff ≥ 2 then do
    let desc := t.inbuf.getD (t.inOff + 1) 0
    update fun t => { t with inOff := t.inOff + 2 }
    if desc = 0 then do
      update fun t => { t with closed := true }
      update fun t => if t.inOff = t.inbuf.length then { t with inbuf := [], inOff := 0 } else t
      pure true
    else do
      onConn (seterr "received fatal alert")
      pure false
  else pure true

def readLoop (len : ℕ) : ℕ → Ap (List UInt8)
  | 0 => fail
  | fuel + 1 => do
    let t ← getSession
    if t.inbuf.length - t.inOff > 0 then takeBytes len
    else if t.closed then pure []
    else do
      let r ← onConn (readRecord (.heap (maxRecordRx + 8)))
      if r.rtype = ctApp then do
        decryptRecord ctApp r.body
        readLoop len fuel
      else if r.rtype = ctAlert then do
        decryptRecord ctAlert r.body
        let goOn ← takeAlert
        if goOn then readLoop len fuel else pure []
      else if r.rtype = ctHandshake then
        onConn (giveUp "unsolicited handshake (renegotiation?)")
      else onConn (giveUp "peer violation (bad record type)")

def tlsRead (len : ℕ) : Ap (List UInt8) := do
  let t ← getSession
  if t.stage ≠ .established then do
    onConn (seterrGlobal "not connected")
    fail
  else readLoop len (t.peer.length + 2)

def tlsClose : Ap Unit := do
  let t ← getSession
  if t.stage = .established ∧ t.closed = false then do
    attempt (sendRecord ctAlert [1, 0])
    update fun t => { t with closed := true }
  else pure ()

inductive Call
  | write (buf : List UInt8)
  | read (len : ℕ)

def Session.call (t : Session) : Call → Session
  | .write buf => (tlsWrite buf t).2
  | .read len => (tlsRead len t).2

def Session.calls (t : Session) (cs : List Call) : Session := cs.foldl Session.call t

/-- A connection from its start: a handshake with `fuel` records for each loop, the calls that
follow it, and whether it is closed. -/
structure Run where
  role : Role
  fuel : ℕ
  env : Env
  calls : List Call
  close : Bool

def Run.handshake (r : Run) : Option Unit × Conn := r.role.run r.fuel r.env

def Run.used (r : Run) : Session := (newSession r.handshake.2).calls r.calls

def Run.session (r : Run) : Session :=
  if r.handshake.1 = none then newSession r.handshake.2
  else if r.close then (tlsClose r.used).2 else r.used

end Vnu.Tls
