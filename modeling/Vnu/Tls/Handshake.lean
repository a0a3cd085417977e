import Vnu.Tls.Record
import Vnu.Tls.Rsa
import Vnu.Tls.X509

/-!
The handshake of the TLS library. A loop over records stops after a given number of them, so that a
run can be looked at after any.
-/
namespace Vnu.Tls

open Lib Act

def asciiBytes (s : String) : List UInt8 := s.toList.map fun c => UInt8.ofNat c.toNat

def suite : ℕ := 0x009c

def hsSend (type : UInt8) (body : List UInt8) : Hs Unit := do
  refuse (body.length > 0xffffff) "handshake failure"
  let got ← malloc
  refuse (got = false) "out of memory"
  let wire := [[type], put24 body.length, body]
  emit (.heap (4 + body.length)) 0 wire
  transcriptAdd wire.flatten
  tlsSendRecord ctHandshake wire.flatten

def buildClientHello (host : List UInt8) : Hs (List UInt8) := do
  let s ← getConn
  let hostlen := host.length
  let sniBody := 9 + hostlen
  let sigBody := 14
  refuse (hostlen > 0xffff ∨ 43 + sniBody + sigBody > Buffer.hello.size) "handshake failure"
  let out := [put16 0x0303, s.crandom.val, [0], put16 2, put16 suite, [1], [0],
    put16 (sniBody + sigBody), put16 0, put16 (5 + hostlen), put16 (3 + hostlen), [0],
    put16 hostlen, host, put16 13, put16 10, put16 8, [4], [1], [5], [1], [6], [1], [2], [1]]
  emit .hello 0 out
  pure out.flatten

def skipSessionId (b : List UInt8) : Hs (List UInt8) := do
  let sidlen := (b.getD 0 0).toNat
  refuse (sidlen > (b.drop 1).length) "handshake failure"
  pure ((b.drop 1).drop sidlen)

def parseServerHello (b : List UInt8) : Hs Unit := do
  refuse (b.length < 2 + 32 + 1) "handshake failure"
  refuse (be16 b ≠ 0x0303) "version mismatch"
  wrote .srandom 0 32
  update fun s => { s with srandom := bytesOf 32 (b.drop 2) }
  let b ← skipSessionId (b.drop 34)
  refuse (b.length < 2 + 1) "handshake failure"
  refuse (be16 b ≠ suite) "unsupported cipher suite"
  refuse (b.getD 2 0 ≠ 0) "unsupported compression"

def takeKey (der : List UInt8) : Hs Bool := do
  let key := tlsX509RsaPubkey der Buffer.mod.size Buffer.exp.size
  let mod := key.mod.getD []
  wrote .mod 0 mod.length
  wrote .exp 0 (key.exp.getD []).length
  if key.mod.isSome ∧ key.exp.isSome ∧ mod.length ≤ Buffer.peerMod.size then do
    wrote .peerMod 0 mod.length
    update fun s => { s with peerMod := mod }
    pure true
  else pure false

def keepKey (got : Bool) (der : List UInt8) : Hs Bool := if got then pure true else takeKey der

def chainLoop : ℕ → List UInt8 → Bool → Hs Bool
  | 0, _, got => pure got
  | fuel + 1, b, got =>
    if b.length < 3 then pure got
    else do
      let clen := be24 b
      let b := b.drop 3
      refuse (b.length < clen) "server certificate unusable"
      let got ← keepKey got (b.take clen)
      chainLoop fuel (b.drop clen) got

def parseCertificate (b : List UInt8) : Hs Unit := do
  refuse (b.length < 3) "server certificate unusable"
  refuse (be24 b ≠ b.length - 3) "server certificate unusable"
  let got ← chainLoop b.length (b.drop 3) false
  refuse (got = false) "server certificate unusable"

def drainMessage (type : UInt8) (body : List UInt8) : Hs Unit :=
  if type = 2 then parseServerHello body
  else if type = 11 then parseCertificate body
  else if type = 13 then pure ()
  else if type = 12 then giveUp "unexpected server key exchange"
  else if type = 14 then update fun s => { s with stage := .flightDone }
  else giveUp "handshake failure"

def drainLoop : ℕ → List UInt8 → Hs (List UInt8)
  | 0, p => pure p
  | fuel + 1, p =>
    if p.length < 4 then pure p
    else
      let len := be24 (p.drop 1)
      if p.length < 4 + len then pure p
      else do
        drainMessage (p.getD 0 0) ((p.drop 4).take len)
        update fun s => { s with trace := .message (p.getD 0 0) :: s.trace }
        drainLoop fuel (p.drop (4 + len))

def hsDrain : Hs Unit := do
  let s ← getConn
  let left ← drainLoop s.rx.length s.rx
  wrote (.heap s.rxCap) 0 left.length
  update fun s => { s with rx := left }

def prfTo (buf : Buffer) (off : ℕ) (secret seed : List UInt8) (n : ℕ) : Hs (List UInt8) := do
  wrote .hmacKey 0 (if secret.length > 64 then 32 else secret.length)
  wrote .prfBuf 0 32
  wrote .prfBuf 32 (if seed.length > 128 then 0 else seed.length)
  wrote buf off (tlsPrf secret seed n).length
  pure (tlsPrf secret seed n)

def deriveKeys (pms : List UInt8) : Hs Unit := do
  let s ← getConn
  let seed := [asciiBytes "master secret", s.crandom.val, s.srandom.val]
  emit .seed 0 seed
  let master ← prfTo .master 0 (pms.take 48) seed.flatten 48
  update fun s => { s with master := bytesOf 48 master }
  let seed := [asciiBytes "key expansion", s.srandom.val, s.crandom.val]
  emit .seed 0 seed
  let kb ← prfTo .keyBlock 0 (bytesOf 48 master).val seed.flatten 40
  wrote .ckey 0 16
  wrote .skey 0 16
  wrote .civ 0 4
  wrote .siv 0 4
  update fun s =>
    { s with
      ckey := bytesOf 16 kb
      skey := bytesOf 16 (kb.drop 16)
      civ := bytesOf 4 (kb.drop 32)
      siv := bytesOf 4 (kb.drop 36) }

def verifyData (label : String) (buf : Buffer) (off : ℕ) : Hs (List UInt8) := do
  let s ← getConn
  let seed := [asciiBytes label, sha256Of [s.hs]]
  wrote .hash 0 32
  emit .finishedSeed 0 seed
  prfTo buf off s.master.val seed.flatten 12

def changeCipherSpec : Hs Unit := do
  wrote .ccs 0 6
  sendAll [ctCcs, 3, 3, 0, 1, 1]
  update fun s => { s with seqW := 0, writeEnc := true }

def sendFinished (label : String) : Hs Unit := do
  let verify ← verifyData label .fin 4
  let fin := [[20], put24 12]
  emit .fin 0 fin
  transcriptAdd (fin.flatten ++ verify)
  tlsSendRecord ctHandshake (fin.flatten ++ verify)

/-- What `tls_gcm_open` reads. Object 4 is the array for the plaintext. -/
def finishedHeap (key : Bytes 16) (iv : Bytes 4) (seq : UInt64) (rec : List UInt8) : Heap :=
  objects [key.val, gcmNonceWire iv rec, gcmAad seq ctHandshake (rec.length - 24), rec]

def finishedOpen (key : Bytes 16) (iv : Bytes 4) (seq : UInt64) (rec : List UInt8) : Bool × Heap :=
  let ptlen := rec.length - 24
  tlsGcmOpen (finishedHeap key iv seq rec) ⟨0, 0⟩ ⟨1, 0⟩ ⟨2, 0⟩ 13 ⟨3, 8⟩ (ptlen + 16) ⟨4, 0⟩
    (some ⟨3, 8 + ptlen⟩)

def finishedBuffer (obj : ℕ) : Buffer := if obj = 4 then .pt else .finishedRec

def logOpen (rlen : ℕ) (h : Heap) : Hs Unit :=
  update fun s =>
    { s with
      opened := rlen :: s.opened
      log := h.log.map (fun p => ⟨finishedBuffer p.obj, p.off, 1⟩) ++ s.log }

def checkFinished (key : Bytes 16) (iv : Bytes 4) (label : String) (rec : List UInt8) :
    Hs (List UInt8) := do
  let s ← getConn
  refuse (rec.length < 24) "peer violation (record too short)"
  let ptlen := rec.length - 24
  emit .nonce 0 [iv.val, rec.take 8]
  emit .aad 0 [seqBytes s.seqR, [ctHandshake], [3], [3], put16 ptlen]
  let res := finishedOpen key iv s.seqR rec
  logOpen rec.length res.2
  refuse (res.1 = false) "record authentication failed"
  update fun s => { s with seqR := s.seqR + 1 }
  let pt := res.2.load ⟨4, 0⟩ 16
  refuse (ptlen ≠ 16 ∨ pt.getD 0 0 ≠ 20) "handshake failure"
  let fin ← verifyData label .verify 0
  refuse (ctEq fin (pt.drop 4) 12 = false) "record authentication failed"
  update fun s => { s with trace := .finished (pt.drop 4) fin :: s.trace }
  pure pt

def takeCcs (rec : List UInt8) : Hs Unit := do
  refuse (rec.length ≠ 1 ∨ rec.getD 0 0 ≠ 1) "handshake failure"
  update fun s => { s with seqR := 0, readEnc := true, trace := .ccs :: s.trace }

def connectRecord (r : Record) : Hs Bool := do
  let s ← getConn
  if r.rtype = ctCcs then do
    takeCcs r.body
    pure false
  else do
    refuseAlert (r.rtype = ctAlert ∧ r.body.length = 2 ∧ s.readEnc = false) (r.body.getD 1 0)
    refuse (r.rtype ≠ ctHandshake) "handshake failure"
    if s.readEnc = false then do
      transcriptAdd r.body
      pure false
    else do
      let _ ← checkFinished s.skey s.siv "server finished" r.body
      pure true

def acceptRecord (r : Record) : Hs Bool := do
  let s ← getConn
  if r.rtype = ctCcs then do
    takeCcs r.body
    pure false
  else do
    refuseAlert (r.rtype = ctAlert ∧ r.body.length = 2 ∧ s.readEnc = false) (r.body.getD 1 0)
    refuse (r.rtype ≠ ctHandshake ∨ s.readEnc = false) "unexpected record during handshake"
    let pt ← checkFinished s.ckey s.civ "client finished" r.body
    transcriptAdd pt
    pure true

def finishedLoop (handle : Record → Hs Bool) : ℕ → Hs Unit
  | 0 => fail
  | fuel + 1 => do
    let r ← readRecord .finishedRec
    let done ← handle r
    if done then pure () else finishedLoop handle fuel

def sendClientHello (host : List UInt8) : Hs Unit := do
  let hello ← buildClientHello host
  let hmsg := [[1], put24 hello.length, hello]
  emit .hmsg 0 hmsg
  transcriptAdd hmsg.flatten
  tlsSendRecord ctHandshake hmsg.flatten
  update fun s => { s with stage := .awaitShd }

def flightLoop : ℕ → Hs Unit
  | 0 => fail
  | fuel + 1 => do
    let r ← readRecord .flightRec
    update fun s => { s with seqR := s.seqR + 1 }
    refuseAlert (r.rtype = ctAlert ∧ r.body.length = 2) (r.body.getD 1 0)
    refuse (r.rtype ≠ ctHandshake) "unexpected record during handshake"
    transcriptAdd r.body
    rxAdd r.body
    hsDrain
    let s ← getConn
    if s.stage = .flightDone then pure () else flightLoop fuel

def encryptTo (n m : List UInt8) : Hs (Option (List UInt8)) := do
  let s ← getConn
  let out := tlsRsaEncryptPkcs1 s.junk n m
  wrote .rsaBlock 0 (if out.isSome then n.length else 0)
  wrote .enc 0 (out.getD []).length
  pure out

def clientKeyExchange : Hs (List UInt8) := do
  let s ← getConn
  refuse (s.peerMod.length ≠ 256) "server certificate unusable (expected RSA 2048)"
  wrote .pms 0 2
  let rand ← wantRng .pms 2 46
  let pms := [3, 3] ++ rand.val
  let enc ← encryptTo s.peerMod pms
  refuse (enc = none) "RSA encryption failed"
  let cke := [put16 256, enc.getD []]
  emit .cke 0 cke
  hsSend 16 cke.flatten
  pure pms

def tlsConnect (fuel : ℕ) (host : List UInt8) : Hs Unit := do
  let got ← malloc
  refuseGlobal (got = false) "out of memory"
  let rand ← wantRng .crandom 0 32
  update fun s => { s with crandom := rand }
  sendClientHello host
  flightLoop fuel
  let pms ← clientKeyExchange
  deriveKeys pms
  changeCipherSpec
  sendFinished "client finished"
  finishedLoop connectRecord fuel
  update fun s => { s with stage := .established }

structure Keypair where
  cert : List UInt8
  mod : List UInt8
  priv : List UInt8

def suiteLoop : List UInt8 → Bool → Bool → Bool × Bool
  | a :: b :: bs, found, reneg =>
    let cs := be16 [a, b]
    suiteLoop bs (found || (cs ≠ 0x00FF ∧ cs = suite)) (reneg || cs = 0x00FF)
  | _, found, reneg => (found, reneg)

def extensionLoop : ℕ → List UInt8 → Bool → Hs Bool
  | 0, _, reneg => pure reneg
  | fuel + 1, b, reneg =>
    if b.length < 4 then pure reneg
    else do
      let type := be16 b
      let vlen := be16 (b.drop 2)
      let b := b.drop 4
      refuse (vlen > b.length) "handshake failure"
      refuse (type = 0xFF01 ∧ (vlen ≠ 1 ∨ b.getD 0 0 ≠ 0)) "renegotiation unsupported"
      extensionLoop fuel (b.drop vlen) (reneg || type = 0xFF01)

def parseSuites (b : List UInt8) : Hs (Bool × List UInt8) := do
  refuse (b.length < 2 + 2 + 1) "handshake failure"
  let slen := be16 b
  refuse (slen < 2 ∨ slen > (b.drop 2).length) "handshake failure"
  let suites := suiteLoop ((b.drop 2).take slen) false false
  refuse (suites.1 = false) "unsupported cipher suite"
  pure (suites.2, (b.drop 2).drop slen)

def parseCompression (b : List UInt8) : Hs (List UInt8) := do
  refuse (b.length < 1) "handshake failure"
  let clen := (b.getD 0 0).toNat
  refuse (clen < 1 ∨ clen > (b.drop 1).length) "handshake failure"
  refuse (0 ∉ (b.drop 1).take clen) "unsupported compression"
  pure ((b.drop 1).drop clen)

def parseExtensions (b : List UInt8) (reneg : Bool) : Hs Bool :=
  if b.length < 2 then pure reneg
  else do
    refuse (be16 b > (b.drop 2).length) "handshake failure"
    extensionLoop b.length (b.drop 2) reneg

def parseClientHello (b : List UInt8) : Hs Bool := do
  refuse (b.length < 2 + 32 + 1) "handshake failure"
  refuse (be16 b ≠ 0x0303) "version mismatch"
  wrote .crandom 0 32
  update fun s => { s with crandom := bytesOf 32 (b.drop 2) }
  let b ← skipSessionId (b.drop 34)
  let suites ← parseSuites b
  let b ← parseCompression suites.2
  parseExtensions b suites.1

def recvHsMsg : ℕ → Hs Unit
  | 0 => fail
  | fuel + 1 => do
    let r ← readRecord .flightRec
    update fun s => { s with seqR := s.seqR + 1 }
    refuseAlert (r.rtype = ctAlert ∧ r.body.length = 2) (r.body.getD 1 0)
    refuse (r.rtype ≠ ctHandshake) "unexpected record during handshake"
    rxAdd r.body
    let s ← getConn
    let len := be24 (s.rx.drop 1) + 4
    if s.rx.length ≥ 4 ∧ len = s.rx.length then pure ()
    else do
      refuse (s.rx.length ≥ 4 ∧ len < s.rx.length) "handshake failure"
      recvHsMsg fuel

def recvClientHello (fuel : ℕ) : Hs Bool := do
  recvHsMsg fuel
  let s ← getConn
  refuse (s.rx.getD 0 0 ≠ 1) "handshake failure"
  let reneg ← parseClientHello ((s.rx.drop 4).take (be24 (s.rx.drop 1)))
  transcriptAdd s.rx
  update fun s => { s with rx := [] }
  pure reneg

def sendServerHello (reneg : Bool) : Hs Unit := do
  let s ← getConn
  let sh := [put16 0x0303, s.srandom.val, [0], put16 suite, [0]] ++
    if reneg then [put16 5, put16 0xFF01, put16 1, [0]] else []
  emit .serverHello 0 sh
  hsSend 2 sh.flatten

def sendCertificate (cert : List UInt8) : Hs Unit := do
  let got ← malloc
  refuse (got = false) "out of memory"
  let der := [put24 (3 + cert.length), put24 cert.length, cert]
  emit (.heap (6 + cert.length)) 0 der
  hsSend 11 der.flatten

def decryptTo (kp : Keypair) (inp : List UInt8) : Hs (Option (List UInt8)) := do
  let s ← getConn
  let out := tlsRsaDecryptPkcs1 s.junk kp.mod kp.priv inp
  wrote .rsaBlock 0 kp.mod.length
  wrote .pmsbuf 0 (out.getD []).length
  pure out

def recvKeyExchange (fuel : ℕ) (kp : Keypair) : Hs (List UInt8) := do
  recvHsMsg fuel
  let s ← getConn
  refuse (s.rx.getD 0 0 ≠ 16 ∨ s.rx.length ≠ 4 + 2 + kp.mod.length) "handshake failure"
  transcriptAdd s.rx
  pure (s.rx.drop 6)

def decryptSecret (kp : Keypair) (inp : List UInt8) : Hs (List UInt8) := do
  let out ← decryptTo kp inp
  let pms := out.getD []
  refuse (pms.length ≠ 48 ∨ pms.getD 0 0 ≠ 3 ∨ pms.getD 1 0 ≠ 3) "RSA decryption failed"
  pure pms

def acceptHello (fuel : ℕ) (kp : Keypair) : Hs Unit := do
  refuseGlobal (kp.cert.length < 16 ∨ kp.mod.length < 128 ∨ kp.mod.length > 512)
    "invalid stream or keypair"
  let got ← malloc
  refuseGlobal (got = false) "out of memory"
  let rand ← wantRng .srandom 0 32
  update fun s => { s with srandom := rand }
  let reneg ← recvClientHello fuel
  sendServerHello reneg
  sendCertificate kp.cert
  hsSend 14 []

def tlsAccept (fuel : ℕ) (kp : Keypair) : Hs Unit := do
  acceptHello fuel kp
  let secret ← recvKeyExchange fuel kp
  let pms ← decryptSecret kp secret
  deriveKeys pms
  update fun s => { s with rx := [] }
  finishedLoop acceptRecord fuel
  changeCipherSpec
  sendFinished "server finished"
  update fun s => { s with stage := .established }

inductive Role
  | client (host : List UInt8)
  | server (kp : Keypair)

def Role.run (role : Role) (fuel : ℕ) (env : Env) : Option Unit × Conn :=
  match role with
  | client host => tlsConnect fuel host (newConn env false)
  | server kp => tlsAccept fuel kp (newConn env true)

end Vnu.Tls
