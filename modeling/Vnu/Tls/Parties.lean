import Vnu.Tls.Frames
import Vnu.Tls.ServerKey

/-!
A client and a server with a key that fits: what each of them sends and holds, phase by phase,
when it receives what the other one has to say.
-/
namespace Vnu.Tls

open Lib List Act

variable {fuel : ℕ} {junk junk' : UInt32}

structure Parties where
  host : List UInt8
  kp : Keypair
  clientRandom : List UInt8
  secret : List UInt8
  serverRandom : List UInt8
  enc : List UInt8

namespace Parties

variable (p : Parties)

def crandom : Bytes 32 := bytesOf 32 p.clientRandom

def srandom : Bytes 32 := bytesOf 32 p.serverRandom

def master : Bytes 48 := masterSecret (premaster p.secret) p.crandom p.srandom

def block : List UInt8 := keyBlock p.master p.crandom p.srandom

def helloWire : List UInt8 := wireRecord ctHandshake (message 1 (helloBody p.crandom p.host))

def flightWire : List UInt8 :=
  wireRecord ctHandshake (message 2 (serverHelloBody p.srandom)) ++
    (wireRecord ctHandshake (message 11 (certificateBody p.kp.cert)) ++
      wireRecord ctHandshake (message 14 []))

def keyWire : List UInt8 := wireRecord ctHandshake (message 16 (keyExchangeBody p.enc))

def transcript : List UInt8 :=
  message 1 (helloBody p.crandom p.host) ++ message 2 (serverHelloBody p.srandom) ++
    message 11 (certificateBody p.kp.cert) ++ message 14 [] ++ message 16 (keyExchangeBody p.enc)

structure Keyed (c : Conn) : Prop where
  master : c.master = p.master
  ckey : c.ckey = bytesOf 16 p.block
  skey : c.skey = bytesOf 16 (p.block.drop 16)
  civ : c.civ = bytesOf 4 (p.block.drop 32)
  siv : c.siv = bytesOf 4 (p.block.drop 36)

structure Holds (c : Conn) : Prop extends p.Keyed c where
  hs : c.hs = p.transcript

/-- The two keys fit and the messages fit their records. -/
structure Sound (junk junk' : UInt32) : Prop where
  host : p.host.length ≤ 190
  cert : p.kp.cert.length + 10 ≤ maxPlain
  cert_long : 16 ≤ p.kp.cert.length
  mod : p.kp.mod.length = 256
  key : ∃ e, tlsX509RsaPubkey p.kp.cert 512 8 = ⟨some p.kp.mod, some e⟩
  enc : tlsRsaEncryptPkcs1 junk p.kp.mod (premaster p.secret) = some p.enc
  enc_length : p.enc.length = 256
  dec : tlsRsaDecryptPkcs1 junk' p.kp.mod p.kp.priv p.enc = some (premaster p.secret)

def finishedOver (label : String) (hs : List UInt8) : List UInt8 :=
  message 20 (tlsPrf p.master.val (asciiBytes label ++ sha256Of [hs]) 12)

def clientFinished : List UInt8 :=
  message 20 (tlsPrf p.master.val (asciiBytes "client finished" ++ sha256Of [p.transcript]) 12)

def serverFinished : List UInt8 :=
  message 20 (tlsPrf p.master.val
    (asciiBytes "server finished" ++ sha256Of [p.transcript ++ p.clientFinished]) 12)

def clientEnd : List UInt8 :=
  wireRecord ctCcs [1] ++ wireRecord ctHandshake
    (sealedBody (bytesOf 16 p.block) (bytesOf 4 (p.block.drop 32)) 0 ctHandshake p.clientFinished)

def serverEnd : List UInt8 :=
  wireRecord ctCcs [1] ++ wireRecord ctHandshake
    (sealedBody (bytesOf 16 (p.block.drop 16)) (bytesOf 4 (p.block.drop 36)) 0 ctHandshake
      p.serverFinished)

theorem helloWire_length : p.helloWire.length = 75 + p.host.length := by
  rw [helloWire, wireRecord_length, message_length, helloBody_length]
  omega

theorem flightWire_length : p.flightWire.length = 71 + p.kp.cert.length := by
  have hnil : ([] : List UInt8).length = 0 := rfl
  rw [flightWire, length_append, length_append, wireRecord_length, wireRecord_length,
    wireRecord_length, message_length, message_length, message_length, serverHelloBody_length,
    certificateBody_length]
  omega

theorem end_length (key : Bytes 16) (iv : Bytes 4) {label : String} (hs : List UInt8)
    (hlabel : (asciiBytes label).length ≤ 96) :
    (wireRecord ctCcs [1] ++ wireRecord ctHandshake (sealedBody key iv 0 ctHandshake
      (message 20 (tlsPrf p.master.val (asciiBytes label ++ sha256Of [hs]) 12)))).length = 51 := by
  have hone : [(1 : UInt8)].length = 1 := rfl
  have hprf : (tlsPrf p.master.val (asciiBytes label ++ sha256Of [hs]) 12).length = 12 := by
    apply tlsPrf_length
    rw [length_append, sha256Of_length]
    omega
  rw [length_append, wireRecord_length, wireRecord_length, sealedBody_length, message_length,
    hprf, hone]

theorem clientEnd_length : p.clientEnd.length = 51 := p.end_length _ _ _ (by decide)

theorem serverEnd_length : p.serverEnd.length = 51 := p.end_length _ _ _ (by decide)

end Parties

def connectHello (host : List UInt8) : Hs Unit := do
  let got ← malloc
  refuseGlobal (got = false) "out of memory"
  let rand ← wantRng .crandom 0 32
  update fun s => { s with crandom := rand }
  sendClientHello host

def connectKeys : Hs Unit := do
  let pms ← clientKeyExchange
  deriveKeys pms

theorem tlsConnect_eq (fuel : ℕ) (host : List UInt8) :
    tlsConnect fuel host = (do
      connectHello host
      flightLoop fuel
      connectKeys
      changeCipherSpec
      sendFinished "client finished"
      finishedLoop connectRecord fuel
      update fun s => { s with stage := .established }) := by
  simp only [tlsConnect, connectHello, connectKeys, bind_assoc]

section

variable {p : Parties} {m : ℕ} {env : Env} {rngs : List (List UInt8)} {rest : List UInt8}

def Parties.greeted (p : Parties) (env : Env) (rngs : List (List UInt8)) : Conn :=
  { ({ (newConn env false).quiet with rngs := p.secret :: rngs, crandom := p.crandom }).said 1
      (helloBody p.crandom p.host) with stage := .awaitShd }

def Parties.answered (p : Parties) (env : Env) (rngs : List (List UInt8)) (rest : List UInt8) :
    Conn :=
  { p.greeted env rngs with
    peer := rest
    seqR := 0 + 1 + 1 + 1
    hs := message 1 (helloBody p.crandom p.host) ++ message 2 (serverHelloBody p.srandom) ++
      message 11 (certificateBody p.kp.cert) ++ message 14 []
    trace := [.message 14, .message 11, .message 2]
    rx := []
    srandom := p.srandom
    peerMod := p.kp.mod
    stage := .flightDone }

def Parties.clientKeyed (p : Parties) (env : Env) (rngs : List (List UInt8)) (rest : List UInt8) :
    Conn :=
  (({ p.answered env rngs rest with rngs }).said 16 (keyExchangeBody p.enc)).keyed
    (premaster p.secret)

theorem goes_connectHello (hrng : env.rngs = p.clientRandom :: p.secret :: rngs)
    (hhost : p.host.length ≤ 190) :
    Goes (connectHello p.host) (m + 2) (newConn env false).quiet () m (p.greeted env rngs) := by
  have hdraw := goes_wantRng (m := m + 1) (c := (newConn env false).quiet) .crandom 0 32 hrng
  refine goes_malloc.bind ((goes_refuseGlobal nofun).bind (hdraw.bind ?_))
  exact .set (fun _ => rfl) (fun _ => rfl) (goes_sendClientHello rfl hhost rfl)

theorem goes_connectFlight (hp : p.Sound junk junk') (hpeer : env.peer = p.flightWire ++ rest) :
    Goes (flightLoop (fuel + 3)) (m + 6) (p.greeted env rngs) () m (p.answered env rngs rest) := by
  obtain ⟨e, hkey⟩ := hp.key
  have hsplit : (p.greeted env rngs).peer =
      wireRecord ctHandshake (message 2 (serverHelloBody p.srandom)) ++
        (wireRecord ctHandshake (message 11 (certificateBody p.kp.cert)) ++
          (wireRecord ctHandshake (message 14 []) ++ rest)) := by
    show env.peer = _
    rw [hpeer, Parties.flightWire, append_assoc, append_assoc]
  refine goes_flightRecord hsplit rfl ?_ (goes_parseServerHello p.srandom) ?_
  · rw [serverHelloBody_length]
    decide
  · exact goes_flightTail rfl rfl Stage.noConfusion hp.cert hkey

theorem Parties.Sound.key_room (hp : p.Sound junk junk') :
    ([] ++ p.helloWire).length + 267 ≤ sendLimit := by
  have hlen := p.helloWire_length
  have hhost := hp.host
  rw [nil_append, sendLimit]
  omega

theorem goes_connectKeys (hp : p.Sound env.junk junk') :
    Goes connectKeys (m + 2) (p.answered env rngs rest) () m (p.clientKeyed env rngs rest) :=
  .bind (goes_clientKeyExchange rfl hp.mod rfl hp.enc hp.enc_length hp.key_room)
    goes_deriveKeys

theorem holds_clientKeyed : p.Holds (p.clientKeyed env rngs rest) :=
  ⟨⟨rfl, rfl, rfl, rfl, rfl⟩, rfl⟩

theorem clientKeyed_sent : (p.clientKeyed env rngs rest).sent = p.helloWire ++ p.keyWire := rfl

end

section

variable {p : Parties} {c : Conn} {m : ℕ} {rest : List UInt8}

theorem Parties.Keyed.finishedOver (h : p.Keyed c) (label : String) :
    finishedMessage label c = p.finishedOver label c.hs := by
  rw [finishedMessage, verifyValue, h.master]
  rfl

theorem Parties.Keyed.clientFinished (h : p.Keyed c) (hhs : c.hs = p.transcript) :
    finishedMessage "client finished" c = p.clientFinished := by
  rw [h.finishedOver, hhs]
  rfl

theorem closed_sent (c : Conn) (label : String) :
    (c.switched.closed label).sent = c.sent ++ (wireRecord ctCcs [1] ++ wireRecord ctHandshake
      (sealedBody c.writeKey c.writeIv 0 ctHandshake (finishedMessage label c))) := by
  rw [← append_assoc]
  rfl

theorem Parties.Keyed.client_sends (h : p.Keyed c) (hhs : c.hs = p.transcript)
    (hside : c.isServer = false) :
    (c.switched.closed "client finished").sent = c.sent ++ p.clientEnd := by
  rw [closed_sent, Conn.writeKey, Conn.writeIv, hside, h.ckey, h.civ, h.clientFinished hhs]
  rfl

theorem Parties.Keyed.server_sends (h : p.Keyed c) (hhs : c.hs = p.transcript ++ p.clientFinished)
    (hside : c.isServer = true) :
    (c.switched.closed "server finished").sent = c.sent ++ p.serverEnd := by
  rw [closed_sent, Conn.writeKey, Conn.writeIv, hside, h.skey, h.siv, h.finishedOver, hhs]
  rfl

structure Parties.Done (p : Parties) (c : Conn) : Prop extends p.Keyed c where
  checked : ∃ v trace, c.trace = .finished v v :: trace

theorem Parties.Done.of_quiet {s : Conn} (h : p.Done c) (hs : s.quiet = c) : p.Done s := by
  obtain rfl := hs
  exact ⟨⟨h.master, h.ckey, h.skey, h.civ, h.siv⟩, h.checked⟩

theorem goes_clientEnd (h : p.Keyed c)
    (hpeer : c.peer = wireRecord ctCcs [1] ++ wireRecord ctHandshake
      (sealedBody (bytesOf 16 (p.block.drop 16)) (bytesOf 4 (p.block.drop 36)) 0 ctHandshake
        (p.finishedOver "server finished" c.hs)) ++ rest) (fuel : ℕ) :
    ∃ c', Goes (finishedLoop connectRecord (fuel + 2)) m c () m c' ∧ p.Done c' ∧
      c'.sent = c.sent ∧ c'.isServer = c.isServer ∧ c'.peer = rest ∧ c'.seqR = 1 ∧
      ∃ v, c'.trace = .finished v v :: .ccs :: c.trace := by
  have hsplit : c.peer = wireRecord ctCcs [1] ++ (wireRecord ctHandshake (sealedBody c.skey c.siv 0
      ctHandshake (finishedMessage "server finished" { c.warned with peer := rest })) ++ rest) := by
    have hfin : finishedMessage "server finished" { c.warned with peer := rest } =
        p.finishedOver "server finished" c.hs := h.finishedOver _
    rw [hpeer, hfin, h.skey, h.siv, append_assoc]
  refine ⟨_, goes_finishedLoop hsplit (carriesFinished_sealedBody (by decide)).length
      goes_connectRecord_ccs (goes_connectRecord rfl ?_),
    ⟨⟨h.master, h.ckey, h.skey, h.civ, h.siv⟩, _, _, rfl⟩, rfl, rfl, rfl, rfl, _, rfl⟩
  exact carriesFinished_sealedBody (by decide)

theorem goes_serverCheck (h : p.Keyed c) (hhs : c.hs = p.transcript)
    (hpeer : c.peer = p.clientEnd ++ rest) (fuel : ℕ) :
    ∃ c', Goes (finishedLoop acceptRecord (fuel + 2)) (m + 1) c () m c' ∧ p.Done c' ∧
      c'.hs = p.transcript ++ p.clientFinished ∧ c'.sent = c.sent ∧ c'.isServer = c.isServer := by
  have hfin : finishedMessage "client finished" { c.warned with peer := rest } =
      p.clientFinished := h.clientFinished hhs
  have hsplit : c.peer = wireRecord ctCcs [1] ++ (wireRecord ctHandshake (sealedBody c.ckey c.civ 0
      ctHandshake (finishedMessage "client finished" { c.warned with peer := rest })) ++ rest) := by
    rw [hpeer, hfin, Parties.clientEnd, h.ckey, h.civ, append_assoc]
  refine ⟨_, goes_finishedLoop hsplit (carriesFinished_sealedBody (by decide)).length
      goes_acceptRecord_ccs (goes_acceptRecord rfl ?_),
    ⟨⟨h.master, h.ckey, h.skey, h.civ, h.siv⟩, _, _, rfl⟩, ?_, rfl, rfl⟩
  · exact carriesFinished_sealedBody (by decide)
  · show c.hs ++ recordText c.ckey c.civ _ = _
    rw [recordText_sealedBody, hfin, hhs]

end

section

variable {p : Parties} {m : ℕ} {env : Env} {rngs : List (List UInt8)} {rest : List UInt8}

def Parties.welcomed (p : Parties) (env : Env) (rngs : List (List UInt8)) (rest : List UInt8) :
    Conn :=
  { (newConn env true).quiet with
    rngs
    srandom := p.srandom
    peer := rest
    seqR := 0 + 1
    rx := []
    crandom := p.crandom
    hs := [] ++ message 1 (helloBody p.crandom p.host) }

def Parties.offered (p : Parties) (env : Env) (rngs : List (List UInt8)) (rest : List UInt8) :
    Conn :=
  (((p.welcomed env rngs rest).said 2 (serverHelloBody p.srandom)).said 11
    (certificateBody p.kp.cert)).said 14 []

theorem offered_sent : (p.offered env rngs rest).sent = p.flightWire := by
  show [] ++ wireRecord ctHandshake (message 2 _) ++ wireRecord ctHandshake (message 11 _) ++
    wireRecord ctHandshake (message 14 []) = _
  rw [append_assoc]
  rfl

theorem goes_acceptHello (hp : p.Sound junk junk')
    (hrng : env.rngs = p.serverRandom :: rngs) (hpeer : env.peer = p.helloWire ++ rest) :
    Goes (acceptHello (fuel + 1) p.kp) (m + 10) (newConn env true).quiet () m
      (p.offered env rngs rest) := by
  have hdraw := goes_wantRng (m := m + 9) (c := (newConn env true).quiet) .srandom 0 32 hrng
  have hmod := hp.mod
  have hlong := hp.cert_long
  have hcert := hp.cert
  have hmax : maxPlain = 16384 := rfl
  refine (goes_refuseGlobal (by omega)).bind (goes_malloc.bind ((goes_refuseGlobal nofun).bind ?_))
  refine hdraw.bind (.set (fun _ => rfl) (fun _ => rfl) ?_)
  refine .bind (goes_recvClientHello hp.host hpeer rfl) ?_
  refine .bind (goes_sendServerHello rfl rfl) (.bind (goes_sendCertificate rfl hcert ?_) ?_)
  · show ([] ++ wireRecord ctHandshake (message 2 (serverHelloBody p.srandom))).length +
      (p.kp.cert.length + 15) ≤ sendLimit
    rw [nil_append, wireRecord_length, message_length, serverHelloBody_length, sendLimit]
    omega
  · refine goes_hsSend rfl (by decide) ?_
    show ([] ++ wireRecord ctHandshake (message 2 (serverHelloBody p.srandom)) ++
      wireRecord ctHandshake (message 11 (certificateBody p.kp.cert))).length + (0 + 9) ≤ sendLimit
    rw [nil_append, length_append, wireRecord_length, wireRecord_length, message_length,
      message_length, serverHelloBody_length, certificateBody_length, sendLimit]
    omega

def Parties.serverKeyed (p : Parties) (env : Env) (rngs : List (List UInt8))
    (all rest : List UInt8) :
    Conn :=
  { ({ p.offered env rngs all with
      peer := rest
      seqR := 0 + 1 + 1
      rx := message 16 (keyExchangeBody p.enc)
      hs := (p.offered env rngs all).hs ++ message 16 (keyExchangeBody p.enc) }).keyed
    (premaster p.secret) with rx := [] }

theorem holds_serverKeyed {all : List UInt8} : p.Holds (p.serverKeyed env rngs all rest) :=
  ⟨⟨rfl, rfl, rfl, rfl, rfl⟩, rfl⟩

def acceptKeys (fuel : ℕ) (kp : Keypair) : Hs Unit := do
  let secret ← recvKeyExchange fuel kp
  let pms ← decryptSecret kp secret
  deriveKeys pms
  update fun s => { s with rx := [] }

theorem tlsAccept_eq (fuel : ℕ) (kp : Keypair) :
    tlsAccept fuel kp = (do
      acceptHello fuel kp
      acceptKeys fuel kp
      finishedLoop acceptRecord fuel
      changeCipherSpec
      sendFinished "server finished"
      update fun s => { s with stage := .established }) := by
  simp only [tlsAccept, acceptKeys, bind_assoc]

theorem goes_acceptKeys (hp : p.Sound junk env.junk) :
    Goes (acceptKeys (fuel + 1) p.kp) (m + 2) (p.offered env rngs (p.keyWire ++ rest)) () m
      (p.serverKeyed env rngs (p.keyWire ++ rest) rest) := by
  refine .bind (goes_recvKeyExchange rfl rfl hp.mod hp.enc_length) ?_
  refine .bind (goes_decryptSecret hp.dec) (.bind goes_deriveKeys ?_)
  exact goes_set (fun _ => rfl) fun _ => rfl

end

end Vnu.Tls
