import Vnu.Tls.Parties

/-!
A client and a server that run the handshake with each other over a reliable stream. What a side
sends first depends on nothing it receives, so the streams are found step by step.
-/
namespace Vnu.Tls

open Lib List Act Nat

variable {α : Type} {m : ℕ} {c : Conn} {pre : List UInt8} {junk junk' : UInt32}

def Sends {α : Type} (x : Hs α) (m : ℕ) (c : Conn) (pre : List UInt8) : Prop :=
  ∀ s : Conn, s.quiet = c → Supplied m s → pre <+: (x s).2.sent

theorem Sends.stop {x : Hs α} (hx : Grows x) (hpre : c.sent = pre) : Sends x m c pre := by
  rintro s rfl -
  rw [← hpre]
  exact hx s

theorem Goes.sends {β : Type} {x : Hs α} {f : α → Hs β} {a : α} {m' : ℕ} {c' : Conn}
    (hx : Goes x m c a m' c') (hf : Sends (f a) m' c' pre) :
    Sends (x >>= f) m c pre := by
  intro s hs hsup
  obtain ⟨a', s', hrun, rfl, hs', hsup'⟩ := (hx.ends s hs hsup).returns
  rw [bind_of_some hrun]
  exact hf s' hs' hsup'

/-- Every call transfers something and all memory that is asked for is there. -/
structure Env.Reliable (env : Env) : Prop where
  sizes_pos : ∀ n ∈ env.sizes, 0 < n
  sizes : env.peer.length ≤ env.sizes.length
  sends_pos : ∀ n ∈ env.sends, 0 < n
  sends : sendLimit ≤ env.sends.length
  mallocs_true : ∀ b ∈ env.mallocs, b = true
  mallocs : 14 ≤ env.mallocs.length

theorem Env.Reliable.supplied {env : Env} (h : env.Reliable) (hm : m ≤ 14) (isServer : Bool) :
    Supplied m (newConn env isServer) :=
  ⟨h.sizes_pos, h.sizes, h.sends_pos, h.sends, h.mallocs_true, hm.trans h.mallocs⟩

structure Agree (client server : Conn) : Prop where
  established : client.stage = .established ∧ server.stage = .established
  master : client.master = server.master
  up : client.writeKey = server.readKey ∧ client.writeIv = server.readIv
  down : server.writeKey = client.readKey ∧ server.writeIv = client.readIv
  client_checked : ∃ v trace, client.trace = .finished v v :: trace
  server_checked : ∃ v trace, server.trace = .finished v v :: trace

section

variable {p : Parties} {envC envS : Env} {rngsC rngsS : List (List UInt8)} {rest : List UInt8}
  {fuel : ℕ}

theorem client_sends_hello (hrng : envC.rngs = p.clientRandom :: p.secret :: rngsC)
    (hhost : p.host.length ≤ 190) (hrel : envC.Reliable) :
    p.helloWire <+: (tlsConnect fuel p.host (newConn envC false)).2.sent := by
  have hrest : Grows (do
      flightLoop fuel
      connectKeys
      changeCipherSpec
      sendFinished "client finished"
      finishedLoop connectRecord fuel
      update fun s : Conn => { s with stage := .established }) := by
    refine .bind (mute_flightLoop fuel).grows fun _ => .bind ?_ fun _ => ?_
    · exact .bind clear_clientKeyExchange.grows fun _ => clear_deriveKeys.grows
    refine .bind grows_changeCipherSpec fun _ => .bind (grows_sendFinished _) fun _ => ?_
    refine .bind (mute_finishedLoop mute_connectRecord _).grows fun _ => ?_
    exact .update fun _ => prefix_refl _
  have hsends : Sends (tlsConnect fuel p.host) 2 (newConn envC false).quiet p.helloWire := by
    rw [tlsConnect_eq]
    exact (goes_connectHello (m := 0) hrng hhost).sends (Sends.stop hrest rfl)
  exact hsends _ rfl (hrel.supplied (by decide) false)

theorem server_sends_flight (hp : p.Sound junk junk')
    (hrng : envS.rngs = p.serverRandom :: rngsS) (hrel : envS.Reliable)
    (hpeer : envS.peer = p.helloWire ++ rest) :
    p.flightWire <+: (tlsAccept (fuel + 1) p.kp (newConn envS true)).2.sent := by
  have hrest : Grows (do
      acceptKeys (fuel + 1) p.kp
      finishedLoop acceptRecord (fuel + 1)
      changeCipherSpec
      sendFinished "server finished"
      update fun s : Conn => { s with stage := .established }) := by
    refine .bind ?_ fun _ => .bind (mute_finishedLoop mute_acceptRecord _).grows fun _ => ?_
    · refine .bind inner_recvKeyExchange.mute.grows fun _ => ?_
      refine .bind moves_decryptSecret fun _ => ?_
      exact .bind clear_deriveKeys.grows fun _ => .update fun _ => prefix_refl _
    · refine .bind grows_changeCipherSpec fun _ => .bind (grows_sendFinished _) fun _ => ?_
      exact .update fun _ => prefix_refl _
  have hsends : Sends (tlsAccept (fuel + 1) p.kp) 10 (newConn envS true).quiet p.flightWire := by
    rw [tlsAccept_eq]
    exact (goes_acceptHello (m := 0) hp hrng hpeer).sends (Sends.stop hrest offered_sent)
  exact hsends _ rfl (hrel.supplied (by decide) true)

theorem clientKeyed_fits (hp : p.host.length ≤ 190) (henc : p.enc.length = 256) :
    (p.clientKeyed envC rngsC rest).sent.length + 51 ≤ sendLimit := by
  rw [clientKeyed_sent, length_append, p.helloWire_length, Parties.keyWire, wireRecord_length,
    message_length, keyExchangeBody_length henc, sendLimit]
  omega

theorem switched_fits (h : c.sent.length + 51 ≤ sendLimit) :
    c.switched.sent.length + 45 ≤ sendLimit := by
  show (c.sent ++ wireRecord ctCcs [1]).length + 45 ≤ sendLimit
  rw [length_append, wireRecord_length]
  exact h

theorem client_sends_all (hp : p.Sound envC.junk junk')
    (hrng : envC.rngs = p.clientRandom :: p.secret :: rngsC) (hrel : envC.Reliable)
    (hpeer : envC.peer = p.flightWire ++ rest) :
    p.helloWire ++ p.keyWire ++ p.clientEnd <+:
      (tlsConnect (fuel + 3) p.host (newConn envC false)).2.sent := by
  have hfits : (p.clientKeyed envC rngsC rest).sent.length + 51 ≤ sendLimit :=
    clientKeyed_fits hp.host hp.enc_length
  have hholds : p.Holds (p.clientKeyed envC rngsC rest) := holds_clientKeyed
  have hrest : Grows (do
      finishedLoop connectRecord (fuel + 3)
      update fun s : Conn => { s with stage := .established }) :=
    .bind (mute_finishedLoop mute_connectRecord _).grows fun _ =>
      .update fun _ => prefix_refl _
  have hall := hholds.client_sends hholds.hs rfl
  rw [clientKeyed_sent] at hall
  have hsends : Sends (tlsConnect (fuel + 3) p.host) 11 (newConn envC false).quiet
      (p.helloWire ++ p.keyWire ++ p.clientEnd) := by
    rw [tlsConnect_eq]
    refine (goes_connectHello (m := 9) hrng hp.host).sends ?_
    refine (goes_connectFlight (m := 3) hp hpeer).sends ((goes_connectKeys (m := 1) hp).sends ?_)
    refine (goes_changeCipherSpec (m := 1) (by omega)).sends ?_
    exact (goes_sendFinished (m := 0) (by decide) rfl (switched_fits hfits)).sends
      (Sends.stop hrest hall)
  exact hsends _ rfl (hrel.supplied (by decide) false)

theorem server_completes (hp : p.Sound junk envS.junk)
    (hrng : envS.rngs = p.serverRandom :: rngsS) (hrel : envS.Reliable)
    (hpeer : envS.peer = p.helloWire ++ p.keyWire ++ p.clientEnd ++ rest) (fuel : ℕ) :
    ∃ s', tlsAccept (fuel + 2) p.kp (newConn envS true) = (some (), s') ∧ p.Done s' ∧
      s'.sent = p.flightWire ++ p.serverEnd ∧ s'.stage = .established ∧ s'.isServer = true := by
  have hpeer : envS.peer = p.helloWire ++ (p.keyWire ++ (p.clientEnd ++ rest)) := by
    rw [hpeer]
    simp only [append_assoc]
  set c := p.serverKeyed envS rngsS (p.keyWire ++ (p.clientEnd ++ rest)) (p.clientEnd ++ rest)
  have hholds : p.Holds c := holds_serverKeyed
  obtain ⟨c', hcheck, hdone, hhs, hsent, hside⟩ :=
    goes_serverCheck (m := 1) hholds.toKeyed hholds.hs (show c.peer = _ from rfl) fuel
  have hsent : c'.sent = p.flightWire := hsent.trans offered_sent
  have hside : c'.isServer = true := hside
  have hfits : c'.sent.length + 51 ≤ sendLimit := by
    have hcert := hp.cert
    have hmax : maxPlain = 16384 := rfl
    rw [hsent, p.flightWire_length, sendLimit]
    omega
  have hgoes : Goes (tlsAccept (fuel + 2) p.kp) 14 (newConn envS true).quiet () 0
      { c'.switched.closed "server finished" with stage := .established } := by
    rw [tlsAccept_eq]
    refine (goes_acceptHello (m := 4) hp hrng hpeer).bind ((goes_acceptKeys (m := 2) hp).bind ?_)
    refine hcheck.bind ((goes_changeCipherSpec (by omega)).bind ?_)
    refine .bind (goes_sendFinished (by decide) rfl (switched_fits hfits)) ?_
    exact goes_set (fun _ => rfl) fun _ => rfl
  obtain ⟨_, s', hrun, rfl, hs', -⟩ := (hgoes.ends _ rfl (hrel.supplied le_rfl true)).returns
  have hdone' : p.Done { c'.switched.closed "server finished" with stage := .established } :=
    ⟨⟨hdone.master, hdone.ckey, hdone.skey, hdone.civ, hdone.siv⟩, hdone.checked⟩
  refine ⟨s', hrun, hdone'.of_quiet hs', ?_, ?_, ?_⟩
  · show s'.quiet.sent = _
    rw [hs', ← hsent]
    exact hdone.server_sends hhs hside
  · show s'.quiet.stage = _
    rw [hs']
  · show s'.quiet.isServer = _
    rw [hs']
    exact hside

structure Parties.Joined (p : Parties) (rest : List UInt8) (s : Conn) : Prop extends p.Done s where
  sent : s.sent = p.helloWire ++ p.keyWire ++ p.clientEnd
  stage : s.stage = .established
  side : s.isServer = false
  peer : s.peer = rest
  seqR : s.seqR = 1
  supplied : Supplied 3 s
  trace : ∃ v, s.trace = [.finished v v, .ccs, .message 14, .message 11, .message 2]

/-- The client against a server that keeps to the protocol, down to what is left unread. -/
theorem client_joins (hp : p.Sound envC.junk junk')
    (hrng : envC.rngs = p.clientRandom :: p.secret :: rngsC) (hrel : envC.Reliable)
    (hpeer : envC.peer = p.flightWire ++ (p.serverEnd ++ rest)) (fuel : ℕ) :
    ∃ s', tlsConnect (fuel + 3) p.host (newConn envC false) = (some (), s') ∧ p.Joined rest s' := by
  set c := p.clientKeyed envC rngsC (p.serverEnd ++ rest)
  have hfits : c.sent.length + 51 ≤ sendLimit := clientKeyed_fits hp.host hp.enc_length
  have hholds : p.Holds c := holds_clientKeyed
  have hkeyed : p.Keyed (c.switched.closed "client finished") :=
    ⟨hholds.master, hholds.ckey, hholds.skey, hholds.civ, hholds.siv⟩
  have hhs : (c.switched.closed "client finished").hs = p.transcript ++ p.clientFinished := by
    show c.hs ++ finishedMessage "client finished" c = _
    rw [hholds.clientFinished hholds.hs, hholds.hs]
  obtain ⟨c', hend, hdone, hsent, hside, hrest, hseq, v, htrace⟩ :=
    goes_clientEnd (m := 3) hkeyed (by rw [hhs]; rfl) (fuel + 1)
  have hside : c'.isServer = false := hside
  rw [hholds.client_sends hholds.hs rfl, clientKeyed_sent] at hsent
  have hgoes : Goes (tlsConnect (fuel + 3) p.host) 14 (newConn envC false).quiet () 3
      { c' with stage := .established } := by
    rw [tlsConnect_eq]
    refine (goes_connectHello (m := 12) hrng hp.host).bind ?_
    refine (goes_connectFlight (m := 6) hp hpeer).bind ((goes_connectKeys (m := 4) hp).bind ?_)
    refine (goes_changeCipherSpec (c := c) (by omega)).bind ?_
    refine .bind (goes_sendFinished (by decide) rfl (switched_fits hfits)) ?_
    exact hend.bind (goes_set (fun _ => rfl) fun _ => rfl)
  obtain ⟨_, s', hrun, rfl, hs', hsup⟩ := (hgoes.ends _ rfl (hrel.supplied le_rfl false)).returns
  have hdone' : p.Done { c' with stage := .established } :=
    ⟨⟨hdone.master, hdone.ckey, hdone.skey, hdone.civ, hdone.siv⟩, hdone.checked⟩
  refine ⟨s', hrun, hdone'.of_quiet hs', ?_, ?_, ?_, ?_, ?_, hsup, v, ?_⟩
  · show s'.quiet.sent = _
    rw [hs']
    exact hsent
  · show s'.quiet.stage = _
    rw [hs']
  · show s'.quiet.isServer = _
    rw [hs']
    exact hside
  · show s'.quiet.peer = _
    rw [hs']
    exact hrest
  · show s'.quiet.seqR = _
    rw [hs']
    exact hseq
  · show s'.quiet.trace = _
    rw [hs']
    exact htrace

theorem client_completes (hp : p.Sound envC.junk junk')
    (hrng : envC.rngs = p.clientRandom :: p.secret :: rngsC) (hrel : envC.Reliable)
    (hpeer : envC.peer = p.flightWire ++ p.serverEnd) (fuel : ℕ) :
    ∃ s', tlsConnect (fuel + 3) p.host (newConn envC false) = (some (), s') ∧ p.Done s' ∧
      s'.sent = p.helloWire ++ p.keyWire ++ p.clientEnd ∧ s'.stage = .established ∧
        s'.isServer = false := by
  rw [← append_nil p.serverEnd] at hpeer
  obtain ⟨s', hrun, hjoined⟩ := client_joins hp hrng hrel hpeer fuel
  exact ⟨s', hrun, hjoined.toDone, hjoined.sent, hjoined.stage, hjoined.side⟩

end

/-- Streams that hold what both sides have to say are the streams of their runs. -/
theorem streams_joined {p : Parties} {envC envS : Env} {rngsC rngsS : List (List UInt8)}
    (hp : p.Sound envC.junk envS.junk) (hrngC : envC.rngs = p.clientRandom :: p.secret :: rngsC)
    (hrngS : envS.rngs = p.serverRandom :: rngsS) (hrelC : envC.Reliable) (hrelS : envS.Reliable)
    (hdown : envC.peer = p.flightWire ++ p.serverEnd)
    (hup : envS.peer = p.helloWire ++ p.keyWire ++ p.clientEnd) :
    envC.peer = ((Role.server p.kp).run 2 envS).2.sent ∧
      envS.peer = ((Role.client p.host).run 3 envC).2.sent := by
  obtain ⟨client, hclient, -, hsentC, -⟩ := client_completes hp hrngC hrelC hdown 0
  obtain ⟨server, hserver, -, hsentS, -⟩ :=
    server_completes hp hrngS hrelS (hup.trans (append_nil _).symm) 0
  rw [Role.run, Role.run, hclient, hserver, hdown, hup]
  exact ⟨hsentS.symm, hsentC.symm⟩

theorem Parties.Done.agree {p : Parties} {client server : Conn} (hC : p.Done client)
    (hS : p.Done server) (hestC : client.stage = .established) (hestS : server.stage = .established)
    (hsideC : client.isServer = false) (hsideS : server.isServer = true) : Agree client server := by
  refine ⟨⟨hestC, hestS⟩, hC.master.trans hS.master.symm, ⟨?_, ?_⟩, ⟨?_, ?_⟩,
    hC.checked, hS.checked⟩
  · rw [Conn.writeKey, Conn.readKey, hsideC, hsideS, hC.ckey, hS.ckey]
    rfl
  · rw [Conn.writeIv, Conn.readIv, hsideC, hsideS, hC.civ, hS.civ]
    rfl
  · rw [Conn.writeKey, Conn.readKey, hsideC, hsideS, hC.skey, hS.skey]
    rfl
  · rw [Conn.writeIv, Conn.readIv, hsideC, hsideS, hC.siv, hS.siv]
    rfl

/-- A client and a server with a key of 2048 bits complete the handshake with the same master secret
and matching keys. -/
theorem handshake_agreement {host : List UInt8} {kp : Keypair} {envC envS : Env} {fuelC fuelS : ℕ}
    (hfuelC : 3 ≤ fuelC) (hfuelS : 2 ≤ fuelS) (hhost : host.length ≤ 190)
    (hcert : kp.cert.length + 10 ≤ maxPlain) (hcarries : Carries kp.cert kp.mod rsaExponent)
    (hkp : kp.Usable) (hrelC : envC.Reliable) (hrelS : envS.Reliable)
    (hrngC : 2 ≤ envC.rngs.length) (hrngS : 1 ≤ envS.rngs.length)
    (hdown : envC.peer = ((Role.server kp).run fuelS envS).2.sent)
    (hup : envS.peer = ((Role.client host).run fuelC envC).2.sent) :
    ∃ client server, (Role.client host).run fuelC envC = (some (), client) ∧
      (Role.server kp).run fuelS envS = (some (), server) ∧ Agree client server := by
  obtain ⟨fuelC, rfl⟩ := Nat.exists_eq_add_of_le' hfuelC
  obtain ⟨fuelS, rfl⟩ := Nat.exists_eq_add_of_le' hfuelS
  obtain ⟨clientRandom, rngs, hrngs⟩ :=
    exists_cons_of_length_pos (by omega : 0 < envC.rngs.length)
  obtain ⟨secret, rngsC, rfl⟩ := exists_cons_of_length_pos
    (show 0 < rngs.length by rw [hrngs, length_cons] at hrngC; omega)
  obtain ⟨serverRandom, rngsS, hrngS⟩ := exists_cons_of_length_pos hrngS
  obtain ⟨enc, henc, henclen, hdec⟩ := hkp.transport secret envC.junk
  obtain ⟨p, hpdef⟩ : ∃ p : Parties, p = ⟨host, kp, clientRandom, secret, serverRandom, enc⟩ :=
    ⟨_, rfl⟩
  have hmod := hkp.length
  have hp : p.Sound envC.junk envS.junk := by
    subst hpdef
    have hlong : 16 ≤ kp.cert.length := le_trans (by omega) hcarries.length_le
    exact ⟨hhost, hcert, hlong, hmod, ⟨_, hcarries.pubkey (by omega) (by decide)⟩, henc, henclen,
      hdec _⟩
  obtain rfl : host = p.host := by rw [hpdef]
  obtain rfl : kp = p.kp := by rw [hpdef]
  have hrngs : envC.rngs = p.clientRandom :: p.secret :: rngsC := by rw [hrngs, hpdef]
  have hrngS : envS.rngs = p.serverRandom :: rngsS := by rw [hrngS, hpdef]
  -- the hello, the flight, the rest of the client, the rest of the server
  obtain ⟨afterHello, hhello⟩ : p.helloWire <+: envS.peer :=
    hup ▸ client_sends_hello hrngs hhost hrelC
  obtain ⟨afterFlight, hflight⟩ : p.flightWire <+: envC.peer :=
    hdown ▸ server_sends_flight hp hrngS hrelS hhello.symm
  obtain ⟨rest, hall⟩ : p.helloWire ++ p.keyWire ++ p.clientEnd <+: envS.peer :=
    hup ▸ client_sends_all hp hrngs hrelC hflight.symm
  obtain ⟨server, hserver, hdoneS, hsent, hestS, hsideS⟩ :=
    server_completes hp hrngS hrelS hall.symm fuelS
  have hpeer : envC.peer = p.flightWire ++ p.serverEnd := by
    rw [hdown, ← hsent]
    show (tlsAccept _ _ _).2.sent = _
    rw [hserver]
  obtain ⟨client, hclient, hdoneC, -, hestC, hsideC⟩ := client_completes hp hrngs hrelC hpeer fuelC
  exact ⟨client, server, hclient, hserver, hdoneC.agree hdoneS hestC hestS hsideC hsideS⟩

def sampleParties : Parties :=
  ⟨[], serverKeypair, [1], [2], [3],
    (tlsRsaEncryptPkcs1 0 serverKeypair.mod (premaster [2])).getD []⟩

def byteEnv (peer : List UInt8) (rngs : List (List UInt8)) : Env where
  sizes := replicate 65536 1
  peer := peer
  rngs := rngs
  mallocs := replicate 14 true
  sends := replicate 65536 1
  junk := 0

def clientEnv : Env := byteEnv (sampleParties.flightWire ++ sampleParties.serverEnd) [[1], [2]]

def serverEnv : Env :=
  byteEnv (sampleParties.helloWire ++ sampleParties.keyWire ++ sampleParties.clientEnd) [[3]]

theorem clientEnv_rngs :
    clientEnv.rngs = sampleParties.clientRandom :: sampleParties.secret :: [] := rfl

theorem byteEnv_peer {peer : List UInt8} {rngs : List (List UInt8)} :
    (byteEnv peer rngs).peer = peer := rfl

theorem clientEnv_peer : clientEnv.peer = sampleParties.flightWire ++ sampleParties.serverEnd :=
  byteEnv_peer

theorem serverEnv_rngs : serverEnv.rngs = sampleParties.serverRandom :: [] := rfl

theorem byteEnv_reliable {peer : List UInt8} (rngs : List (List UInt8))
    (hpeer : peer.length ≤ 65536) :
    (byteEnv peer rngs).Reliable where
  sizes_pos _ hn := (eq_of_mem_replicate hn).symm ▸ Nat.one_pos
  sizes := hpeer.trans_eq length_replicate.symm
  sends_pos _ hn := (eq_of_mem_replicate hn).symm ▸ Nat.one_pos
  sends := (length_replicate (a := 1)).ge
  mallocs_true _ hb := eq_of_mem_replicate hb
  mallocs := (length_replicate (a := true)).ge

theorem sampleParties_sound : sampleParties.Sound 0 0 := by
  obtain ⟨enc, henc, hlen, hdec⟩ := serverKeypair_usable.transport [2] 0
  have hparty : sampleParties = ⟨[], serverKeypair, [1], [2], [3], enc⟩ := by
    rw [sampleParties, henc, Option.getD_some]
  have hcert : serverKeypair.cert.length = 299 := by
    show (_ ++ _ ++ _ ++ serverModulus ++ _).length = 299
    simp only [length_append, serverModulus, Lib.Limbs.toBytes_length]
    rfl
  have hmod : serverModulus.length ≤ 512 := by
    rw [← serverKeypair_mod, serverKeypair_usable.length]
    decide
  rw [hparty]
  exact ⟨zero_le _, by rw [hcert]; decide, by rw [hcert]; decide, serverKeypair_usable.length,
    ⟨_, serverCertificate_carries.pubkey hmod (by decide)⟩, henc, hlen, hdec 0⟩

theorem Parties.Sound.wires_short {p : Parties} (hp : p.Sound junk junk') :
    (p.flightWire ++ p.serverEnd).length ≤ 65536 ∧
      (p.helloWire ++ p.keyWire ++ p.clientEnd).length ≤ 65536 := by
  have hcert := hp.cert
  have hhost := hp.host
  have hmax : maxPlain = 16384 := rfl
  rw [length_append, length_append, length_append, p.flightWire_length,
    p.serverEnd_length, p.helloWire_length, p.clientEnd_length, Parties.keyWire, wireRecord_length,
    message_length, keyExchangeBody_length hp.enc_length]
  omega

theorem sampleEnvs_reliable : clientEnv.Reliable ∧ serverEnv.Reliable :=
  ⟨byteEnv_reliable _ sampleParties_sound.wires_short.1,
    byteEnv_reliable _ sampleParties_sound.wires_short.2⟩

theorem sampleEnvs_joined :
    clientEnv.peer = ((Role.server sampleParties.kp).run 2 serverEnv).2.sent ∧
      serverEnv.peer = ((Role.client sampleParties.host).run 3 clientEnv).2.sent :=
  streams_joined sampleParties_sound clientEnv_rngs serverEnv_rngs sampleEnvs_reliable.1
    sampleEnvs_reliable.2 rfl rfl

theorem handshake_agreement_sample :
    ∃ client server, (Role.client sampleParties.host).run 3 clientEnv = (some (), client) ∧
      (Role.server sampleParties.kp).run 2 serverEnv = (some (), server) ∧ Agree client server :=
  handshake_agreement (le_refl 3) (le_refl 2) sampleParties_sound.host
    sampleParties_sound.cert serverCertificate_carries serverKeypair_usable sampleEnvs_reliable.1
    sampleEnvs_reliable.2 (le_refl 2) (le_refl 1) sampleEnvs_joined.1 sampleEnvs_joined.2

theorem connect_gives_up {host : List UInt8} (hlong : 190 < host.length) (fuel : ℕ) (env : Env) :
    ((Role.client host).run fuel env).1 = none := by
  have hgives : (tlsConnect fuel host).Ends (newConn env false) (fun _ _ => False)
      fun _ => True := by
    simp only [tlsConnect, sendClientHello, buildClientHello, ends_bind]
    refine .of_forall (fun got s => ?_) fun _ => trivial
    refine .of_forall (fun _ s => ?_) fun _ => trivial
    refine .of_forall (fun rand s => ?_) fun _ => trivial
    simp only [ends_update, ends_getConn]
    refine ends_refuse (fun _ _ => trivial) fun hfits => absurd (.inr ?_) hfits
    simp only [Buffer.size]
    omega
  exact hgives.gives_up.1

/-- A client gives up on a name of 191 bytes where the sample's name is served. -/
theorem long_host_refused : ((Role.client (replicate 191 0x61)).run 3 clientEnv).1 = none :=
  connect_gives_up (length_replicate.symm ▸ lt_succ_self 190) 3 clientEnv

end Vnu.Tls
