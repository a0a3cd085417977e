import Vnu.Tls.Hearing
import Vnu.Tls.Nonces

/-!
The order of the messages of the server. `hs_drain` handles each message for itself and keeps no
account of those it has seen: a client takes the flight of its server in whatever order it comes.
-/
namespace Vnu.Tls

open Lib List Act

variable {h : Hearing} {seen : List UInt8} {took : List Event} {fuel : ℕ} {junk junk' : UInt32}
  {c : Conn}

/-- The bodies of the records up to the one that completes a ServerHelloDone. -/
def flightOf : ℕ → List UInt8 → List UInt8 → List UInt8
  | 0, seen, _ => seen
  | n + 1, seen, peer =>
    let seen := seen ++ (peer.drop 5).take (be16 (peer.drop 3))
    if 14 ∈ messageTypes seen then seen
    else flightOf n seen (peer.drop (5 + be16 (peer.drop 3)))

def serverFlight (peer : List UInt8) : List UInt8 := messageTypes (flightOf peer.length [] peer)

structure Hearing.Waits (h : Hearing) (seen : List UInt8) : Prop where
  rx : h.rx = unread seen
  stage : h.stage = .awaitShd
  trace : h.trace = ((messageTypes seen).map Event.message).reverse
  notDone : 14 ∉ messageTypes seen
  readEnc : h.readEnc = false

structure Hearing.Took (h : Hearing) (flight : List UInt8) : Prop where
  trace : h.trace = ((messageTypes flight).map Event.message).reverse
  readEnc : h.readEnc = false

theorem Hearing.Waits.record (hw : h.Waits seen) (body : List UInt8) :
    ({ h with rx := h.rx ++ body } : Hearing).drained (messageTypes (h.rx ++ body)) = { h with
        rx := h.rx ++ body
        trace := ((messageTypes (seen ++ body)).map Event.message).reverse
        stage := if 14 ∈ messageTypes (seen ++ body) then .flightDone else .awaitShd } := by
  have htypes := messageTypes_append seen body
  simp only [Hearing.drained, hw.rx, hw.trace, hw.stage, htypes, map_append,
    reverse_append, mem_append, hw.notDone, false_or]

/-- Messages are taken as they come, whatever records they are split into. -/
theorem hears_flightLoop {n : ℕ} (fuel : ℕ) (hw : h.Waits seen) (hn : h.peer.length ≤ n) :
    Hears (flightLoop fuel) h fun _ h' => h'.Took (flightOf n seen h.peer) := by
  induction fuel generalizing h n seen with
  | zero => exact fun _ _ => trivial
  | succ fuel ih =>
    have hseq : Deaf (update fun s => { s with seqR := s.seqR + 1 }) := .update fun _ => rfl
    refine (hears_readRecord _ h).bind ?_
    rintro ⟨type, body⟩ - ⟨hfive, rfl, rfl⟩
    obtain ⟨n, rfl⟩ : ∃ k, n = k + 1 := ⟨n - 1, by omega⟩
    refine hseq.bind_hears fun _ => Deaf.bind_hears moves_refuseAlert fun _ => ?_
    refine Deaf.bind_hears moves_refuse fun _ => deaf_transcriptAdd.bind_hears fun _ => ?_
    refine (hears_rxAdd _ _).bind ?_
    rintro - - rfl
    refine (hears_hsDrain _).bind ?_
    rintro - - rfl
    have hw' : ({ h with peer := h.peer.drop (5 + be16 (h.peer.drop 3)) } : Hearing).Waits seen :=
      ⟨hw.rx, hw.stage, hw.trace, hw.notDone, hw.readEnc⟩
    rw [hw'.record]
    set body := (h.peer.drop 5).take (be16 (h.peer.drop 3))
    have hunread : unread (h.rx ++ body) = unread (seen ++ body) := by
      rw [hw.rx, ← unread_append]
    refine .look fun s hs => ?_
    have hstage : s.stage = _ := congrArg Hearing.stage hs
    by_cases hdone : 14 ∈ messageTypes (seen ++ body)
    · have hflight : flightOf (n + 1) seen h.peer = seen ++ body := if_pos hdone
      rw [if_pos (hstage.trans (if_pos hdone)), hflight]
      exact .pure ⟨rfl, hw.readEnc⟩
    have hawait : s.stage = .awaitShd := hstage.trans (if_neg hdone)
    have hflight : flightOf (n + 1) seen h.peer =
        flightOf n (seen ++ body) (h.peer.drop (5 + be16 (h.peer.drop 3))) := if_neg hdone
    rw [if_neg (show s.stage ≠ .flightDone by rw [hawait]; exact Stage.noConfusion), hflight]
    refine ih ⟨hunread, if_neg hdone, rfl, hdone, hw.readEnc⟩ ?_
    rw [length_drop]
    omega

structure Hearing.Awaits (h : Hearing) (took : List Event) : Prop where
  trace : ∃ k, h.trace = replicate k .ccs ++ took ∧ (h.readEnc = true → 0 < k)

def Closes (took trace : List Event) : Prop :=
  ∃ k v, trace = .finished v v :: (replicate (k + 1) .ccs ++ took)

theorem hears_checkFinished (key : Bytes 16) (iv : Bytes 4) {label : String} (rec : List UInt8)
    (hlabel : (asciiBytes label).length ≤ 96) (h : Hearing) :
    Hears (checkFinished key iv label rec) h fun _ h' =>
      ∃ v, h' = { h with trace := .finished v v :: h.trace } := by
  have hlog (res : Bool × Heap) : Deaf (logOpen rec.length res.2) := .update fun _ => rfl
  have hseq : Deaf (update fun s => { s with seqR := s.seqR + 1 }) := .update fun _ => rfl
  refine Hears.look fun s _ => Deaf.bind_hears moves_refuse fun _ => ?_
  refine Deaf.bind_hears moves_emit fun _ => Deaf.bind_hears moves_emit fun _ => ?_
  refine (hlog _).bind_hears fun _ => Deaf.bind_hears moves_refuse fun _ => ?_
  refine hseq.bind_hears fun _ => Deaf.bind_hears moves_refuse fun _ => ?_
  rintro t rfl
  rw [ends_bind]
  refine ends_verifyData fun log => ?_
  rw [ends_bind]
  refine ends_refuse (fun _ _ => trivial) fun heq => ?_
  have hpt (g : Heap) : ((g.load ⟨4, 0⟩ 16).drop 4).length = 12 := by
    rw [length_drop, Heap.load_length]
  have hsame := (ctEq_iff (verifyValue_length t hlabel) (hpt _)).mp (Bool.of_not_eq_false heq)
  rw [hsame]
  exact ⟨verifyValue label t, rfl⟩

theorem hears_connectRecord (hw : h.Awaits took) (r : Record) :
    Hears (connectRecord r) h fun done h' =>
      if done then Closes took h'.trace else h'.Awaits took := by
  obtain ⟨k, htrace, henc⟩ := hw.trace
  refine Hears.look fun s hs => ?_
  have hread : s.readEnc = h.readEnc := congrArg Hearing.readEnc hs
  split_ifs with hccs hplain
  · refine Hears.bind (P := fun _ h' => h' = { h with readEnc := true, trace := .ccs :: h.trace })
      (Deaf.bind_hears moves_refuse fun _ => Hears.set (fun t ht => ?_) rfl) ?_
    · show ({ t.heard with readEnc := true, trace := .ccs :: t.heard.trace } : Hearing) = _
      rw [ht]
    · rintro - - rfl
      refine Hears.pure ⟨k + 1, ?_, fun _ => Nat.succ_pos k⟩
      rw [htrace]
      rfl
  · refine Deaf.bind_hears moves_refuseAlert fun _ =>
    Deaf.bind_hears moves_refuse fun _ => ?_
    exact deaf_transcriptAdd.bind_hears fun _ => Hears.pure hw
  · refine Deaf.bind_hears moves_refuseAlert fun _ =>
    Deaf.bind_hears moves_refuse fun _ => ?_
    refine (hears_checkFinished _ _ _ (by decide) h).bind ?_
    rintro - - ⟨v, rfl⟩
    obtain ⟨k, rfl⟩ := Nat.exists_eq_add_of_lt (henc (hread ▸ Bool.of_not_eq_false hplain))
    refine Hears.pure ⟨k, v, ?_⟩
    rw [htrace, Nat.zero_add]

theorem hears_finishedLoop (fuel : ℕ) (hw : h.Awaits took) :
    Hears (finishedLoop connectRecord fuel) h fun _ h' => Closes took h'.trace := by
  induction fuel generalizing h with
  | zero => exact fun _ _ => trivial
  | succ fuel ih =>
    refine (hears_readRecord _ h).bind ?_
    rintro r - ⟨-, -, rfl⟩
    have hw' : ({ h with peer := h.peer.drop (5 + be16 (h.peer.drop 3)) } : Hearing).Awaits took :=
      ⟨hw.trace⟩
    refine (hears_connectRecord hw' r).bind fun done h' hdone => ?_
    cases done with
    | true => exact .pure hdone
    | false => exact ih hdone

/-- A ServerHello, a Certificate and a ServerHelloDone once each, then a ChangeCipherSpec and a
right Finished. Requests for a certificate do not count. -/
def InOrder (trace : List Event) : Prop :=
  ∃ flight : List UInt8, Closes (flight.map Event.message).reverse trace ∧
    flight.filter (· ≠ 13) = [2, 11, 14]

def Event.type? : Event → Option UInt8
  | .message type => some type
  | _ => none

theorem Closes.types {flight : List UInt8} {trace : List Event}
    (h : Closes (flight.map Event.message).reverse trace) :
    trace.filterMap Event.type? = flight.reverse := by
  obtain ⟨k, v, rfl⟩ := h
  have hccs : (replicate (k + 1) Event.ccs).filterMap Event.type? = [] :=
    filterMap_eq_nil_iff.mpr fun e he => by rw [eq_of_mem_replicate he]; rfl
  have htypes : (flight.map Event.message).reverse.filterMap Event.type? = flight.reverse := by
    rw [filterMap_reverse, filterMap_map]
    exact congrArg reverse (filterMap_some)
  rw [filterMap_cons_none rfl, filterMap_append, hccs, htypes, nil_append]

theorem connected_closes {host : List UInt8} {env : Env} {s : Conn}
    (h : (Role.client host).run fuel env = (some (), s)) :
    Closes ((serverFlight env.peer).map Event.message).reverse s.trace := by
  have hears : Hears (tlsConnect fuel host) (newConn env false).heard fun _ h' =>
      Closes ((serverFlight env.peer).map Event.message).reverse h'.trace := by
    rw [tlsConnect_eq]
    refine (hears_connectHello host _).bind ?_
    rintro - - rfl
    have hwaits : ({ (newConn env false).heard with stage := .awaitShd } : Hearing).Waits [] :=
      ⟨rfl, rfl, rfl, not_mem_nil, rfl⟩
    refine (hears_flightLoop (n := env.peer.length) fuel hwaits le_rfl).bind fun _ h' took => ?_
    refine deaf_connectKeys.bind_hears fun _ => deaf_changeCipherSpec.bind_hears fun _ => ?_
    refine (deaf_sendFinished _).bind_hears fun _ => ?_
    refine (hears_finishedLoop fuel ⟨0, took.trace, fun henc => ?_⟩).bind fun _ h'' hcloses => ?_
    · exact absurd (took.readEnc.symm.trans henc) Bool.false_ne_true
    have hset : ∀ t : Conn, t.heard = h'' →
        { t with stage := .established }.heard = { h'' with stage := .established } := by
      intro t ht
      rw [← ht]
      rfl
    exact .set hset hcloses
  exact (hears _ rfl).of_some h

/-- A client is connected only behind a flight in the right order exactly when its server sends one.
-/
theorem flight_in_order_iff {fuel : ℕ} {host : List UInt8} {env : Env} {s : Conn}
    (h : (Role.client host).run fuel env = (some (), s)) :
    InOrder s.trace ↔ (serverFlight env.peer).filter (· ≠ 13) = [2, 11, 14] := by
  have hcloses := connected_closes h
  constructor
  · rintro ⟨flight, hflight, horder⟩
    have heq := hflight.types.symm.trans hcloses.types
    rwa [← reverse_inj.mp heq]
  · exact fun horder => ⟨_, hcloses, horder⟩

theorem client_in_order {p : Parties} {env : Env} {rngs : List (List UInt8)}
    (hp : p.Sound env.junk junk) (hrng : env.rngs = p.clientRandom :: p.secret :: rngs)
    (hrel : env.Reliable) (hpeer : env.peer = p.flightWire ++ p.serverEnd) :
    ∃ s, (Role.client p.host).run 3 env = (some (), s) ∧ InOrder s.trace := by
  rw [← append_nil p.serverEnd] at hpeer
  obtain ⟨s, hrun, hjoined⟩ := client_joins hp hrng hrel hpeer 0
  obtain ⟨v, htrace⟩ := hjoined.trace
  exact ⟨s, hrun, [2, 11, 14], ⟨0, v, htrace⟩, rfl⟩

/-- The server of the sample sends its flight in order. -/
theorem flight_in_order_client :
    ∃ s, (Role.client sampleParties.host).run 3 clientEnv = (some (), s) ∧ InOrder s.trace ∧
      (serverFlight clientEnv.peer).filter (· ≠ 13) = [2, 11, 14] := by
  obtain ⟨s, hrun, horder⟩ := client_in_order sampleParties_sound clientEnv_rngs
    sampleEnvs_reliable.1 clientEnv_peer
  exact ⟨s, hrun, horder, (flight_in_order_iff hrun).mp horder⟩

/-! ### A server without a ServerHello

The random of the server is zero then, as it is in a new connection. -/

namespace Parties

variable (p : Parties)

def bareFlight : List UInt8 :=
  wireRecord ctHandshake (message 11 (certificateBody p.kp.cert)) ++
    wireRecord ctHandshake (message 14 [])

def bareTranscript : List UInt8 :=
  message 1 (helloBody p.crandom p.host) ++ message 11 (certificateBody p.kp.cert) ++
    message 14 [] ++ message 16 (keyExchangeBody p.enc)

def bareEnd : List UInt8 :=
  wireRecord ctCcs [1] ++ wireRecord ctHandshake
    (sealedBody (bytesOf 16 (p.block.drop 16)) (bytesOf 4 (p.block.drop 36)) 0 ctHandshake
      (p.finishedOver "server finished"
        (p.bareTranscript ++ p.finishedOver "client finished" p.bareTranscript)))

def bareAnswered (env : Env) (rngs : List (List UInt8)) (rest : List UInt8) : Conn :=
  { p.greeted env rngs with
    peer := rest
    seqR := 0 + 1 + 1
    hs := message 1 (helloBody p.crandom p.host) ++ message 11 (certificateBody p.kp.cert) ++
      message 14 []
    trace := [.message 14, .message 11]
    rx := []
    peerMod := p.kp.mod
    stage := .flightDone }

def bareKeyed (env : Env) (rngs : List (List UInt8)) (rest : List UInt8) : Conn :=
  (({ p.bareAnswered env rngs rest with rngs }).said 16 (keyExchangeBody p.enc)).keyed
    (premaster p.secret)

end Parties

section

variable {p : Parties} {m : ℕ} {env : Env} {rngs : List (List UInt8)} {rest : List UInt8}

theorem goes_bareFlight (hp : p.Sound junk junk') (hpeer : env.peer = p.bareFlight ++ rest) :
    Goes (flightLoop (fuel + 2)) (m + 4) (p.greeted env rngs) () m
      (p.bareAnswered env rngs rest) := by
  obtain ⟨e, hkey⟩ := hp.key
  refine goes_flightTail ?_ rfl Stage.noConfusion hp.cert hkey
  show env.peer = _
  rw [hpeer, Parties.bareFlight, append_assoc]

theorem goes_bareKeys (hp : p.Sound env.junk junk') :
    Goes connectKeys (m + 2) (p.bareAnswered env rngs rest) () m (p.bareKeyed env rngs rest) :=
  .bind (goes_clientKeyExchange rfl hp.mod rfl hp.enc hp.enc_length hp.key_room)
    goes_deriveKeys

theorem bareKeyed_keyed (hbare : p.serverRandom = []) : p.Keyed (p.bareKeyed env rngs rest) := by
  obtain ⟨host, kp, clientRandom, secret, serverRandom, enc⟩ := p
  obtain rfl : serverRandom = [] := hbare
  exact ⟨rfl, rfl, rfl, rfl, rfl⟩

/-- Certificate and ServerHelloDone are enough for a client. -/
theorem bare_connects (hbare : p.serverRandom = []) (hp : p.Sound env.junk junk)
    (hrng : env.rngs = p.clientRandom :: p.secret :: rngs) (hrel : env.Reliable)
    (hpeer : env.peer = p.bareFlight ++ p.bareEnd) :
    ∃ s v, (Role.client p.host).run 3 env = (some (), s) ∧ s.stage = .established ∧
      s.trace = [.finished v v, .ccs, .message 14, .message 11] := by
  set c := p.bareKeyed env rngs p.bareEnd
  have hkeyed : p.Keyed c := bareKeyed_keyed hbare
  have hfits : c.sent.length + 51 ≤ sendLimit := by
    show (p.helloWire ++ p.keyWire).length + 51 ≤ sendLimit
    have hhost := hp.host
    rw [length_append, p.helloWire_length, Parties.keyWire, wireRecord_length,
      message_length, keyExchangeBody_length hp.enc_length, sendLimit]
    omega
  have hclosed : p.Keyed (c.switched.closed "client finished") :=
    ⟨hkeyed.master, hkeyed.ckey, hkeyed.skey, hkeyed.civ, hkeyed.siv⟩
  have hhs : (c.switched.closed "client finished").hs =
      p.bareTranscript ++ p.finishedOver "client finished" p.bareTranscript := by
    show c.hs ++ finishedMessage "client finished" c = _
    rw [hkeyed.finishedOver]
    rfl
  obtain ⟨c', hend, -, -, -, -, -, v, htrace⟩ := goes_clientEnd (m := 5) hclosed
    (by rw [hhs]; exact (append_nil _).symm) 1
  have hgoes : Goes (tlsConnect 3 p.host) 14 (newConn env false).quiet () 5
      { c' with stage := .established } := by
    rw [tlsConnect_eq]
    refine (goes_connectHello (m := 12) hrng hp.host).bind ?_
    refine (goes_bareFlight (m := 8) hp hpeer).bind ((goes_bareKeys (m := 6) hp).bind ?_)
    refine (goes_changeCipherSpec (c := c) (by omega)).bind ?_
    refine .bind (goes_sendFinished (by decide) rfl (switched_fits hfits)) ?_
    exact hend.bind (goes_set (fun _ => rfl) fun _ => rfl)
  obtain ⟨_, s, hrun, rfl, hs, -⟩ := (hgoes.ends _ rfl (hrel.supplied le_rfl false)).returns
  refine ⟨s, v, hrun, ?_, ?_⟩
  · show s.quiet.stage = _
    rw [hs]
  · show s.quiet.trace = _
    rw [hs]
    exact htrace

end

def bareParties : Parties := { sampleParties with serverRandom := [] }

/-- The random of the server is not part of what has to fit. -/
theorem Parties.Sound.with_random {p : Parties} (hp : p.Sound junk junk')
    (r : List UInt8) : ({ p with serverRandom := r } : Parties).Sound junk junk' :=
  ⟨hp.host, hp.cert, hp.cert_long, hp.mod, hp.key, hp.enc, hp.enc_length, hp.dec⟩

theorem bareParties_sound : bareParties.Sound 0 0 := sampleParties_sound.with_random []

def bareEnv : Env := byteEnv (bareParties.bareFlight ++ bareParties.bareEnd) [[1], [2]]

theorem bareEnv_rngs : bareEnv.rngs = bareParties.clientRandom :: bareParties.secret :: [] := rfl

theorem bareEnv_peer : bareEnv.peer = bareParties.bareFlight ++ bareParties.bareEnd :=
  byteEnv_peer

theorem Parties.Sound.bare_short {p : Parties} (hp : p.Sound junk junk') :
    (p.bareFlight ++ p.bareEnd).length ≤ 65536 := by
  have hcert := hp.cert
  have hmax : maxPlain = 16384 := rfl
  have hend : p.bareEnd.length = 51 := p.end_length _ _ _ (by decide)
  have hnil : ([] : List UInt8).length = 0 := rfl
  rw [length_append, Parties.bareFlight, length_append, wireRecord_length, wireRecord_length,
    message_length, message_length, certificateBody_length]
  omega

theorem bareEnv_reliable : bareEnv.Reliable := byteEnv_reliable _ bareParties_sound.bare_short

/-- A client is connected to a server that never sent a ServerHello. -/
theorem connected_without_hello :
    ∃ s v, (Role.client bareParties.host).run 3 bareEnv = (some (), s) ∧ s.stage = .established ∧
      s.trace = [.finished v v, .ccs, .message 14, .message 11] :=
  bare_connects rfl bareParties_sound bareEnv_rngs bareEnv_reliable bareEnv_peer

end Vnu.Tls
