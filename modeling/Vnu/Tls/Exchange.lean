import Vnu.Tls.Flights

/-!
The records, the key exchange, the keys and the Finished messages of a handshake that succeeds.
-/
namespace Vnu.Tls

open Lib List

variable {fuel m' : ℕ} {type : UInt8} {body rest enc r : List UInt8} {c' : Conn} {kp : Keypair}
  {label : String} {key : Bytes 16} {iv : Bytes 4}

section

variable {m : ℕ} {c : Conn}

def Conn.took (c : Conn) (msg rest : List UInt8) : Conn :=
  { c with peer := rest, seqR := c.seqR + 1, hs := c.hs ++ msg, rx := msg }

def Conn.noted (c : Conn) (type : UInt8) : Conn :=
  { c with trace := .message type :: c.trace, rx := [] }

theorem goes_rxAdd_of_nil (p : List UInt8) (hrx : c.rx = []) :
    Goes (rxAdd p) (m + 1) c () m { c with rx := p } := by
  have hadd := goes_rxAdd (m := m) (c := c) p
  rwa [hrx, nil_append] at hadd

theorem not_alert : ctHandshake ≠ ctAlert := by decide

theorem goes_flightRecord {c₁ : Conn}
    (hpeer : c.peer = wireRecord ctHandshake (message type body) ++ rest)
    (hrx : c.rx = []) (hlen : body.length + 4 ≤ maxPlain)
    (hmsg : Goes (drainMessage type body) m (c.took (message type body) rest) () m c₁)
    (hrest : Goes (if c₁.stage = .flightDone then pure () else flightLoop fuel) m
      (c₁.noted type) () m' c') :
    Goes (flightLoop (fuel + 1)) (m + 2) c () m' c' := by
  have hmax : maxPlain = 16384 := rfl
  have hsize : Buffer.flightRec.size = 16656 := rfl
  have hmlen := message_length type body
  refine (goes_readRecord hpeer (by omega) (by omega)).bind ?_
  refine .set (fun _ => rfl) (fun _ => rfl) ?_
  refine (goes_refuseAlert fun h => not_alert h.1).bind ?_
  refine (goes_refuse fun h => h rfl).bind ?_
  refine goes_transcriptAdd.bind (.bind (goes_rxAdd_of_nil _ ?_) ?_)
  · exact hrx
  · exact .bind (goes_hsDrain rfl (by omega) hmsg) (.peek (fun _ => rfl) hrest)

/-- The end of a flight, from its Certificate on. -/
theorem goes_flightTail {cert mod e : List UInt8}
    (hpeer : c.peer = wireRecord ctHandshake (message 11 (certificateBody cert)) ++
      (wireRecord ctHandshake (message 14 []) ++ rest))
    (hrx : c.rx = []) (hstage : c.stage ≠ .flightDone) (hcert : cert.length + 10 ≤ maxPlain)
    (hkey : tlsX509RsaPubkey cert 512 8 = ⟨some mod, some e⟩) :
    Goes (flightLoop (fuel + 2)) (m + 4) c () m
      { c with
        peer := rest
        seqR := c.seqR + 1 + 1
        hs := c.hs ++ message 11 (certificateBody cert) ++ message 14 []
        trace := [.message 14, .message 11] ++ c.trace
        rx := []
        peerMod := mod
        stage := .flightDone } := by
  refine goes_flightRecord hpeer hrx ?_ (goes_parseCertificate hcert hkey) ?_
  · rw [certificateBody_length]
    omega
  show Goes (ite (c.stage = _) _ _) _ _ _ _ _
  rw [if_neg hstage]
  refine goes_flightRecord rfl rfl (by decide) (goes_set (fun _ => rfl) fun _ => rfl) ?_
  rw [if_pos rfl]
  exact .pure

theorem goes_recvHsMsg
    (hpeer : c.peer = wireRecord ctHandshake (message type body) ++ rest) (hrx : c.rx = [])
    (hlen : body.length + 4 ≤ maxPlain) :
    Goes (recvHsMsg (fuel + 1)) (m + 1) c () m
      { c with peer := rest, seqR := c.seqR + 1, rx := message type body } := by
  have hmax : maxPlain = 16384 := rfl
  have hsize : Buffer.flightRec.size = 16656 := rfl
  have hmlen := message_length type body
  have hbe : be24 ((message type body).drop 1) = body.length := be24_put24 (by omega) body
  refine (goes_readRecord hpeer (by omega) (by omega)).bind ?_
  refine .set (fun _ => rfl) (fun _ => rfl) ?_
  refine (goes_refuseAlert fun h => not_alert h.1).bind ?_
  refine (goes_refuse fun h => h rfl).bind (.bind (goes_rxAdd_of_nil _ ?_) ?_)
  · exact hrx
  refine .peek (fun _ => rfl) ?_
  dsimp only
  rw [hbe, if_pos ⟨by omega, hmlen.symm⟩]
  exact .pure

theorem goes_recvClientHello {crandom : Bytes 32} {host : List UInt8} (hhost : host.length ≤ 190)
    (hpeer : c.peer = wireRecord ctHandshake (message 1 (helloBody crandom host)) ++ rest)
    (hrx : c.rx = []) :
    Goes (recvClientHello (fuel + 1)) (m + 2) c false m
      { c with
        peer := rest
        seqR := c.seqR + 1
        rx := []
        crandom
        hs := c.hs ++ message 1 (helloBody crandom host) } := by
  have hlen := helloBody_length crandom host
  have hmax : maxPlain = 16384 := rfl
  have hbe : be24 ((message 1 (helloBody crandom host)).drop 1) = (helloBody crandom host).length :=
    be24_put24 (by omega) _
  have hbody : ((message 1 (helloBody crandom host)).drop 4).take (helloBody crandom host).length =
      helloBody crandom host := take_length
  refine (goes_recvHsMsg hpeer hrx (by omega)).bind (.peek (fun _ => rfl) ?_)
  rw [hbe, hbody]
  refine (goes_refuse fun h => h rfl).bind ((goes_parseClientHello hhost).bind ?_)
  exact goes_transcriptAdd.bind (.set (fun _ => rfl) (fun _ => rfl) Goes.pure)

def premaster (r : List UInt8) : List UInt8 := [3, 3] ++ (bytesOf 46 r).val

theorem premaster_length (r : List UInt8) : (premaster r).length = 48 := by
  rw [premaster, length_append, (bytesOf 46 r).property]
  rfl

def keyExchangeBody (enc : List UInt8) : List UInt8 := put16 256 ++ enc

theorem keyExchangeBody_length (henc : enc.length = 256) : (keyExchangeBody enc).length = 258 := by
  rw [keyExchangeBody, length_append, put16_length, henc]

theorem goes_encryptTo {n p : List UInt8} (henc : tlsRsaEncryptPkcs1 c.junk n p = some enc) :
    Goes (encryptTo n p) m c (some enc) m c := by
  refine .peek (fun _ => rfl) ?_
  rw [henc]
  exact goes_wrote.bind (goes_wrote.bind Goes.pure)

theorem goes_clientKeyExchange {rest : List (List UInt8)}
    (hplain : c.writeEnc = false) (hmod : c.peerMod.length = 256) (hrng : c.rngs = r :: rest)
    (henc : tlsRsaEncryptPkcs1 c.junk c.peerMod (premaster r) = some enc) (hlen : enc.length = 256)
    (hfits : c.sent.length + 267 ≤ sendLimit) :
    Goes clientKeyExchange (m + 2) c (premaster r) m
      ({ c with rngs := rest }.said 16 (keyExchangeBody enc)) := by
  have hbody := keyExchangeBody_length hlen
  refine .peek (fun _ => rfl) ?_
  refine (goes_refuse (not_not.mpr hmod)).bind (goes_wrote.bind ?_)
  refine (goes_wantRng _ _ _ hrng).bind (.bind (goes_encryptTo henc) ?_)
  refine (goes_refuse nofun).bind (goes_emit.bind ?_)
  have hflat : [put16 256, (some enc).getD []].flatten = keyExchangeBody enc := by
    simp only [flatten_cons, flatten_nil, append_nil]
    rfl
  rw [hflat]
  refine .bind (goes_hsSend ?_ ?_ ?_) Goes.pure
  · exact hplain
  · rw [hbody]
    decide
  · rw [hbody]
    exact hfits

theorem goes_recvKeyExchange
    (hpeer : c.peer = wireRecord ctHandshake (message 16 (keyExchangeBody enc)) ++ rest)
    (hrx : c.rx = []) (hmod : kp.mod.length = 256) (hlen : enc.length = 256) :
    Goes (recvKeyExchange (fuel + 1) kp) (m + 2) c enc m
      { c with
        peer := rest
        seqR := c.seqR + 1
        rx := message 16 (keyExchangeBody enc)
        hs := c.hs ++ message 16 (keyExchangeBody enc) } := by
  have hbody := keyExchangeBody_length hlen
  have hmsg := message_length 16 (keyExchangeBody enc)
  have hmax : maxPlain = 16384 := rfl
  refine (goes_recvHsMsg hpeer hrx (by omega)).bind (.peek (fun _ => rfl) ?_)
  dsimp only
  refine (goes_refuse (not_or.mpr ⟨fun h => h rfl, by omega⟩)).bind ?_
  exact goes_transcriptAdd.bind Goes.pure

theorem goes_decryptSecret
    (hdec : tlsRsaDecryptPkcs1 c.junk kp.mod kp.priv enc = some (premaster r)) :
    Goes (decryptSecret kp enc) m c (premaster r) m c := by
  have hlen := premaster_length r
  have hto : Goes (decryptTo kp enc) m c (some (premaster r)) m c := by
    refine .peek (fun _ => rfl) ?_
    rw [hdec]
    exact goes_wrote.bind (goes_wrote.bind Goes.pure)
  refine hto.bind ((goes_refuse ?_).bind Goes.pure)
  rw [not_or, not_or]
  exact ⟨not_not.mpr hlen, fun h => h rfl, fun h => h rfl⟩

theorem goes_prfTo {buf : Buffer} {off : ℕ} {secret seed : List UInt8} {n : ℕ} :
    Goes (prfTo buf off secret seed n) m c (tlsPrf secret seed n) m c :=
  goes_wrote.bind (goes_wrote.bind (goes_wrote.bind
    (goes_wrote.bind Goes.pure)))

def masterSecret (pms : List UInt8) (crandom srandom : Bytes 32) : Bytes 48 :=
  bytesOf 48 (tlsPrf (pms.take 48)
    [asciiBytes "master secret", crandom.val, srandom.val].flatten 48)

def keyBlock (master : Bytes 48) (crandom srandom : Bytes 32) : List UInt8 :=
  tlsPrf master.val [asciiBytes "key expansion", srandom.val, crandom.val].flatten 40

def Conn.keyed (c : Conn) (pms : List UInt8) : Conn :=
  let master := masterSecret pms c.crandom c.srandom
  let kb := keyBlock master c.crandom c.srandom
  { c with
    master
    ckey := bytesOf 16 kb
    skey := bytesOf 16 (kb.drop 16)
    civ := bytesOf 4 (kb.drop 32)
    siv := bytesOf 4 (kb.drop 36) }

theorem goes_deriveKeys {pms : List UInt8} : Goes (deriveKeys pms) m c () m (c.keyed pms) := by
  refine .peek (fun _ => rfl) (goes_emit.bind (goes_prfTo.bind ?_))
  refine .set (fun _ => rfl) (fun _ => rfl) ?_
  refine goes_emit.bind (goes_prfTo.bind ?_)
  refine goes_wrote.bind (goes_wrote.bind (goes_wrote.bind
    (goes_wrote.bind ?_)))
  exact goes_set (fun _ => rfl) fun _ => rfl

theorem goes_verifyData (label : String) (buf : Buffer) (off : ℕ) :
    Goes (verifyData label buf off) m c (verifyValue label c) m c := by
  exact .peek (fun _ => rfl) (goes_wrote.bind (goes_emit.bind goes_prfTo))

def Conn.switched (c : Conn) : Conn :=
  { c with sent := c.sent ++ wireRecord ctCcs [1], seqW := 0, writeEnc := true }

theorem goes_changeCipherSpec (hfits : c.sent.length + 6 ≤ sendLimit) :
    Goes changeCipherSpec m c () m c.switched :=
  goes_wrote.bind (.bind (goes_sendAll hfits) (goes_set (fun _ => rfl) fun _ => rfl))

def finishedMessage (label : String) (c : Conn) : List UInt8 := message 20 (verifyValue label c)

def Conn.closed (c : Conn) (label : String) : Conn :=
  { c with
    hs := c.hs ++ finishedMessage label c
    sent := c.sent ++ wireRecord ctHandshake
      (sealedBody c.writeKey c.writeIv c.seqW ctHandshake (finishedMessage label c))
    sealings := ⟨c.writeKey.val, gcmNonce c.writeIv c.seqW, finishedMessage label c⟩ :: c.sealings
    seqW := c.seqW + 1 }

theorem finishedMessage_length (hlabel : (asciiBytes label).length ≤ 96) :
    (finishedMessage label c).length = 16 := by
  rw [finishedMessage, message_length, verifyValue_length c hlabel]

theorem goes_sendFinished (hlabel : (asciiBytes label).length ≤ 96)
    (henc : c.writeEnc = true) (hfits : c.sent.length + 45 ≤ sendLimit) :
    Goes (sendFinished label) (m + 1) c () m (c.closed label) := by
  have hlen := finishedMessage_length (c := c) hlabel
  have hmsg : [[20], put24 12].flatten ++ verifyValue label c = finishedMessage label c := by
    rw [finishedMessage, message, verifyValue_length c hlabel]
    rfl
  refine (goes_verifyData label .fin 4).bind (goes_emit.bind ?_)
  rw [hmsg]
  refine goes_transcriptAdd.bind (goes_tlsSendRecord_sealed ?_ ?_ ?_)
  · exact henc
  · rw [hlen]
    decide
  · rw [hlen]
    exact hfits

theorem recordText_sealedBody (key : Bytes 16) (iv : Bytes 4) (seq : UInt64) (type : UInt8)
    (pt : List UInt8) : recordText key iv (sealedBody key iv seq type pt) = pt := by
  have hnonce : gcmNonceWire iv (sealedBody key iv seq type pt) = gcmNonce iv seq := by
    rw [gcmNonceWire, sealedBody, take_left' (seqBytes_length seq), gcmNonce]
  have hct : recordCt (sealedBody key iv seq type pt) = gcmText key.val (gcmNonce iv seq) pt := by
    rw [recordCt, sealedBody_length, Nat.add_sub_cancel, sealedBody,
      drop_left' (seqBytes_length seq), take_left' (gcmText_length _ _ _)]
  rw [recordText, hnonce, hct, gcmText_gcmText]

theorem carriesFinished_sealedBody {seq : UInt64} (hlabel : (asciiBytes label).length ≤ 96) :
    CarriesFinished key iv label (sealedBody key iv seq ctHandshake
      (finishedMessage label c)) c := by
  refine ⟨?_, ?_, ?_⟩
  · rw [sealedBody_length, finishedMessage_length hlabel]
  · rw [recordText_sealedBody]
    rfl
  · rw [recordText_sealedBody]
    rfl

theorem goes_checkFinished {rec : List UInt8}
    (hlabel : (asciiBytes label).length ≤ 96) (h : CarriesFinished key iv label rec c) :
    Goes (checkFinished key iv label rec) m c (recordText key iv rec) m
      { c with
        seqR := c.seqR + 1
        trace := .finished (verifyValue label c) (verifyValue label c) :: c.trace } := by
  have hlen := h.length
  refine .look fun s hs => ?_
  refine (goes_refuse (by omega)).bind (goes_emit.bind (goes_emit.bind ?_))
  have hload : (openedHeap key iv s.seqR rec).load ⟨4, 0⟩ 16 = recordText key iv rec := by
    rw [← openedHeap_text key iv s.seqR, hlen]
  rw [finishedOpen_eq key iv s.seqR (by omega)]
  refine .bind (goes_log (fun _ => rfl) fun _ => rfl) ((goes_refuse nofun).bind ?_)
  refine .set (fun _ => rfl) (fun _ => rfl) ?_
  rw [hload]
  refine (goes_refuse (not_or.mpr ⟨by omega, not_not.mpr h.type⟩)).bind ?_
  refine (goes_verifyData _ _ _).bind ?_
  have hsame : verifyValue label { c with seqR := c.seqR + 1 } = verifyValue label c := rfl
  rw [hsame, h.verify]
  have heq : ctEq (verifyValue label c) (verifyValue label c) 12 = true :=
    (ctEq_iff (verifyValue_length c hlabel) (verifyValue_length c hlabel)).mpr rfl
  rw [heq]
  exact (goes_refuse nofun).bind (.set (fun _ => rfl) (fun _ => rfl) Goes.pure)

def Conn.warned (c : Conn) : Conn :=
  { c with seqR := 0, readEnc := true, trace := .ccs :: c.trace }

theorem goes_takeCcs : Goes (takeCcs [1]) m c () m c.warned := by
  refine (goes_refuse (not_or.mpr ⟨fun h => h rfl, fun h => h rfl⟩)).bind ?_
  exact goes_set (fun _ => rfl) fun _ => rfl

theorem goes_finishedLoop {handle : Record → Hs Bool}
    (hpeer : c.peer = wireRecord ctCcs [1] ++ (wireRecord ctHandshake body ++ rest))
    (hbody : body.length = 40) (hccs : ∀ c, Goes (handle ⟨ctCcs, [1]⟩) m c false m c.warned)
    (hfin : Goes (handle ⟨ctHandshake, body⟩) m { c.warned with peer := rest } true m' c') :
    Goes (finishedLoop handle (fuel + 2)) m c () m' c' := by
  have hsize : Buffer.finishedRec.size = 16720 := rfl
  have hone : [(1 : UInt8)].length = 1 := rfl
  refine .bind (goes_readRecord hpeer (by omega) (by omega)) (.bind (hccs _) ?_)
  refine .bind (goes_readRecord rfl (by omega) (by omega)) (.bind hfin ?_)
  exact .pure

theorem goes_connectRecord_ccs (c : Conn) :
    Goes (connectRecord ⟨ctCcs, [1]⟩) m c false m c.warned := by
  exact .peek (fun _ => rfl) (goes_takeCcs.bind Goes.pure)

theorem goes_acceptRecord_ccs (c : Conn) :
    Goes (acceptRecord ⟨ctCcs, [1]⟩) m c false m c.warned := by
  exact .peek (fun _ => rfl) (goes_takeCcs.bind Goes.pure)

theorem goes_connectRecord (henc : c.readEnc = true)
    (h : CarriesFinished c.skey c.siv "server finished" body c) :
    Goes (connectRecord ⟨ctHandshake, body⟩) m c true m
      { c with
        seqR := c.seqR + 1
        trace := .finished (verifyValue "server finished" c) (verifyValue "server finished" c) ::
          c.trace } := by
  refine .peek (fun _ => rfl) ?_
  rw [if_neg (show c.readEnc ≠ false by simp [henc])]
  refine (goes_refuseAlert fun h => not_alert h.1).bind ((goes_refuse fun h => h rfl).bind ?_)
  exact .bind (goes_checkFinished (by decide) h) Goes.pure

theorem goes_acceptRecord (henc : c.readEnc = true)
    (h : CarriesFinished c.ckey c.civ "client finished" body c) :
    Goes (acceptRecord ⟨ctHandshake, body⟩) (m + 1) c true m
      { c with
        seqR := c.seqR + 1
        trace := .finished (verifyValue "client finished" c) (verifyValue "client finished" c) ::
          c.trace
        hs := c.hs ++ recordText c.ckey c.civ body } := by
  refine .peek (fun _ => rfl) ((goes_refuseAlert fun h => not_alert h.1).bind ?_)
  refine (goes_refuse (not_or.mpr ⟨fun h => h rfl, by simp [henc]⟩)).bind ?_
  exact .bind (goes_checkFinished (by decide) h) (goes_transcriptAdd.bind Goes.pure)

end

end Vnu.Tls
