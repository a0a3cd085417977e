import Vnu.Tls.Steps

/-!
The messages of a handshake that succeeds: what each side builds, what the other takes from it, and
the connection that each step leaves, for any connection.
-/
namespace Vnu.Tls

open Lib List

variable {n : ℕ} {type : UInt8} {body host rest cert mod e : List UInt8} {c' : Conn}

def message (type : UInt8) (body : List UInt8) : List UInt8 := type :: put24 body.length ++ body

theorem message_length (type : UInt8) (body : List UInt8) :
    (message type body).length = body.length + 4 := by
  simp only [message, length_append, length_cons, put24_length]
  omega

theorem flatten_message (type : UInt8) (body : List UInt8) :
    [[type], put24 body.length, body].flatten = message type body := by
  simp only [flatten_cons, flatten_nil, append_nil]
  rfl

theorem be24_put24 (hn : n < 2 ^ 24) (rest : List UInt8) : be24 (put24 n ++ rest) = n := by
  simp only [be24, put24, cons_append, getD_cons_zero, getD_cons_succ, UInt8.toNat_ofNat']
  omega

def Conn.said (c : Conn) (type : UInt8) (body : List UInt8) : Conn :=
  { c with
    hs := c.hs ++ message type body
    sent := c.sent ++ wireRecord ctHandshake (message type body)
    seqW := c.seqW + 1 }

section

variable {m : ℕ} {c : Conn}

theorem goes_hsSend (henc : c.writeEnc = false)
    (hlen : body.length + 4 ≤ maxPlain) (hfits : c.sent.length + (body.length + 9) ≤ sendLimit) :
    Goes (hsSend type body) (m + 2) c () m (c.said type body) := by
  have hmsg := message_length type body
  have hmax : maxPlain = 16384 := rfl
  refine (goes_refuse (by omega)).bind (goes_malloc.bind ((goes_refuse nofun).bind ?_))
  refine goes_emit.bind ?_
  rw [flatten_message]
  refine goes_transcriptAdd.bind ?_
  exact goes_tlsSendRecord_plain henc (by omega) (by rw [hmsg]; exact hfits)

def helloBody (crandom : Bytes 32) (host : List UInt8) : List UInt8 :=
  [put16 0x0303, crandom.val, [0], put16 2, put16 suite, [1], [0],
    put16 (9 + host.length + 14), put16 0, put16 (5 + host.length), put16 (3 + host.length), [0],
    put16 host.length, host, put16 13, put16 10, put16 8, [4], [1], [5], [1], [6], [1], [2],
    [1]].flatten

theorem helloBody_length (crandom : Bytes 32) (host : List UInt8) :
    (helloBody crandom host).length = 66 + host.length := by
  simp only [helloBody, flatten_cons, flatten_nil, length_append, put16_length,
    length_cons, length_nil]
  omega

theorem goes_sendClientHello (henc : c.writeEnc = false)
    (hhost : host.length ≤ 190) (hsent : c.sent = []) :
    Goes (sendClientHello host) (m + 1) c () m
      { c.said 1 (helloBody c.crandom host) with stage := .awaitShd } := by
  have hbody := helloBody_length c.crandom host
  have hmax : maxPlain = 16384 := rfl
  have hhello : Goes (buildClientHello host) (m + 1) c (helloBody c.crandom host) (m + 1) c := by
    refine .look fun s hs => ?_
    obtain rfl := hs
    refine (goes_refuse ?_).bind (goes_emit.bind Goes.pure)
    simp only [Buffer.size]
    omega
  refine hhello.bind (goes_emit.bind ?_)
  rw [flatten_message]
  refine goes_transcriptAdd.bind ?_
  refine .bind (goes_tlsSendRecord_plain henc ?_ ?_) (goes_set (fun _ => rfl) fun _ => rfl)
  · rw [message_length]
    omega
  · rw [message_length, hsent, length_nil, sendLimit]
    omega

theorem goes_skipSessionId (rest : List UInt8) : Goes (skipSessionId (0 :: rest)) m c rest m c :=
  (goes_refuse (Nat.not_lt_zero _)).bind Goes.pure

theorem goes_parseSuites (hrest : rest ≠ []) :
    Goes (parseSuites (put16 2 ++ (put16 suite ++ rest))) m c (false, rest) m c := by
  have hpos := length_pos_iff.mpr hrest
  have hlen : (put16 2 ++ (put16 suite ++ rest)).length = rest.length + 4 := by
    simp only [length_append, put16_length]
    omega
  refine (goes_refuse (by rw [hlen]; omega)).bind ?_
  rw [be16_put16 (by decide)]
  refine (goes_refuse ?_).bind ?_
  · show ¬(2 < 2 ∨ 2 > (put16 suite ++ rest).length)
    simp only [length_append, put16_length]
    omega
  have hsuites : suiteLoop (((put16 2 ++ (put16 suite ++ rest)).drop 2).take 2) false false =
      (true, false) := by
    rw [drop_left' (put16_length 2), take_left' (put16_length suite)]
    decide
  rw [hsuites]
  exact (goes_refuse nofun).bind Goes.pure

theorem goes_parseCompression (rest : List UInt8) :
    Goes (parseCompression (1 :: 0 :: rest)) m c rest m c := by
  refine (goes_refuse (Nat.not_lt.mpr (Nat.succ_le_succ (Nat.zero_le _)))).bind ?_
  refine (goes_refuse ?_).bind ((goes_refuse ?_).bind Goes.pure)
  · show ¬(1 < 1 ∨ 1 > (0 :: rest).length)
    rw [length_cons]
    omega
  · show ¬0 ∉ [(0 : UInt8)]
    simp

theorem goes_extension {fuel type : ℕ} {v : List UInt8} {reneg b : Bool}
    (htype : type < 65536) (hother : type ≠ 0xFF01) (hv : v.length < 65536)
    (h : Goes (extensionLoop fuel rest reneg) m c b m c') :
    Goes (extensionLoop (fuel + 1) (put16 type ++ (put16 v.length ++ (v ++ rest))) reneg) m c b m
      c' := by
  have hdrop2 : (put16 type ++ (put16 v.length ++ (v ++ rest))).drop 2 =
      put16 v.length ++ (v ++ rest) := rfl
  have hdrop4 : (put16 type ++ (put16 v.length ++ (v ++ rest))).drop 4 = v ++ rest := rfl
  rw [extensionLoop]
  rw [be16_put16 htype, hdrop2, hdrop4, be16_put16 hv]
  refine (goes_refuse (by rw [length_append]; omega)).bind ?_
  refine (goes_refuse fun hbad => hother hbad.1).bind ?_
  rw [drop_left, decide_eq_false hother, Bool.or_false]
  exact h

theorem extensionLoop_nil (fuel : ℕ) (reneg : Bool) : extensionLoop fuel [] reneg = pure reneg := by
  cases fuel with
  | zero => rfl
  | succ fuel => rw [extensionLoop, if_pos (by decide)]

def serverName (host : List UInt8) : List UInt8 :=
  put16 (3 + host.length) ++ ([0] ++ (put16 host.length ++ host))

def signatureAlgorithms : List UInt8 := put16 8 ++ [4, 1, 5, 1, 6, 1, 2, 1]

def helloExtensions (host : List UInt8) : List UInt8 :=
  put16 0 ++ (put16 (serverName host).length ++ (serverName host ++
    (put16 13 ++ (put16 signatureAlgorithms.length ++ (signatureAlgorithms ++ [])))))

theorem serverName_length (host : List UInt8) : (serverName host).length = 5 + host.length := by
  simp only [serverName, length_append, put16_length, length_cons, length_nil]
  omega

theorem helloBody_eq (crandom : Bytes 32) (host : List UInt8) :
    helloBody crandom host = put16 0x0303 ++ (crandom.val ++ (0 :: (put16 2 ++ (put16 suite ++
      (1 :: 0 :: (put16 (23 + host.length) ++ helloExtensions host)))))) := by
  have hsum : 9 + host.length + 14 = 23 + host.length := by omega
  have hsig : put16 signatureAlgorithms.length = put16 10 := rfl
  simp only [helloBody, helloExtensions, serverName_length, hsig, flatten_cons, flatten_nil, hsum]
  simp only [serverName, signatureAlgorithms, append_assoc, cons_append, nil_append]

theorem goes_parseExtensions (hhost : host.length ≤ 190) :
    Goes (parseExtensions (put16 (23 + host.length) ++ helloExtensions host) false) m c false m
      c := by
  have hname := serverName_length host
  have hsig : signatureAlgorithms.length = 10 := rfl
  have hlen : (helloExtensions host).length = 23 + host.length := by
    simp only [helloExtensions, length_append, put16_length, length_nil]
    omega
  have hfuel : (put16 (23 + host.length) ++ helloExtensions host).length =
      23 + host.length + 1 + 1 := by
    rw [length_append, put16_length]
    omega
  rw [parseExtensions, be16_put16 (by omega), drop_left' (put16_length _)]
  refine (goes_refuse (by rw [hlen]; omega)).bind ?_
  refine goes_extension (by omega) (by omega) (by rw [hname]; omega) ?_
  refine goes_extension (by omega) (by omega) (by rw [hsig]; omega) ?_
  rw [extensionLoop_nil]
  exact .pure

theorem bytesOf_append (b : Bytes n) (rest : List UInt8) : bytesOf n (b.val ++ rest) = b := by
  refine Subtype.ext ?_
  show (b.val ++ rest ++ replicate n 0).take n = b.val
  rw [append_assoc]
  exact take_left' b.property

theorem hello_drop {random : Bytes 32} {rest : List UInt8} :
    (put16 0x0303 ++ (random.val ++ rest)).drop 2 = random.val ++ rest ∧
      (put16 0x0303 ++ (random.val ++ rest)).drop 34 = rest := by
  refine ⟨drop_left' (put16_length _), ?_⟩
  rw [← append_assoc]
  exact drop_left' (by rw [length_append, put16_length, random.property])

theorem hello_version (rest : List UInt8) : ¬be16 (put16 0x0303 ++ rest) ≠ 0x0303 :=
  not_not.mpr (be16_put16 (by omega) rest)

theorem goes_parseClientHello {crandom : Bytes 32} (hhost : host.length ≤ 190) :
    Goes (parseClientHello (helloBody crandom host)) m c false m { c with crandom } := by
  have hlen := helloBody_length crandom host
  rw [helloBody_eq] at hlen ⊢
  -- the unifier would compare numerals inside the tail
  generalize htail : put16 2 ++ (put16 suite ++
    (1 :: 0 :: (put16 (23 + host.length) ++ helloExtensions host))) = tail at hlen ⊢
  refine (goes_refuse (by rw [hlen]; omega)).bind ?_
  refine (goes_refuse (hello_version _)).bind (goes_wrote.bind ?_)
  rw [hello_drop.1, hello_drop.2, bytesOf_append]
  refine .set (fun _ => rfl) (fun _ => rfl) ((goes_skipSessionId _).bind ?_)
  rw [← htail]
  refine (goes_parseSuites (cons_ne_nil _ _)).bind ?_
  exact (goes_parseCompression _).bind (goes_parseExtensions hhost)

def serverHelloBody (srandom : Bytes 32) : List UInt8 :=
  put16 0x0303 ++ (srandom.val ++ (0 :: (put16 suite ++ [0])))

def certificateBody (cert : List UInt8) : List UInt8 :=
  put24 (3 + cert.length) ++ (put24 cert.length ++ cert)

theorem serverHelloBody_length (srandom : Bytes 32) : (serverHelloBody srandom).length = 38 := by
  simp [serverHelloBody]

theorem certificateBody_length (cert : List UInt8) :
    (certificateBody cert).length = cert.length + 6 := by
  simp only [certificateBody, length_append, put24_length]
  omega

theorem goes_sendServerHello (henc : c.writeEnc = false) (hsent : c.sent = []) :
    Goes (sendServerHello false) (m + 2) c () m (c.said 2 (serverHelloBody c.srandom)) := by
  refine .look fun s hs => ?_
  obtain rfl := hs
  have hflat : ([put16 0x0303, s.srandom.val, [0], put16 suite, [0]] ++ []).flatten =
      serverHelloBody s.srandom := by
    simp [serverHelloBody]
  refine goes_emit.bind ?_
  rw [if_neg (by decide), hflat]
  refine goes_hsSend henc ?_ ?_
  · rw [serverHelloBody_length]
    decide
  · rw [hsent, serverHelloBody_length, length_nil, sendLimit]
    omega

theorem goes_sendCertificate (henc : c.writeEnc = false)
    (hcert : cert.length + 10 ≤ maxPlain) (hfits : c.sent.length + (cert.length + 15) ≤ sendLimit) :
    Goes (sendCertificate cert) (m + 3) c () m (c.said 11 (certificateBody cert)) := by
  have hflat : [put24 (3 + cert.length), put24 cert.length, cert].flatten =
      certificateBody cert := by
    simp [certificateBody]
  refine goes_malloc.bind ((goes_refuse nofun).bind (goes_emit.bind ?_))
  rw [hflat]
  refine goes_hsSend henc ?_ ?_
  · rw [certificateBody_length]
    omega
  · rw [certificateBody_length]
    omega

theorem goes_parseServerHello (srandom : Bytes 32) :
    Goes (parseServerHello (serverHelloBody srandom)) m c () m { c with srandom } := by
  have hlen := serverHelloBody_length srandom
  rw [serverHelloBody] at hlen ⊢
  generalize htail : put16 suite ++ [0] = tail at hlen ⊢
  refine (goes_refuse (by rw [hlen]; omega)).bind ?_
  refine (goes_refuse (hello_version _)).bind (goes_wrote.bind ?_)
  rw [hello_drop.1, hello_drop.2, bytesOf_append]
  refine .set (fun _ => rfl) (fun _ => rfl) ((goes_skipSessionId _).bind ?_)
  rw [← htail]
  refine (goes_refuse (by decide)).bind ?_
  have hsuite : ¬be16 (put16 suite ++ [0]) ≠ suite := not_not.mpr (be16_put16 (by decide) [0])
  exact (goes_refuse hsuite).bind (goes_refuse fun h => h rfl)

theorem goes_takeKey (hkey : tlsX509RsaPubkey cert 512 8 = ⟨some mod, some e⟩) :
    Goes (takeKey cert) m c true m { c with peerMod := mod } := by
  have hmod : mod.length ≤ 512 := tlsX509RsaPubkey_mod (by rw [hkey])
  have hsize : Buffer.mod.size = 512 ∧ Buffer.exp.size = 8 := ⟨rfl, rfl⟩
  rw [takeKey, hsize.1, hsize.2, hkey]
  refine goes_wrote.bind (goes_wrote.bind ?_)
  rw [if_pos ⟨rfl, rfl, hmod⟩]
  exact goes_wrote.bind (.set (fun _ => rfl) (fun _ => rfl) Goes.pure)

theorem goes_parseCertificate (hcert : cert.length + 10 ≤ maxPlain)
    (hkey : tlsX509RsaPubkey cert 512 8 = ⟨some mod, some e⟩) :
    Goes (parseCertificate (certificateBody cert)) m c () m { c with peerMod := mod } := by
  have hmax : maxPlain = 16384 := rfl
  have hlen := certificateBody_length cert
  have hchain : be24 (certificateBody cert) = (certificateBody cert).length - 3 := by
    rw [hlen, certificateBody, be24_put24 (by omega)]
    omega
  have hloop : Goes (chainLoop (certificateBody cert).length (put24 cert.length ++ cert) false) m c
      true m { c with peerMod := mod } := by
    rw [hlen, chainLoop]
    dsimp only
    rw [be24_put24 (by omega), drop_left' (put24_length _), take_length]
    refine (goes_refuse (lt_irrefl _)).bind ((goes_takeKey hkey).bind ?_)
    rw [drop_length]
    exact .pure
  refine (goes_refuse (by omega)).bind ((goes_refuse (not_not.mpr hchain)).bind ?_)
  exact hloop.bind (goes_refuse nofun)

theorem goes_hsDrain (hrx : c.rx = message type body)
    (hlen : body.length < 2 ^ 24) (hmsg : Goes (drainMessage type body) m c () m c') :
    Goes hsDrain m c () m { c' with trace := .message type :: c'.trace, rx := [] } := by
  have hmlen := message_length type body
  have hbe : be24 ((message type body).drop 1) = body.length := be24_put24 hlen body
  have hbody : ((message type body).drop 4).take body.length = body := by
    exact take_length
  have hleft : (message type body).drop (4 + body.length) = [] :=
    drop_of_length_le (by rw [hmlen]; omega)
  have hdrain : Goes (drainLoop (message type body).length (message type body)) m c [] m
      { c' with trace := .message type :: c'.trace } := by
    rw [hmlen, drainLoop, if_neg (by rw [hmlen]; omega)]
    rw [hbe, if_neg (by rw [hmlen]; omega), hbody, hleft]
    refine hmsg.bind (.set (fun _ => rfl) (fun _ => rfl) ?_)
    exact .pure
  refine .look fun s hs => ?_
  have hs : s.rx = message type body := by
    rw [← hrx, ← hs]
    rfl
  rw [hs]
  exact hdrain.bind (goes_wrote.bind (goes_set (fun _ => rfl) fun _ => rfl))

end

end Vnu.Tls
