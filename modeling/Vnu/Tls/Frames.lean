import Vnu.Tls.Handshake

/-!
What the steps of the handshake leave alone, whether or not they succeed. A step that only
hears its peer sends nothing and keeps the keys; a step in the clear seals nothing; and what
was sent stays sent.
-/
namespace Vnu.Tls

open Lib List Act

class Blind (R : Conn → Conn → Prop) : Prop extends IsPreorder Conn R where
  log : ∀ s log, R s { s with log }
  err : ∀ s err, R s { s with err }
  mallocs : ∀ s mallocs, R s { s with mallocs }

theorem blind_same {β : Type} {f : Conn → β} (hlog : ∀ s log, f { s with log } = f s)
    (herr : ∀ s err, f { s with err } = f s) (hmem : ∀ s mallocs, f { s with mallocs } = f s) :
    Blind (Same f) where
  log := hlog
  err := herr
  mallocs := hmem

section

variable {α : Type} {R : Conn → Conn → Prop} [Blind R]

theorem moves_getConn : Moves R getConn := .query

theorem moves_wrote {buf : Buffer} {off len : ℕ} : Moves R (wrote buf off len) :=
  .update fun s => Blind.log s _

theorem moves_emit {buf : Buffer} {off : ℕ} {ps : List (List UInt8)} :
    Moves R (emit buf off ps) := by
  induction ps generalizing off with
  | nil => exact .pure
  | cons p ps ih => exact .bind moves_wrote fun _ => ih

theorem moves_seterr {msg : String} : Moves R (seterr msg) :=
  .bind moves_wrote fun _ => .bind moves_wrote fun _ =>
    .update fun s => Blind.err s _

theorem moves_giveUp {msg : String} : Moves R (giveUp msg : Hs α) :=
  .bind moves_seterr fun _ => .fail

theorem moves_refuse {p : Prop} [Decidable p] {msg : String} : Moves R (refuse p msg) :=
  .ite moves_giveUp .pure

theorem moves_refuseGlobal {p : Prop} [Decidable p] {msg : String} : Moves R (refuseGlobal p msg) :=
  .ite (.bind moves_wrote fun _ => .fail) .pure

theorem moves_alertErr (desc : UInt8) : Moves R (alertErr desc) :=
  .ite moves_seterr (.ite moves_seterr (.ite moves_seterr (.ite moves_seterr
    (.ite moves_seterr moves_seterr))))

theorem moves_refuseAlert {p : Prop} [Decidable p] {desc : UInt8} : Moves R (refuseAlert p desc) :=
  .ite (.bind (moves_alertErr desc) fun _ => .fail) .pure

theorem moves_malloc : Moves R malloc :=
  .bind .query fun _ => .bind (.update fun s => Blind.mallocs s _) fun _ => .pure

theorem moves_room {cap need : ℕ} : Moves R (room cap need) := by
  refine .ite (.bind moves_malloc fun _ => ?_) .pure
  exact .bind moves_refuse fun _ => .bind moves_wrote fun _ => .pure

theorem moves_skipSessionId (b : List UInt8) : Moves R (skipSessionId b) :=
  .bind moves_refuse fun _ => .pure

theorem moves_prfTo {buf : Buffer} {off : ℕ} {secret seed : List UInt8} {n : ℕ} :
    Moves R (prfTo buf off secret seed n) :=
  .bind moves_wrote fun _ => .bind moves_wrote fun _ =>
    .bind moves_wrote fun _ => .bind moves_wrote fun _ => .pure

theorem moves_verifyData {label : String} {buf : Buffer} {off : ℕ} :
    Moves R (verifyData label buf off) :=
  .bind moves_getConn fun _ => .bind moves_wrote fun _ =>
    .bind moves_emit fun _ => moves_prfTo

theorem moves_encryptTo {n p : List UInt8} : Moves R (encryptTo n p) :=
  .bind moves_getConn fun _ => .bind moves_wrote fun _ =>
    .bind moves_wrote fun _ => .pure

theorem moves_decryptSecret {kp : Keypair} {inp : List UInt8} : Moves R (decryptSecret kp inp) := by
  refine .bind (.bind moves_getConn fun _ => ?_) fun _ => .bind moves_refuse fun _ => .pure
  exact .bind moves_wrote fun _ => .bind moves_wrote fun _ => .pure

/-! A step that sets one part of a connection, for relations that do not look at it. -/

theorem moves_transcriptAdd (h : ∀ s hs hsCap, R s { s with hs, hsCap }) (p : List UInt8) :
    Moves R (transcriptAdd p) := by
  refine .bind moves_getConn fun s => .bind moves_room fun cap => ?_
  exact .bind moves_wrote fun _ => .update fun s => h s _ _

theorem moves_wantRng (h : ∀ s rngs, R s { s with rngs }) (buf : Buffer) (off n : ℕ) :
    Moves R (wantRng buf off n) := by
  refine .bind moves_getConn fun s => .bind moves_refuse fun _ => ?_
  exact .bind moves_wrote fun _ => .bind (.update fun s => h s _) fun _ => .pure

theorem moves_parseServerHello (h : ∀ s srandom, R s { s with srandom }) (b : List UInt8) :
    Moves R (parseServerHello b) := by
  refine .bind moves_refuse fun _ => .bind moves_refuse fun _ => ?_
  refine .bind moves_wrote fun _ => .bind (.update fun s => h s _) fun _ => ?_
  refine .bind (moves_skipSessionId _) fun _ => .bind moves_refuse fun _ => ?_
  exact .bind moves_refuse fun _ => moves_refuse

theorem moves_parseCertificate (h : ∀ s peerMod, R s { s with peerMod }) (b : List UInt8) :
    Moves R (parseCertificate b) := by
  have htake (der : List UInt8) : Moves R (takeKey der) := by
    refine .bind moves_wrote fun _ => .bind moves_wrote fun _ => .ite ?_ .pure
    exact .bind moves_wrote fun _ => .bind (.update fun s => h s _) fun _ => .pure
  have hchain (fuel : ℕ) (b : List UInt8) (got : Bool) : Moves R (chainLoop fuel b got) := by
    induction fuel generalizing b got with
    | zero => exact .pure
    | succ fuel ih =>
      refine .ite .pure (.bind moves_refuse fun _ => ?_)
      exact .bind (.ite .pure (htake _)) fun _ => ih _ _
  refine .bind moves_refuse fun _ => .bind moves_refuse fun _ => ?_
  exact .bind (hchain _ _ _) fun _ => moves_refuse

variable {buf : Buffer} {fuel off n : ℕ} {p : List UInt8} {type : UInt8}

theorem moves_deriveKeys (hmaster : ∀ s master, R s { s with master })
    (hkeys : ∀ s ckey skey civ siv, R s { s with ckey, skey, civ, siv }) :
    Moves R (deriveKeys p) := by
  refine .bind moves_getConn fun _ => .bind moves_emit fun _ => ?_
  refine .bind moves_prfTo fun _ => .bind (.update fun s => hmaster s _) fun _ => ?_
  refine .bind moves_emit fun _ => .bind moves_prfTo fun _ => ?_
  refine .bind moves_wrote fun _ => .bind moves_wrote fun _ => ?_
  refine .bind moves_wrote fun _ => .bind moves_wrote fun _ => ?_
  exact .update fun s => hkeys s _ _ _ _

theorem moves_buildClientHello : Moves R (buildClientHello p) :=
  .bind moves_getConn fun _ => .bind moves_refuse fun _ => .bind moves_emit fun _ => .pure

section

variable (hsizes : ∀ s : Conn, R s { s with sizes := s.sizes.tail })
  (hpeer : ∀ (s : Conn) r, R s { s with peer := s.peer.drop r })
include hsizes hpeer

theorem moves_recvLoop : Moves R (recvLoop buf fuel off n) := by
  induction fuel generalizing off n with
  | zero => exact .pure
  | succ fuel ih =>
    have hone : Moves R (recvFn buf off n) := by
      refine .bind moves_getConn fun s => .bind (.update hsizes) fun _ => ?_
      refine .bind moves_refuse fun _ => .bind moves_wrote fun _ => ?_
      exact .bind (.update fun s => hpeer s _) fun _ => .pure
    exact .ite .pure (.bind hone fun _ => .bind ih fun _ => .pure)

theorem moves_readRecord : Moves R (readRecord buf) :=
  .bind (moves_recvLoop hsizes hpeer) fun _ => .bind moves_refuse fun _ =>
    .bind moves_refuse fun _ => .bind (moves_recvLoop hsizes hpeer) fun _ => .pure

end

theorem moves_sendLoop (hsends : ∀ s : Conn, R s { s with sends := s.sends.tail })
    (hsent : ∀ (s : Conn) p, R s { s with sent := s.sent ++ p }) :
    Moves R (sendLoop fuel p) := by
  induction fuel generalizing p with
  | zero => exact .pure
  | succ fuel ih =>
    refine .ite .pure (.bind moves_getConn fun s => .bind (.update hsends) fun _ => ?_)
    exact .bind moves_refuse fun _ => .bind (.update fun s => hsent s _) fun _ => ih

theorem moves_sendSealed (hseal : ∀ s sealings, R s { s with sealings }) :
    Moves R (sendSealed type p) := by
  have hrecord (key : Bytes 16) (nonce aad : List UInt8) :
      Moves R (sealRecord key nonce aad p) :=
    .bind (.update fun s => Blind.log s _) fun _ =>
      .bind (.update fun s => hseal s _) fun _ => .pure
  refine .bind moves_getConn fun s => .bind moves_emit fun _ => ?_
  refine .bind moves_emit fun _ => .bind (hrecord _ _ _) fun _ => ?_
  exact .bind moves_emit fun _ => .pure

theorem moves_sendPlain : Moves R (sendPlain p) := .bind moves_emit fun _ => .pure

theorem moves_sendBody (hseal : ∀ s sealings, R s { s with sealings }) :
    Moves R (sendBody type p) :=
  .bind moves_getConn fun _ => .ite (moves_sendSealed hseal) moves_sendPlain

/-! A step that sends, for relations that sending a record keeps to. -/

theorem moves_tlsSendRecord (hbody : Moves R (sendBody type p))
    (hloop : ∀ {fuel p}, Moves R (sendLoop fuel p)) (hseq : ∀ s seqW, R s { s with seqW }) :
    Moves R (tlsSendRecord type p) :=
  .bind moves_refuse fun _ => .bind moves_emit fun _ => .bind hbody fun _ =>
    .bind hloop fun _ => .update fun s => hseq s _

variable (hhs : ∀ s hs hsCap, R s { s with hs, hsCap })
  (hsend : ∀ {type pt}, Moves R (tlsSendRecord type pt))
include hhs hsend

theorem moves_hsSend : Moves R (hsSend type p) := by
  refine .bind moves_refuse fun _ => .bind moves_malloc fun _ => ?_
  refine .bind moves_refuse fun _ => .bind moves_emit fun _ => ?_
  exact .bind (moves_transcriptAdd hhs _) fun _ => hsend

theorem moves_clientKeyExchange (hrngs : ∀ s rngs, R s { s with rngs }) :
    Moves R clientKeyExchange := by
  refine .bind moves_getConn fun _ => .bind moves_refuse fun _ => ?_
  refine .bind moves_wrote fun _ => .bind (moves_wantRng hrngs _ _ _) fun _ => ?_
  refine .bind moves_encryptTo fun _ => .bind moves_refuse fun _ => ?_
  exact .bind moves_emit fun _ => .bind (moves_hsSend hhs hsend) fun _ => .pure

end

/-- What a side said, what it says it with, and what it took from its peer. -/
def Conn.outer (s : Conn) : Conn :=
  { newConn ⟨[], [], [], [], [], 0⟩ s.isServer with
    sent := s.sent
    sealings := s.sealings
    seqW := s.seqW
    writeEnc := s.writeEnc
    ckey := s.ckey
    skey := s.skey
    civ := s.civ
    siv := s.siv
    trace := s.trace }

def Conn.voice (s : Conn) : Conn := { s.outer with trace := [] }

abbrev Inner {α : Type} (x : Hs α) : Prop := Moves (Same Conn.outer) x

abbrev Mute {α : Type} (x : Hs α) : Prop := Moves (Same Conn.voice) x

theorem Inner.mute {α : Type} {x : Hs α} (h : Inner x) : Mute x :=
  h.mono fun s s' heq => by
    have heq : s'.outer = s.outer := heq
    show s'.voice = s.voice
    rw [Conn.voice, Conn.voice, heq]

instance : Blind (Same Conn.outer) :=
  blind_same (fun _ _ => rfl) (fun _ _ => rfl) fun _ _ => rfl

instance : Blind (Same Conn.voice) :=
  blind_same (fun _ _ => rfl) (fun _ _ => rfl) fun _ _ => rfl

theorem inner_transcriptAdd {p : List UInt8} : Inner (transcriptAdd p) :=
  moves_transcriptAdd (fun _ _ _ => rfl) p

theorem inner_wantRng {buf : Buffer} {off n : ℕ} : Inner (wantRng buf off n) :=
  moves_wantRng (fun _ _ => rfl) buf off n

theorem inner_rxAdd (p : List UInt8) : Inner (rxAdd p) := by
  refine .bind moves_getConn fun s => .bind moves_room fun cap => ?_
  exact .bind moves_wrote fun _ => .update fun _ => rfl

theorem inner_readRecord {out : Buffer} : Inner (readRecord out) :=
  moves_readRecord (fun _ => rfl) fun _ _ => rfl

theorem inner_drainMessage (type : UInt8) (body : List UInt8) : Inner (drainMessage type body) :=
  .ite (moves_parseServerHello (fun _ _ => rfl) _) (.ite (moves_parseCertificate (fun _ _ => rfl) _)
    (.ite .pure (.ite moves_giveUp (.ite (.update fun _ => rfl) moves_giveUp))))

theorem inner_extensionLoop (fuel : ℕ) (b : List UInt8) (reneg : Bool) :
    Inner (extensionLoop fuel b reneg) := by
  induction fuel generalizing b reneg with
  | zero => exact .pure
  | succ fuel ih =>
    exact .ite .pure (.bind moves_refuse fun _ => .bind moves_refuse fun _ => ih _ _)

theorem inner_parseClientHello (b : List UInt8) : Inner (parseClientHello b) := by
  have hsuites (b : List UInt8) : Inner (parseSuites b) :=
    .bind moves_refuse fun _ => .bind moves_refuse fun _ =>
      .bind moves_refuse fun _ => .pure
  have hcompression (b : List UInt8) : Inner (parseCompression b) :=
    .bind moves_refuse fun _ => .bind moves_refuse fun _ =>
      .bind moves_refuse fun _ => .pure
  refine .bind moves_refuse fun _ => .bind moves_refuse fun _ => ?_
  refine .bind moves_wrote fun _ => .bind (.update fun _ => rfl) fun _ => ?_
  refine .bind (moves_skipSessionId _) fun _ => .bind (hsuites _) fun _ => ?_
  refine .bind (hcompression _) fun _ => .ite .pure ?_
  exact .bind moves_refuse fun _ => inner_extensionLoop _ _ _

theorem inner_recvHsMsg (fuel : ℕ) : Inner (recvHsMsg fuel) := by
  induction fuel with
  | zero => exact .fail
  | succ fuel ih =>
    refine .bind inner_readRecord fun _ => .bind (.update fun _ => rfl) fun _ => ?_
    refine .bind moves_refuseAlert fun _ => .bind moves_refuse fun _ => ?_
    refine .bind (inner_rxAdd _) fun _ => .bind moves_getConn fun _ => .ite .pure ?_
    exact .bind moves_refuse fun _ => ih

theorem inner_recvClientHello (fuel : ℕ) : Inner (recvClientHello fuel) := by
  refine .bind (inner_recvHsMsg _) fun _ => .bind moves_getConn fun _ => ?_
  refine .bind moves_refuse fun _ => .bind (inner_parseClientHello _) fun _ => ?_
  exact .bind inner_transcriptAdd fun _ => .bind (.update fun _ => rfl) fun _ => .pure

theorem inner_recvKeyExchange {fuel : ℕ} {kp : Keypair} : Inner (recvKeyExchange fuel kp) :=
  .bind (inner_recvHsMsg _) fun _ => .bind moves_getConn fun _ => .bind moves_refuse fun _ =>
    .bind inner_transcriptAdd fun _ => .pure

theorem mute_flightLoop (fuel : ℕ) : Mute (flightLoop fuel) := by
  have hdrain (fuel : ℕ) (p : List UInt8) : Mute (drainLoop fuel p) := by
    induction fuel generalizing p with
    | zero => exact .pure
    | succ fuel ih =>
      refine .ite .pure (.ite .pure (.bind (inner_drainMessage _ _).mute fun _ => ?_))
      exact .bind (.update fun _ => rfl) fun _ => ih _
  induction fuel with
  | zero => exact .fail
  | succ fuel ih =>
    refine .bind inner_readRecord.mute fun _ => .bind (.update fun _ => rfl) fun _ => ?_
    refine .bind moves_refuseAlert fun _ => .bind moves_refuse fun _ => ?_
    refine .bind inner_transcriptAdd.mute fun _ => .bind (inner_rxAdd _).mute fun _ => ?_
    refine .bind (.bind moves_getConn fun _ => .bind (hdrain _ _) fun _ => ?_) fun _ => ?_
    · exact .bind moves_wrote fun _ => .update fun _ => rfl
    · exact .bind moves_getConn fun _ => .ite .pure ih

theorem mute_checkFinished {key : Bytes 16} {iv : Bytes 4} {label : String} {rec : List UInt8} :
    Mute (checkFinished key iv label rec) := by
  refine .bind moves_getConn fun _ => .bind moves_refuse fun _ => ?_
  refine .bind moves_emit fun _ => .bind moves_emit fun _ => ?_
  refine .bind (.update fun _ => rfl) fun _ => .bind moves_refuse fun _ => ?_
  refine .bind (.update fun _ => rfl) fun _ => .bind moves_refuse fun _ => ?_
  refine .bind moves_verifyData fun _ => .bind moves_refuse fun _ => ?_
  exact .bind (.update fun _ => rfl) fun _ => .pure

theorem mute_takeCcs (rec : List UInt8) : Mute (takeCcs rec) :=
  .bind moves_refuse fun _ => .update fun _ => rfl

theorem mute_connectRecord (r : Record) : Mute (connectRecord r) := by
  refine .bind moves_getConn fun _ => .ite (.bind (mute_takeCcs _) fun _ => .pure) ?_
  refine .bind moves_refuseAlert fun _ => .bind moves_refuse fun _ => .ite ?_ ?_
  · exact .bind inner_transcriptAdd.mute fun _ => .pure
  · exact .bind mute_checkFinished fun _ => .pure

theorem mute_acceptRecord (r : Record) : Mute (acceptRecord r) := by
  refine .bind moves_getConn fun _ => .ite (.bind (mute_takeCcs _) fun _ => .pure) ?_
  refine .bind moves_refuseAlert fun _ => .bind moves_refuse fun _ => ?_
  exact .bind mute_checkFinished fun _ =>
    .bind inner_transcriptAdd.mute fun _ => .pure

theorem mute_finishedLoop {handle : Record → Hs Bool} (h : ∀ r, Mute (handle r)) (fuel : ℕ) :
    Mute (finishedLoop handle fuel) := by
  induction fuel with
  | zero => exact .fail
  | succ fuel ih =>
    exact .bind inner_readRecord.mute fun _ => .bind (h _) fun _ => .ite .pure ih

structure Speaks (s s' : Conn) : Prop where
  sent : s.sent <+: s'.sent
  side : s'.isServer = s.isServer
  clear : s.writeEnc = false → s'.writeEnc = false ∧ s'.sealings = s.sealings

instance : IsPreorder Conn Speaks where
  refl _ := ⟨prefix_refl _, rfl, fun h => ⟨h, rfl⟩⟩
  trans _ _ _ h h' :=
    { sent := h.sent.trans h'.sent
      side := h'.side.trans h.side
      clear := fun hs => ⟨(h'.clear (h.clear hs).1).1,
        (h'.clear (h.clear hs).1).2.trans (h.clear hs).2⟩ }

instance : Blind Speaks where
  log _ _ := ⟨prefix_refl _, rfl, fun h => ⟨h, rfl⟩⟩
  err _ _ := ⟨prefix_refl _, rfl, fun h => ⟨h, rfl⟩⟩
  mallocs _ _ := ⟨prefix_refl _, rfl, fun h => ⟨h, rfl⟩⟩

abbrev Clear {α : Type} (x : Hs α) : Prop := Moves Speaks x

theorem voice_fields {s s' : Conn} (h : s'.voice = s.voice) :
    s'.sent = s.sent ∧ s'.sealings = s.sealings ∧ s'.writeEnc = s.writeEnc ∧
      s'.isServer = s.isServer := by
  have hsent := congrArg Conn.sent h
  have hseal := congrArg Conn.sealings h
  have henc := congrArg Conn.writeEnc h
  have hside := congrArg Conn.isServer h
  exact ⟨hsent, hseal, henc, hside⟩

theorem Speaks.of_eq {s s' : Conn} (hsent : s'.sent = s.sent) (hseal : s'.sealings = s.sealings)
    (henc : s'.writeEnc = s.writeEnc) (hside : s'.isServer = s.isServer) : Speaks s s' :=
  ⟨hsent ▸ prefix_refl _, hside, fun hs => ⟨henc.trans hs, hseal⟩⟩

theorem Speaks.of_voice {s s' : Conn} (h : s'.voice = s.voice) : Speaks s s' := by
  obtain ⟨hsent, hseal, henc, hside⟩ := voice_fields h
  exact .of_eq hsent hseal henc hside

section

variable {α : Type}

theorem Mute.clear {x : Hs α} (h : Mute x) : Clear x := h.mono fun _ _ => Speaks.of_voice

theorem Inner.clear {x : Hs α} (h : Inner x) : Clear x := h.mute.clear

theorem clear_sendLoop {fuel : ℕ} {p : List UInt8} : Clear (sendLoop fuel p) :=
  moves_sendLoop (fun _ => .of_voice rfl) fun _ _ =>
    ⟨prefix_append _ _, rfl, fun hs => ⟨hs, rfl⟩⟩

def Conn.posture (s : Conn) : List UInt8 × Bool × Bool := (s.sent, s.isServer, s.writeEnc)

instance : Blind (Same Conn.posture) :=
  blind_same (fun _ _ => rfl) (fun _ _ => rfl) fun _ _ => rfl

theorem clear_sendBody (type : UInt8) (pt : List UInt8) : Clear (sendBody type pt) := by
  intro s
  have hrun : (sendBody type pt s).2 =
      ((if s.writeEnc then sendSealed type pt else sendPlain pt) s).2 := rfl
  rw [hrun]
  cases henc : s.writeEnc with
  | false => exact (moves_sendPlain : Clear (sendPlain pt)) s
  | true =>
    have hsame : ((sendSealed type pt) s).2.posture = s.posture :=
      (moves_sendSealed fun _ _ => rfl : Moves (Same Conn.posture) (sendSealed type pt)) s
    simp only [Conn.posture, Prod.mk.injEq] at hsame
    exact ⟨hsame.1 ▸ prefix_refl _, hsame.2.1,
      fun hclear => absurd (hclear.symm.trans henc) Bool.false_ne_true⟩

theorem clear_tlsSendRecord {type : UInt8} {pt : List UInt8} : Clear (tlsSendRecord type pt) :=
  moves_tlsSendRecord (clear_sendBody _ _) clear_sendLoop fun _ _ => .of_eq rfl rfl rfl rfl

theorem clear_hsSend {type : UInt8} {body : List UInt8} : Clear (hsSend type body) :=
  moves_hsSend (fun _ _ _ => .of_voice rfl) clear_tlsSendRecord

theorem clear_sendClientHello (host : List UInt8) : Clear (sendClientHello host) := by
  refine .bind moves_buildClientHello fun _ => .bind moves_emit fun _ => ?_
  refine .bind inner_transcriptAdd.clear fun _ => .bind clear_tlsSendRecord fun _ => ?_
  exact .update fun _ => .of_voice rfl

theorem clear_clientKeyExchange : Clear clientKeyExchange :=
  moves_clientKeyExchange (fun _ _ _ => .of_voice rfl) clear_tlsSendRecord fun _ _ => .of_voice rfl

theorem clear_deriveKeys {pms : List UInt8} : Clear (deriveKeys pms) :=
  moves_deriveKeys (fun _ _ => .of_voice rfl) fun _ _ _ _ _ => .of_eq rfl rfl rfl rfl

theorem clear_acceptHello (fuel : ℕ) (kp : Keypair) : Clear (acceptHello fuel kp) := by
  have hhello (reneg : Bool) : Clear (sendServerHello reneg) :=
    .bind moves_getConn fun _ => .bind moves_emit fun _ => clear_hsSend
  have hcert : Clear (sendCertificate kp.cert) :=
    .bind moves_malloc fun _ => .bind moves_refuse fun _ =>
      .bind moves_emit fun _ => clear_hsSend
  refine .bind moves_refuseGlobal fun _ => .bind moves_malloc fun _ => ?_
  refine .bind moves_refuseGlobal fun _ => .bind inner_wantRng.clear fun _ => ?_
  refine .bind ?_ fun _ => .bind (inner_recvClientHello _).clear fun _ => ?_
  · exact .update fun _ => .of_voice rfl
  · exact .bind (hhello _) fun _ => .bind hcert fun _ => clear_hsSend

end

def Conn.pen (s : Conn) : Conn := { s.voice with sent := [] }

instance : Blind (Same Conn.pen) :=
  blind_same (fun _ _ => rfl) (fun _ _ => rfl) fun _ _ => rfl

theorem Mute.pen {α : Type} {x : Hs α} (h : Mute x) : Moves (Same Conn.pen) x :=
  h.mono fun s s' heq => by
    have heq : s'.voice = s.voice := heq
    show s'.pen = s.pen
    rw [Conn.pen, Conn.pen, heq]

theorem pen_sendLoop {fuel : ℕ} {p : List UInt8} : Moves (Same Conn.pen) (sendLoop fuel p) :=
  moves_sendLoop (fun _ => rfl) fun _ _ => rfl

def Longer (s s' : Conn) : Prop := s.sent <+: s'.sent

instance : IsPreorder Conn Longer where
  refl _ := prefix_refl _
  trans _ _ _ h h' := List.IsPrefix.trans h h'

instance : Blind Longer where
  log _ _ := prefix_refl _
  err _ _ := prefix_refl _
  mallocs _ _ := prefix_refl _

abbrev Grows {α : Type} (x : Hs α) : Prop := Moves Longer x

theorem Clear.grows {α : Type} {x : Hs α} (h : Clear x) : Grows x := h.mono fun _ _ h => h.sent

theorem Mute.grows {α : Type} {x : Hs α} (h : Mute x) : Grows x := h.clear.grows

theorem grows_changeCipherSpec : Grows changeCipherSpec :=
  .bind moves_wrote fun _ => .bind clear_sendLoop.grows fun _ =>
    .update fun _ => prefix_refl _

theorem grows_sendFinished (label : String) : Grows (sendFinished label) :=
  .bind moves_verifyData fun _ => .bind moves_emit fun _ =>
    .bind inner_transcriptAdd.mute.grows fun _ => clear_tlsSendRecord.grows

end Vnu.Tls
