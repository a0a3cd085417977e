import Vnu.Tls.Tidy

/-!
Where the handshake writes. Every store lies inside its array, except that a record of more than 56
bytes behind the ChangeCipherSpec writes past an array of 32.
-/
namespace Vnu.Tls

open Lib List Option Act Nat

variable {buf : Buffer} {off : ℕ} {label : String} {r : Record} {kp : Keypair} {s₀ : Conn}
  {pms : List UInt8}

section

variable {k : ℕ}

theorem clean_hsSend {type : UInt8} {body : List UInt8} : Clean k (hsSend type body) := by
  refine .bind keeps_refuse fun _ _ => .bind clean_malloc fun _ _ =>
    .bind keeps_refuse fun _ _ => .bind (clean_emit ?_) fun _ _ =>
    .bind clean_transcriptAdd fun _ _ => clean_tlsSendRecord
  simp [Buffer.size]

theorem keeps_buildClientHello (host : List UInt8) :
    Keeps (Tidy k) (buildClientHello host) fun hello => hello.length ≤ 256 := by
  refine .bind keeps_getConn fun s _ => .bind keeps_refuse fun _ hfits => ?_
  have hlen : 66 + host.length ≤ 256 := by
    simp only [Buffer.size] at hfits
    omega
  refine .bind (clean_emit ?_) fun _ _ => .pure ?_
  · simp
    omega
  · simp
    omega

theorem clean_skipSessionId (b : List UInt8) : Clean k (skipSessionId b) :=
  .bind keeps_refuse fun _ _ => .pure trivial

theorem clean_parseServerHello (b : List UInt8) : Clean k (parseServerHello b) := by
  refine .bind keeps_refuse fun _ _ => .bind keeps_refuse fun _ _ =>
    .bind (clean_wrote (by decide)) fun _ _ => .bind (clean_update fun _ => rfl) fun _ _ => ?_
  refine .bind (clean_skipSessionId _) fun _ _ => .bind keeps_refuse fun _ _ =>
    .bind keeps_refuse fun _ _ => ?_
  exact keeps_refuse.mono fun _ _ => trivial

theorem clean_takeKey (der : List UInt8) : Clean k (takeKey der) := by
  have hmod : ((tlsX509RsaPubkey der Buffer.mod.size Buffer.exp.size).mod.getD
    []).length ≤ 512 := by
    cases h : (tlsX509RsaPubkey der Buffer.mod.size Buffer.exp.size).mod with
    | none => exact zero_le _
    | some v => exact tlsX509RsaPubkey_mod h
  have hexp : ((tlsX509RsaPubkey der Buffer.mod.size Buffer.exp.size).exp.getD []).length ≤ 8 := by
    cases h : (tlsX509RsaPubkey der Buffer.mod.size Buffer.exp.size).exp with
    | none => exact zero_le _
    | some v => exact tlsX509RsaPubkey_exp h
  refine .bind (clean_wrote ?_) fun _ _ => .bind (clean_wrote ?_) fun _ _ => .ite (fun h => ?_) ?_
  · rw [zero_add]
    exact hmod
  · rw [zero_add]
    exact hexp
  · refine .bind (clean_wrote ?_) fun _ _ => .bind (clean_update fun _ => rfl) fun _ _ =>
      .pure trivial
    rw [zero_add]
    exact h.2.2
  · exact fun _ => .pure trivial

theorem clean_chainLoop (fuel : ℕ) (b : List UInt8) (got : Bool) :
    Clean k (chainLoop fuel b got) := by
  induction fuel generalizing b got with
  | zero => exact .pure trivial
  | succ fuel ih =>
    refine .ite (fun _ => .pure trivial) fun _ => .bind keeps_refuse fun _ _ => ?_
    refine .bind (P := fun _ => True) ?_ fun _ _ => ih _ _
    exact .ite (fun _ => .pure trivial) fun _ => clean_takeKey _

theorem clean_parseCertificate (b : List UInt8) : Clean k (parseCertificate b) := by
  refine .bind keeps_refuse fun _ _ => .bind keeps_refuse fun _ _ =>
    .bind (clean_chainLoop _ _ _) fun _ _ => ?_
  exact keeps_refuse.mono fun _ _ => trivial

theorem clean_drainMessage (type : UInt8) (body : List UInt8) : Clean k
    (drainMessage type body) := by
  refine .ite (fun _ => clean_parseServerHello _) fun _ => ?_
  refine .ite (fun _ => clean_parseCertificate _) fun _ => ?_
  refine .ite (fun _ => .pure trivial) fun _ => ?_
  refine .ite (fun _ => keeps_giveUp _) fun _ => ?_
  exact .ite (fun _ => clean_update fun _ => rfl) fun _ => keeps_giveUp _

theorem keeps_drainLoop (fuel : ℕ) (p : List UInt8) :
    Keeps (Tidy k) (drainLoop fuel p) fun left => left.length ≤ p.length := by
  induction fuel generalizing p with
  | zero => exact .pure le_rfl
  | succ fuel ih =>
    refine .ite (fun _ => .pure le_rfl) fun _ => .ite (fun _ => .pure le_rfl) fun _ => ?_
    refine .bind (clean_drainMessage _ _) fun _ _ => .bind (clean_update fun _ => rfl) fun _ _ =>
      (ih _).mono fun left hleft => ?_
    rw [length_drop] at hleft
    omega

theorem clean_hsDrain : Clean k hsDrain := by
  intro s hs
  have hstart : Tidy s.rxCap s := ⟨hs.hs, hs.rx, hs.inside, le_rfl⟩
  simp only [hsDrain, ends_bind]
  refine (keeps_drainLoop _ _ s hstart).mono ?_ fun s' hs' => ?_
  · rintro left s' ⟨hs', hleft⟩
    have hfits : left.length ≤ s.rxCap := le_trans hleft hs.rx
    have hlog := hs'.log_cons (w := ⟨.heap s.rxCap, 0, left.length⟩)
      (Write.inside_of_le (by rw [zero_add]; exact hfits))
    exact ⟨⟨hlog.hs, le_trans hfits hlog.grown, hlog.inside, le_trans hs.grown hlog.grown⟩, trivial⟩
  · exact ⟨hs'.hs, hs'.rx, hs'.inside, le_trans hs.grown hs'.grown⟩

theorem tlsPrf_length_le (secret seed : List UInt8) (n : ℕ) :
    (tlsPrf secret seed n).length ≤ n := by
  rcases lt_or_ge 128 seed.length with hlong | hshort
  · rw [tlsPrf, if_pos hlong]
    exact zero_le n
  · exact (tlsPrf_length secret seed n hshort).le

theorem clean_prfTo {n : ℕ} {secret seed : List UInt8}
    (h : off + n ≤ buf.size) : Clean k (prfTo buf off secret seed n) := by
  have hout := tlsPrf_length_le secret seed n
  refine .bind (clean_wrote ?_) fun _ _ => .bind (clean_wrote (by decide)) fun _ _ =>
    .bind (clean_wrote ?_) fun _ _ => .bind (clean_wrote (by omega)) fun _ _ => .pure trivial
  · simp only [Buffer.size]
    split_ifs <;> omega
  · simp only [Buffer.size]
    split_ifs <;> omega

theorem clean_deriveKeys (pms : List UInt8) : Clean k (deriveKeys pms) := by
  refine .bind keeps_getConn fun s _ => .bind (clean_emit ?_) fun _ _ =>
    .bind (clean_prfTo (by decide)) fun master _ => .bind (clean_update fun _ => rfl) fun _ _ =>
    .bind (clean_emit ?_) fun _ _ => .bind (clean_prfTo (by decide)) fun kb _ => ?_
  · simp [Buffer.size, asciiBytes]
  · simp [Buffer.size, asciiBytes]
  · iterate 4 refine .bind (clean_wrote (by decide)) fun _ _ => ?_
    exact clean_update fun _ => rfl

theorem clean_verifyData (hlabel : (asciiBytes label).length ≤ 15) (h : off + 12 ≤ buf.size) :
    Clean k (verifyData label buf off) := by
  refine .bind keeps_getConn fun s _ => .bind (clean_wrote (by decide)) fun _ _ =>
    .bind (clean_emit ?_) fun _ _ => clean_prfTo h
  simp [Buffer.size, sha256Of_length]
  omega

theorem clean_changeCipherSpec : Clean k changeCipherSpec :=
  .bind (clean_wrote (by decide)) fun _ _ => .bind (clean_sendAll _) fun _ _ =>
    clean_update fun _ => rfl

theorem clean_sendFinished (hlabel : (asciiBytes label).length ≤ 15) :
    Clean k (sendFinished label) :=
  .bind (clean_verifyData hlabel (by decide)) fun _ _ => .bind (clean_emit (by decide)) fun _ _ =>
    .bind clean_transcriptAdd fun _ _ => clean_tlsSendRecord

theorem openedHeap_inside (key : Bytes 16) (iv : Bytes 4) (seq : UInt64) {rec : List UInt8}
    (hshort : 24 ≤ rec.length) (hlong : rec.length ≤ Buffer.finishedRec.size) :
    (∀ p ∈ (openedHeap key iv seq rec).log, Write.Inside ⟨finishedBuffer p.obj, p.off, 1⟩) ↔
      rec.length ≤ 56 := by
  constructor
  · intro hall
    by_contra hgt
    have hin := hall ⟨4, 32⟩ ((mem_openedHeap_log key iv seq).mpr (.inl ⟨32, by omega, rfl⟩)) 0
      (by decide)
    exact absurd hin (by decide)
  · intro hle p hp
    apply Write.inside_of_le
    obtain ⟨i, hi, rfl⟩ | ⟨i, hi, rfl⟩ := (mem_openedHeap_log key iv seq).mp hp
    · show i + 1 ≤ 32
      omega
    · show 8 + (rec.length - 24) + i + 1 ≤ Buffer.finishedRec.size
      omega

theorem Tidy.open {s : Conn} (hs : Tidy k s) (key : Bytes 16) (iv : Bytes 4) (seq : UInt64)
    {rec : List UInt8} (hshort : 24 ≤ rec.length) (hlong : rec.length ≤ Buffer.finishedRec.size) :
    Tidy k { s with
      opened := rec.length :: s.opened
      log := (openedHeap key iv seq rec).log.map
        (fun p => ⟨finishedBuffer p.obj, p.off, 1⟩) ++ s.log } := by
  refine ⟨hs.hs, hs.rx, ?_, hs.grown⟩
  have hnew := openedHeap_inside key iv seq hshort hlong
  simp only [forall_mem_append, List.forall_mem_map, forall_mem_cons, hnew, hs.inside]

theorem clean_checkFinished (key : Bytes 16) (iv : Bytes 4)
    (hlabel : (asciiBytes label).length ≤ 15) {rec : List UInt8}
    (hrec : rec.length ≤ Buffer.finishedRec.size) : Clean k (checkFinished key iv label rec) := by
  refine .bind keeps_getConn fun s _ => .bind keeps_refuse fun _ hshort => ?_
  have hshort := not_lt.mp hshort
  refine .bind (clean_emit ?_) fun _ _ => .bind (clean_emit ?_) fun _ _ => ?_
  · simp [Buffer.size]
    omega
  · simp [Buffer.size, seqBytes_length]
  rw [finishedOpen_eq key iv s.seqR hshort]
  refine .bind (P := fun _ => True) (.update fun s' hs' => ?_) fun _ _ => ?_
  · exact hs'.open key iv s.seqR hshort hrec
  refine .bind keeps_refuse fun _ _ => .bind (clean_update fun _ => rfl) fun _ _ =>
    .bind keeps_refuse fun _ _ => .bind (clean_verifyData hlabel (by decide)) fun _ _ =>
    .bind keeps_refuse fun _ _ => .bind (clean_update fun _ => rfl) fun _ _ => .pure trivial

theorem clean_takeCcs (rec : List UInt8) : Clean k (takeCcs rec) :=
  .bind keeps_refuse fun _ _ => clean_update fun _ => rfl

theorem clean_connectRecord (hr : r.body.length ≤ Buffer.finishedRec.size) :
    Clean k (connectRecord r) := by
  refine .bind keeps_getConn fun s _ => .ite (fun _ => ?_) fun _ => ?_
  · exact .bind (clean_takeCcs _) fun _ _ => .pure trivial
  refine .bind clean_refuseAlert fun _ _ => .bind keeps_refuse fun _ _ =>
    .ite (fun _ => ?_) fun _ => ?_
  · exact .bind clean_transcriptAdd fun _ _ => .pure trivial
  · exact .bind (clean_checkFinished _ _ (by decide) hr) fun _ _ => .pure trivial

theorem clean_acceptRecord (hr : r.body.length ≤ Buffer.finishedRec.size) :
    Clean k (acceptRecord r) := by
  refine .bind keeps_getConn fun s _ => .ite (fun _ => ?_) fun _ => ?_
  · exact .bind (clean_takeCcs _) fun _ _ => .pure trivial
  refine .bind clean_refuseAlert fun _ _ => .bind keeps_refuse fun _ _ => ?_
  exact .bind (clean_checkFinished _ _ (by decide) hr) fun _ _ =>
    .bind clean_transcriptAdd fun _ _ => .pure trivial

theorem clean_finishedLoop {handle : Record → Hs Bool}
    (hhandle : ∀ r : Record, r.body.length ≤ Buffer.finishedRec.size → Clean k (handle r))
    (fuel : ℕ) : Clean k (finishedLoop handle fuel) := by
  induction fuel with
  | zero => exact .fail
  | succ fuel ih =>
    exact .bind keeps_readRecord fun r hr => .bind (hhandle r hr) fun _ _ =>
      .ite (fun _ => .pure trivial) fun _ => ih

theorem clean_sendClientHello (host : List UInt8) : Clean k (sendClientHello host) := by
  refine .bind (keeps_buildClientHello host) fun hello hhello => .bind (clean_emit ?_) fun _ _ =>
    .bind clean_transcriptAdd fun _ _ => .bind clean_tlsSendRecord fun _ _ =>
    clean_update fun _ => rfl
  simp [Buffer.size]
  omega

theorem clean_flightLoop (fuel : ℕ) : Clean k (flightLoop fuel) := by
  induction fuel with
  | zero => exact .fail
  | succ fuel ih =>
    refine .bind keeps_readRecord fun r _ => .bind (clean_update fun _ => rfl) fun _ _ =>
      .bind clean_refuseAlert fun _ _ => .bind keeps_refuse fun _ _ =>
      .bind clean_transcriptAdd fun _ _ => .bind (clean_rxAdd _) fun _ _ =>
      .bind clean_hsDrain fun _ _ => .bind keeps_getConn fun s _ => ?_
    exact .ite (fun _ => .pure trivial) fun _ => ih

theorem tlsModpow_length (junk : UInt32) (base exp mod : List UInt8) :
    (tlsModpow junk base exp mod).length = min 512 mod.length := by
  rw [tlsModpow]
  split_ifs
  · rw [length_replicate, length_take]
  · rw [bnToBytes, length_map, length_range, length_take]

theorem keeps_encryptTo {n : List UInt8} (hn : n.length = 256) (m : List UInt8) :
    Keeps (Tidy k) (encryptTo n m) fun out => (out.getD []).length ≤ 256 := by
  have hout (junk : UInt32) : ((tlsRsaEncryptPkcs1 junk n m).getD []).length ≤ 256 := by
    rw [tlsRsaEncryptPkcs1]
    split_ifs
    · exact zero_le _
    · exact zero_le _
    · rw [getD_some, tlsModpow_length]
      omega
  refine .bind keeps_getConn fun s _ => .bind (clean_wrote ?_) fun _ _ =>
    .bind (clean_wrote ?_) fun _ _ => .pure (hout s.junk)
  · simp only [Buffer.size]
    split_ifs <;> omega
  · rw [zero_add]
    exact hout s.junk

theorem clean_clientKeyExchange : Clean k clientKeyExchange := by
  refine .bind keeps_getConn fun s _ => .bind keeps_refuse fun _ hmod =>
    .bind (clean_wrote (by decide)) fun _ _ => .bind (clean_wantRng (by decide)) fun rand _ =>
    .bind (keeps_encryptTo (not_not.mp hmod) _) fun enc henc => .bind keeps_refuse fun _ _ =>
    .bind (clean_emit ?_) fun _ _ => .bind clean_hsSend fun _ _ => .pure trivial
  simp [Buffer.size]
  omega

theorem clean_tlsConnect (fuel : ℕ) (host : List UInt8) : Clean k (tlsConnect fuel host) :=
  .bind clean_malloc fun _ _ => .bind keeps_refuseGlobal fun _ _ =>
    .bind (clean_wantRng (by decide)) fun _ _ => .bind (clean_update fun _ => rfl) fun _ _ =>
    .bind (clean_sendClientHello _) fun _ _ => .bind (clean_flightLoop _) fun _ _ =>
    .bind clean_clientKeyExchange fun _ _ => .bind (clean_deriveKeys _) fun _ _ =>
    .bind clean_changeCipherSpec fun _ _ => .bind (clean_sendFinished (by decide)) fun _ _ =>
    .bind (clean_finishedLoop (fun _ => clean_connectRecord) _) fun _ _ => clean_update fun _ => rfl

theorem clean_extensionLoop (fuel : ℕ) (b : List UInt8) (reneg : Bool) :
    Clean k (extensionLoop fuel b reneg) := by
  induction fuel generalizing b reneg with
  | zero => exact .pure trivial
  | succ fuel ih =>
    exact .ite (fun _ => .pure trivial) fun _ => .bind keeps_refuse fun _ _ =>
      .bind keeps_refuse fun _ _ => ih _ _

theorem clean_parseSuites (b : List UInt8) : Clean k (parseSuites b) :=
  .bind keeps_refuse fun _ _ => .bind keeps_refuse fun _ _ =>
    .bind keeps_refuse fun _ _ => .pure trivial

theorem clean_parseCompression (b : List UInt8) : Clean k (parseCompression b) :=
  .bind keeps_refuse fun _ _ => .bind keeps_refuse fun _ _ =>
    .bind keeps_refuse fun _ _ => .pure trivial

theorem clean_parseExtensions (b : List UInt8) (reneg : Bool) : Clean k (parseExtensions b reneg) :=
  .ite (fun _ => .pure trivial) fun _ => .bind keeps_refuse fun _ _ => clean_extensionLoop _ _ _

theorem clean_parseClientHello (b : List UInt8) : Clean k (parseClientHello b) :=
  .bind keeps_refuse fun _ _ => .bind keeps_refuse fun _ _ =>
    .bind (clean_wrote (by decide)) fun _ _ => .bind (clean_update fun _ => rfl) fun _ _ =>
    .bind (clean_skipSessionId _) fun _ _ => .bind (clean_parseSuites _) fun _ _ =>
    .bind (clean_parseCompression _) fun _ _ => clean_parseExtensions _ _

theorem clean_recvHsMsg (fuel : ℕ) : Clean k (recvHsMsg fuel) := by
  induction fuel with
  | zero => exact .fail
  | succ fuel ih =>
    refine .bind keeps_readRecord fun r _ => .bind (clean_update fun _ => rfl) fun _ _ =>
      .bind clean_refuseAlert fun _ _ => .bind keeps_refuse fun _ _ =>
      .bind (clean_rxAdd _) fun _ _ => .bind keeps_getConn fun s _ => ?_
    exact .ite (fun _ => .pure trivial) fun _ => .bind keeps_refuse fun _ _ => ih

theorem clean_clearRx : Clean k (update fun s => { s with rx := [] }) :=
  .update fun _ hs => ⟨hs.hs, zero_le _, hs.inside, hs.grown⟩

theorem clean_recvClientHello (fuel : ℕ) : Clean k (recvClientHello fuel) :=
  .bind (clean_recvHsMsg _) fun _ _ => .bind keeps_getConn fun _ _ =>
    .bind keeps_refuse fun _ _ => .bind (clean_parseClientHello _) fun _ _ =>
    .bind clean_transcriptAdd fun _ _ => .bind clean_clearRx fun _ _ => .pure trivial

theorem clean_sendServerHello (reneg : Bool) : Clean k (sendServerHello reneg) := by
  refine .bind keeps_getConn fun s _ => .bind (clean_emit ?_) fun _ _ => clean_hsSend
  cases reneg <;> simp [Buffer.size]

theorem clean_sendCertificate (cert : List UInt8) : Clean k (sendCertificate cert) := by
  refine .bind clean_malloc fun _ _ => .bind keeps_refuse fun _ _ =>
    .bind (clean_emit ?_) fun _ _ => clean_hsSend
  simp [Buffer.size]
  omega

theorem clean_decryptTo (hmod : kp.mod.length ≤ 512) (inp : List UInt8) :
    Clean k (decryptTo kp inp) := by
  have hout (junk : UInt32) :
      ((tlsRsaDecryptPkcs1 junk kp.mod kp.priv inp).getD []).length ≤ 512 := by
    rw [tlsRsaDecryptPkcs1]
    dsimp only
    split_ifs
    iterate 4 exact zero_le _
    rw [getD_some, length_drop, tlsModpow_length]
    omega
  refine .bind keeps_getConn fun s _ => .bind (clean_wrote ?_) fun _ _ =>
    .bind (clean_wrote ?_) fun _ _ => .pure trivial
  · rw [zero_add]
    exact hmod
  · rw [zero_add]
    exact hout s.junk

theorem clean_recvKeyExchange (fuel : ℕ) (kp : Keypair) : Clean k (recvKeyExchange fuel kp) :=
  .bind (clean_recvHsMsg _) fun _ _ => .bind keeps_getConn fun _ _ =>
    .bind keeps_refuse fun _ _ => .bind clean_transcriptAdd fun _ _ => .pure trivial

theorem clean_decryptSecret (hmod : kp.mod.length ≤ 512) (inp : List UInt8) :
    Clean k (decryptSecret kp inp) :=
  .bind (clean_decryptTo hmod _) fun _ _ => .bind keeps_refuse fun _ _ => .pure trivial

theorem keeps_acceptHello (fuel : ℕ) (kp : Keypair) :
    Keeps (Tidy k) (acceptHello fuel kp) fun _ => kp.mod.length ≤ 512 := by
  refine .bind keeps_refuseGlobal fun _ hkp => ?_
  have hmod : kp.mod.length ≤ 512 := by omega
  exact .bind clean_malloc fun _ _ => .bind keeps_refuseGlobal fun _ _ =>
    .bind (clean_wantRng (by decide)) fun _ _ => .bind (clean_update fun _ => rfl) fun _ _ =>
    .bind (clean_recvClientHello _) fun _ _ => .bind (clean_sendServerHello _) fun _ _ =>
    .bind (clean_sendCertificate _) fun _ _ => clean_hsSend.mono fun _ _ => hmod

theorem clean_tlsAccept (fuel : ℕ) (kp : Keypair) : Clean k (tlsAccept fuel kp) :=
  .bind (keeps_acceptHello fuel kp) fun _ hmod => .bind (clean_recvKeyExchange _ _) fun _ _ =>
    .bind (clean_decryptSecret hmod _) fun _ _ => .bind (clean_deriveKeys _) fun _ _ =>
    .bind clean_clearRx fun _ _ =>
    .bind (clean_finishedLoop (fun _ => clean_acceptRecord) _) fun _ _ =>
    .bind clean_changeCipherSpec fun _ _ => .bind (clean_sendFinished (by decide)) fun _ _ =>
    clean_update fun _ => rfl

end

theorem Role.run_server (kp : Keypair) (fuel : ℕ) (env : Env) :
    (Role.server kp).run fuel env = tlsAccept fuel kp (newConn env true) := rfl

theorem Role.run_tidy (role : Role) (fuel : ℕ) (env : Env) : Tidy 0 (role.run fuel env).2 := by
  cases role with
  | client host => exact (clean_tlsConnect fuel host).final (Tidy.new env false)
  | server kp => exact (clean_tlsAccept fuel kp).final (Tidy.new env true)

/-- A handshake writes inside its arrays exactly when every record that it decrypts has at most 56
bytes. -/
theorem writes_inside_iff (role : Role) (fuel : ℕ) (env : Env) :
    (∀ w ∈ (role.run fuel env).2.log, w.Inside) ↔ ∀ n ∈ (role.run fuel env).2.opened, n ≤ 56 :=
  (role.run_tidy fuel env).inside

section

variable {s s₁ s₂ : Conn} {rec : List UInt8}

theorem acceptRecord_opened (henc : s.readEnc = true) (hshort : 24 ≤ rec.length)
    (hlen : rec.length ≠ 40) :
    (acceptRecord ⟨ctHandshake, rec⟩).Ends s (fun _ _ => False)
      fun s' => s'.opened = rec.length :: s.opened := by
  simp only [acceptRecord, ends_bind, ends_getConn]
  rw [if_neg (by decide)]
  simp only [ends_bind, checkFinished, ends_getConn]
  rw [refuseAlert, if_neg (by simp [henc]), refuse, if_neg (by simp [henc]), refuse,
    if_neg (by omega)]
  simp only [ends_pure]
  refine ends_emit fun log₁ => ends_emit fun log₂ => ?_
  rw [finishedOpen_eq _ _ _ hshort]
  rw [refuse, refuse, if_pos (Or.inl (by omega))]
  rfl

theorem finishedLoop_opened (hccs : readRecord .finishedRec s = (some ⟨ctCcs, [1]⟩, s₀))
    (hnew : s₁ = { s₀ with seqR := 0, readEnc := true, trace := .ccs :: s₀.trace })
    (hrec : readRecord .finishedRec s₁ = (some ⟨ctHandshake, rec⟩, s₂))
    (hshort : 24 ≤ rec.length) (hlen : rec.length ≠ 40) (henc : s₂.readEnc = true) :
    (finishedLoop acceptRecord 2 s).1 = none ∧
      (finishedLoop acceptRecord 2 s).2.opened = rec.length :: s₂.opened := by
  refine Ends.gives_up (E := fun s' : Conn => s'.opened = rec.length :: s₂.opened) ?_
  rw [finishedLoop, ends_bind]
  refine Ends.of_eq_some hccs ?_
  have hfirst : acceptRecord ⟨ctCcs, [1]⟩ s₀ = (some false, s₁) := by rw [hnew]; rfl
  rw [ends_bind]
  refine Ends.of_eq_some hfirst ?_
  rw [if_neg (by decide), finishedLoop, ends_bind]
  refine .of_eq_some hrec ?_
  rw [ends_bind]
  exact (acceptRecord_opened henc hshort hlen).mono (fun _ _ => False.elim) fun _ => id

theorem decryptSecret_eq {inp : List UInt8}
    (hdec : tlsRsaDecryptPkcs1 s.junk kp.mod kp.priv inp = some pms)
    (hpms : ¬(pms.length ≠ 48 ∨ pms.getD 0 0 ≠ 3 ∨ pms.getD 1 0 ≠ 3)) :
    decryptSecret kp inp s = (some pms, { s with
      log := ⟨.pmsbuf, 0, pms.length⟩ :: ⟨.rsaBlock, 0, kp.mod.length⟩ :: s.log }) := by
  have hto : decryptTo kp inp s = (some (some pms), { s with
      log := ⟨.pmsbuf, 0, pms.length⟩ :: ⟨.rsaBlock, 0, kp.mod.length⟩ :: s.log }) := by
    have hrun : decryptTo kp inp s = (some (tlsRsaDecryptPkcs1 s.junk kp.mod kp.priv inp), { s with
        log := ⟨.pmsbuf, 0, ((tlsRsaDecryptPkcs1 s.junk kp.mod kp.priv inp).getD []).length⟩ ::
          ⟨.rsaBlock, 0, kp.mod.length⟩ :: s.log }) := rfl
    rwa [hdec, getD_some] at hrun
  have hends : (decryptSecret kp inp).Ends s (fun r s' => (some r, s') = (some pms, { s with
      log := ⟨.pmsbuf, 0, pms.length⟩ :: ⟨.rsaBlock, 0, kp.mod.length⟩ :: s.log }))
      fun _ => False := by
    rw [decryptSecret, ends_bind]
    refine .of_eq_some hto ?_
    rw [ends_bind]
    exact ends_refuse (fun hbad => absurd hbad hpms) fun _ => rfl
  obtain ⟨r, s', hrun, heq⟩ := hends.returns
  rw [hrun, heq]

theorem deriveKeys_eq (pms : List UInt8) (s : Conn) :
    deriveKeys pms s = (some (), (deriveKeys pms s).2) := rfl

/-- A handshake that fails in its last loop has opened the records that this loop opened. -/
theorem tlsAccept_opened {fuel : ℕ} {secret : List UInt8}
    {lengths : List ℕ} (hhello : acceptHello fuel kp s₀ = (some (), s))
    (hexch : recvKeyExchange fuel kp s = (some secret, s₁))
    (hdec : tlsRsaDecryptPkcs1 s₁.junk kp.mod kp.priv secret = some pms)
    (hpms : ¬(pms.length ≠ 48 ∨ pms.getD 0 0 ≠ 3 ∨ pms.getD 1 0 ≠ 3))
    (hkeys : s₂ = { (deriveKeys pms { s₁ with
      log := ⟨.pmsbuf, 0, pms.length⟩ :: ⟨.rsaBlock, 0, kp.mod.length⟩ :: s₁.log }).2 with rx :=
        [] })
    (hloop : (finishedLoop acceptRecord fuel s₂).1 = none ∧
      (finishedLoop acceptRecord fuel s₂).2.opened = lengths) :
    (tlsAccept fuel kp s₀).2.opened = lengths := by
  have hends : (tlsAccept fuel kp).Ends s₀ (fun _ s => s.opened = lengths)
      fun s => s.opened = lengths := by
    rw [tlsAccept, ends_bind]
    refine .of_eq_some hhello ?_
    rw [ends_bind]
    refine .of_eq_some hexch ?_
    rw [ends_bind]
    refine .of_eq_some (decryptSecret_eq hdec hpms) ?_
    rw [ends_bind]
    refine .of_eq_some (deriveKeys_eq pms _) ?_
    rw [ends_bind, ends_update, ends_bind]
    subst hkeys
    exact .of_fst_none hloop.1 hloop.2
  exact hends.final

end

section

/-- A server whose private exponent is one: the secret is sent in the clear. -/
def sampleKeypair : Keypair where
  cert := replicate 16 0
  mod := 1 :: replicate 126 0 ++ [1]
  priv := [1]

def sampleSecret : List UInt8 := [3, 3] ++ replicate 46 1

def sampleRecord (type : UInt8) (body : List UInt8) : List UInt8 :=
  [type, 3, 3] ++ put16 body.length ++ body

def sampleHello : List UInt8 := [1, 0, 0, 41, 3, 3] ++ replicate 32 0 ++
    [0, 0, 2, 0, 0x9c, 1, 0]

def sampleExchange : List UInt8 := [16, 0, 0, 130, 0, 128] ++ pkcs1Block 128 sampleSecret

def longPeer : Env where
  sizes := replicate 8 1000
  peer := sampleRecord ctHandshake sampleHello ++ sampleRecord ctHandshake sampleExchange ++
    sampleRecord ctCcs [1] ++ sampleRecord ctHandshake (replicate 57 0)
  rngs := [[]]
  mallocs := replicate 8 true
  sends := replicate 3 1000
  junk := 0

theorem sample_decrypt :
    tlsRsaDecryptPkcs1 0 sampleKeypair.mod sampleKeypair.priv (pkcs1Block 128 sampleSecret) =
      some sampleSecret := by
  apply decrypt_of_block (by decide +kernel) (by decide) (by decide +kernel)
  rw [tlsModpow_of_lt (E := 1) (by decide +kernel) (by decide +kernel) (by decide +kernel)
      (by decide +kernel) (by decide +kernel)]
  decide +kernel

def helloDone : Conn := (acceptHello 2 sampleKeypair (newConn longPeer true)).2

def exchangeRead : Conn := (recvKeyExchange 2 sampleKeypair helloDone).2

def keysDerived : Conn :=
  { (deriveKeys sampleSecret { exchangeRead with
      log := ⟨.pmsbuf, 0, sampleSecret.length⟩ :: ⟨.rsaBlock, 0, sampleKeypair.mod.length⟩ ::
        exchangeRead.log }).2 with rx := [] }

def ccsRead : Conn :=
  { (readRecord .finishedRec keysDerived).2 with
    seqR := 0, readEnc := true, trace := .ccs :: (readRecord .finishedRec keysDerived).2.trace }

theorem keysDerived_opened :
    (finishedLoop acceptRecord 2 keysDerived).1 = none ∧
      (finishedLoop acceptRecord 2 keysDerived).2.opened = [57] := by
  have hccs : (readRecord .finishedRec keysDerived).1 = some ⟨ctCcs, [1]⟩ := by decide +kernel
  have hrec : (readRecord .finishedRec ccsRead).1 = some ⟨ctHandshake, replicate 57 0⟩ := by
    decide +kernel
  have hopened : (readRecord .finishedRec ccsRead).2.opened = [] := by decide +kernel
  have henc : (readRecord .finishedRec ccsRead).2.readEnc = true := by decide +kernel
  have h := finishedLoop_opened (run_eq_of_fst hccs) (by rw [ccsRead])
    (run_eq_of_fst hrec) (by decide +kernel) (by decide +kernel) henc
  rwa [hopened] at h

theorem long_record_opened :
    (tlsAccept 2 sampleKeypair (newConn longPeer true)).2.opened = [57] := by
  have hhello : (acceptHello 2 sampleKeypair (newConn longPeer true)).1 = some () := by
    decide +kernel
  have hexch : (recvKeyExchange 2 sampleKeypair helloDone).1 =
    some (pkcs1Block 128 sampleSecret) := by
    decide +kernel
  have hread : recvKeyExchange 2 sampleKeypair helloDone =
      (some (pkcs1Block 128 sampleSecret), exchangeRead) := by
    exact run_eq_of_fst hexch
  have hstart : acceptHello 2 sampleKeypair (newConn longPeer true) = (some (), helloDone) := by
    exact run_eq_of_fst hhello
  have hjunk : exchangeRead.junk = 0 := by decide +kernel
  have hdec : tlsRsaDecryptPkcs1 exchangeRead.junk sampleKeypair.mod sampleKeypair.priv
      (pkcs1Block 128 sampleSecret) = some sampleSecret := by
    rw [hjunk, sample_decrypt]
  exact tlsAccept_opened hstart hread hdec (by decide +kernel) (by rw [keysDerived])
    keysDerived_opened

/-- A record of 57 bytes: its plaintext has 33. -/
theorem long_record_outside :
    ¬∀ w ∈ ((Role.server sampleKeypair).run 2 longPeer).2.log, w.Inside := by
  intro hall
  have hshort := ((Role.server sampleKeypair).run_tidy 2 longPeer).inside.mp hall
  rw [Role.run_server, long_record_opened] at hshort
  exact absurd (hshort 57 (mem_singleton_self 57)) (by decide)

end

end Vnu.Tls
