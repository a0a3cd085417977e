import Vnu.Lib.Counter
import Vnu.Tls.Agreement
import Vnu.Tls.Session

/-!
The records that a connection seals: one by one, over the handshake and over the calls behind
it. The counter that numbers them is advanced behind a record that was sent, not behind one that
was sealed.
-/
namespace Vnu.Tls

open Lib Lib.Counter Act Nat List

variable {s' c : Conn} {type : UInt8} {pt : List UInt8} {label : String} {α : Type} {t : Session}

section

variable {s : Conn} {E : Conn → Prop}

theorem pen_keys (h : s'.pen = c) :
    s'.writeEnc = c.writeEnc ∧ s'.seqW = c.seqW ∧ s'.sealings = c.sealings ∧
      s'.writeKey = c.writeKey ∧ s'.writeIv = c.writeIv := by
  obtain rfl := h
  exact ⟨rfl, rfl, rfl, rfl, rfl⟩

def Conn.inked (s : Conn) (pt : List UInt8) : Conn :=
  { s.pen with sealings := ⟨s.writeKey.val, gcmNonce s.writeIv s.seqW, pt⟩ :: s.sealings }

theorem sendBody_ends (henc : s.writeEnc = true) :
    (sendBody type pt).Ends s (fun _ s' => s'.pen = s.inked pt) fun _ => False := by
  simp only [sendBody, ends_bind, ends_getConn]
  rw [henc, if_pos rfl]
  simp only [sendSealed, ends_bind, ends_getConn]
  refine ends_emit fun log => ends_emit fun log => ?_
  simp only [sealRecord, logHeap, ends_bind, ends_update, ends_pure]
  exact ends_emit fun log => rfl

theorem tlsSendRecord_ends (henc : s.writeEnc = true) (hpt : pt.length ≤ maxPlain) :
    (tlsSendRecord type pt).Ends s
      (fun _ s' => s'.pen = { s.inked pt with seqW := s.seqW + 1 })
      fun s' => s'.pen = s.inked pt := by
  simp only [tlsSendRecord, ends_bind]
  refine ends_refuse (fun hlong => absurd hpt (Nat.not_le.mpr hlong)) fun _ =>
    ends_emit fun log => ?_
  refine (sendBody_ends (s := { s with log }) henc).mono (fun rest s₁ h₁ => ?_) fun _ => False.elim
  refine pen_sendLoop.ends.mono (fun _ s₂ h₂ => ?_) fun s₂ h₂ => ?_
  · have hpen : s₂.pen = s.inked pt := Eq.trans h₂ h₁
    have hseq : s₂.seqW = s.seqW := (pen_keys hpen).2.1
    show { s₂.pen with seqW := s₂.seqW + 1 } = _
    rw [hpen, hseq]
  · exact Eq.trans h₂ h₁

end

structure SealedOnce (s : Conn) : Prop where
  enc : s.writeEnc = true
  seq : s.seqW = 1
  sealings : ∃ text, s.sealings = [⟨s.writeKey.val, gcmNonce s.writeIv 0, text⟩]

theorem SealedOnce.of_pen {s : Conn} (h : SealedOnce s) (hpen : s'.pen = s.pen) :
    SealedOnce s' := by
  obtain ⟨henc, hseq, hseal, hkey, hiv⟩ := pen_keys hpen
  obtain ⟨text, htext⟩ := h.sealings
  exact ⟨henc.trans h.enc, hseq.trans h.seq, text, by rw [hseal, hkey, hiv]; exact htext⟩

theorem SealedOnce.of_inked {s : Conn} (henc : s.writeEnc = true)
    (hseq : s.seqW = 0) (hseal : s.sealings = [])
    (hpen : s'.pen = { s.inked pt with seqW := s.seqW + 1 }) : SealedOnce s' := by
  obtain ⟨henc', hseq', hseal', hkey', hiv'⟩ := pen_keys hpen
  refine ⟨henc'.trans henc, ?_, pt, ?_⟩
  · rw [hseq', hseq]
    rfl
  · rw [hseal', hkey', hiv']
    show ⟨s.writeKey.val, gcmNonce s.writeIv s.seqW, pt⟩ :: s.sealings = _
    rw [hseq, hseal]
    rfl

theorem finishedText_length (s : Conn) (hlabel : (asciiBytes label).length ≤ 96) :
    ([[20], put24 12].flatten ++ verifyValue label s).length ≤ maxPlain := by
  rw [length_append, verifyValue_length s hlabel]
  decide

theorem sendFinished_ends {s : Conn} (hlabel : (asciiBytes label).length ≤ 96)
    (henc : s.writeEnc = true) (hseq : s.seqW = 0) (hseal : s.sealings = []) :
    (sendFinished label).Ends s (fun _ s' => SealedOnce s') fun s' => s'.sealings.length ≤ 1 := by
  simp only [sendFinished, ends_bind]
  refine ends_verifyData fun log => ends_emit fun log => ?_
  refine inner_transcriptAdd.mute.pen.ends.mono (fun _ s₁ h₁ => ?_) fun s₁ h₁ => ?_
  · obtain ⟨henc₁, hseq₁, hseal₁, hkey₁, hiv₁⟩ := pen_keys h₁
    have hseq₁ : s₁.seqW = 0 := hseq₁.trans hseq
    have hseal₁ : s₁.sealings = [] := hseal₁.trans hseal
    refine (tlsSendRecord_ends (henc₁.trans henc) (finishedText_length _ hlabel)).mono
      (fun _ s₂ h₂ => ?_) fun s₂ h₂ => ?_
    · exact SealedOnce.of_inked (henc₁.trans henc) hseq₁ hseal₁ h₂
    · rw [(pen_keys h₂).2.2.1]
      show (s₁.sealings).length + 1 ≤ 1
      rw [hseal₁]
      rfl
  · have hseal₁ : s₁.sealings = [] := (pen_keys h₁).2.2.1.trans hseal
    rw [hseal₁]
    exact zero_le 1

theorem closing_ends {s : Conn} (hlabel : (asciiBytes label).length ≤ 96)
    (hseal : s.sealings = []) :
    (changeCipherSpec >>= fun _ => sendFinished label).Ends s (fun _ s' => SealedOnce s')
      fun s' => s'.sealings.length ≤ 1 := by
  simp only [changeCipherSpec, ends_bind]
  refine pen_sendLoop.ends.mono (fun _ s₁ h₁ => ?_) fun s₁ h₁ => ?_
  · exact sendFinished_ends hlabel rfl rfl ((pen_keys h₁).2.2.1.trans hseal)
  · have hseal₁ : s₁.sealings = [] := (pen_keys h₁).2.2.1.trans hseal
    rw [hseal₁]
    exact zero_le 1

theorem Clear.ends_sealings {x : Hs α} (hx : Clear x) {s : Conn}
    (henc : s.writeEnc = false) (hseal : s.sealings = []) :
    x.Ends s (fun _ s' => s'.writeEnc = false ∧ s'.sealings = []) fun s' =>
      s'.sealings.length ≤ 1 := by
  refine hx.ends.mono (fun _ s' h => ?_) fun s' h => ?_
  · exact ⟨(h.clear henc).1, (h.clear henc).2.trans hseal⟩
  · rw [(h.clear henc).2, hseal]
    exact zero_le 1

theorem closing_rest_ends {x : Hs Unit} {s : Conn}
    (hlabel : (asciiBytes label).length ≤ 96) (hseal : s.sealings = [])
    (hx : Moves (Same Conn.pen) x) :
    (do changeCipherSpec; sendFinished label; x).Ends s (fun _ s' => SealedOnce s')
      fun s' => s'.sealings.length ≤ 1 := by
  rw [← bind_assoc, ends_bind]
  refine (closing_ends hlabel hseal).mono (fun _ s₁ h₁ => ?_) fun _ => id
  refine hx.ends.mono (fun _ s₂ h₂ => h₁.of_pen h₂) fun s₂ h₂ => ?_
  obtain ⟨text, htext⟩ := h₁.sealings
  have hseal₂ : s₂.sealings = s₁.sealings := (pen_keys h₂).2.2.1
  rw [hseal₂, htext]
  rfl

theorem tlsConnect_ends (fuel : ℕ) (host : List UInt8) (env : Env) :
    (tlsConnect fuel host).Ends (newConn env false) (fun _ s' => SealedOnce s')
      fun s' => s'.sealings.length ≤ 1 := by
  have hclear : Clear (do connectHello host; flightLoop fuel; connectKeys) := by
    refine .bind ?_ fun _ => .bind (mute_flightLoop fuel).clear fun _ => ?_
    · refine .bind moves_malloc fun _ => .bind moves_refuseGlobal fun _ => ?_
      refine .bind inner_wantRng.clear fun _ => .bind ?_ fun _ => clear_sendClientHello host
      exact .update fun _ => .of_voice rfl
    · exact .bind clear_clientKeyExchange fun _ => clear_deriveKeys
  have hrest : Moves (Same Conn.pen) (do
      finishedLoop connectRecord fuel
      update fun s : Conn => { s with stage := .established }) :=
    .bind (mute_finishedLoop mute_connectRecord fuel).pen fun _ => .update fun _ => rfl
  have hsplit : tlsConnect fuel host = ((do connectHello host; flightLoop fuel; connectKeys) >>=
      fun _ => do
        changeCipherSpec
        sendFinished "client finished"
        finishedLoop connectRecord fuel
        update fun s => { s with stage := .established }) := by
    rw [tlsConnect_eq]
    simp [bind_assoc]
  rw [hsplit, ends_bind]
  refine (hclear.ends_sealings rfl rfl).mono (fun _ s h => ?_) fun _ => id
  exact closing_rest_ends (by decide) h.2 hrest

theorem tlsAccept_ends (fuel : ℕ) (kp : Keypair) (env : Env) :
    (tlsAccept fuel kp).Ends (newConn env true) (fun _ s' => SealedOnce s')
      fun s' => s'.sealings.length ≤ 1 := by
  have hclear : Clear (do
      acceptHello fuel kp
      acceptKeys fuel kp
      finishedLoop acceptRecord fuel) := by
    refine .bind (clear_acceptHello fuel kp) fun _ => .bind ?_ fun _ =>
      (mute_finishedLoop mute_acceptRecord fuel).clear
    refine .bind inner_recvKeyExchange.clear fun _ =>
      .bind moves_decryptSecret fun _ => ?_
    refine .bind clear_deriveKeys fun _ => ?_
    exact .update fun _ => .of_eq rfl rfl rfl rfl
  have hsplit : tlsAccept fuel kp = ((do
      acceptHello fuel kp
      acceptKeys fuel kp
      finishedLoop acceptRecord fuel) >>= fun _ => do
        changeCipherSpec
        sendFinished "server finished"
        update fun s => { s with stage := .established }) := by
    rw [tlsAccept_eq]
    simp [bind_assoc]
  rw [hsplit, ends_bind]
  refine (hclear.ends_sealings rfl rfl).mono (fun _ s h => ?_) fun _ => id
  exact closing_rest_ends (by decide) h.2 (.update fun _ => rfl)

theorem Role.run_sealings (role : Role) (fuel : ℕ) (env : Env) :
    ((role.run fuel env).1 ≠ none → SealedOnce (role.run fuel env).2) ∧
      ((role.run fuel env).1 = none → (role.run fuel env).2.sealings.length ≤ 1) := by
  have hends {x : Hs Unit} {s : Conn} (h : x.Ends s (fun _ s' => SealedOnce s')
      fun s' => s'.sealings.length ≤ 1) :
      ((x s).1 ≠ none → SealedOnce (x s).2) ∧ ((x s).1 = none → (x s).2.sealings.length ≤ 1) := by
    revert h
    unfold Ends
    rcases x s with ⟨_ | a, s'⟩
    · exact fun h => ⟨fun hne => absurd rfl hne, fun _ => h⟩
    · exact fun h => ⟨fun _ => h, fun hnone => by cases hnone⟩
  cases role with
  | client host => exact hends (tlsConnect_ends fuel host env)
  | server kp => exact hends (tlsAccept_ends fuel kp env)

structure Sealed (t : Session) : Prop where
  enc : t.writeEnc = true
  seq : t.seqW = UInt64.ofNat (count t.attempts)
  sealings : t.sealings = (numbered t.attempts).map fun e =>
    ⟨t.writeKey.val, gcmNonce t.writeIv (UInt64.ofNat e.1), e.2⟩

theorem Sealed.new (h : SealedOnce c) : Sealed (newSession c) := by
  obtain ⟨text, htext⟩ := h.sealings
  have hattempts : (newSession c).attempts = [(text, true)] := by
    show c.sealings.map _ = _
    rw [htext]
    rfl
  refine ⟨h.enc, ?_, ?_⟩
  · rw [hattempts]
    exact h.seq
  · rw [hattempts]
    exact htext

def Session.ink (t : Session) : Conn × List (List UInt8 × Bool) := (t.toConn.pen, t.attempts)

theorem Sealed.of_ink {t' : Session} (h : Sealed t) (hink : t'.ink = t.ink) : Sealed t' := by
  obtain ⟨hpen, hattempts⟩ := Prod.mk.inj hink
  obtain ⟨henc, hseq, hseal, hkey, hiv⟩ := pen_keys hpen
  refine ⟨henc.trans h.enc, ?_, ?_⟩
  · rw [hattempts]
    exact hseq.trans h.seq
  · rw [hattempts, hseal, hkey, hiv]
    exact h.sealings

theorem keeps_of_ink {x : Ap α} (h : Moves (Same Session.ink) x) : Keeps Sealed x fun _ => True :=
  Keeps.of_final fun t ht => ht.of_ink (h t)

theorem ink_onConn {x : Hs α} (h : Mute x) : Moves (Same Session.ink) (onConn x) := by
  intro t
  have hpen : (x t.toConn).2.pen = t.toConn.pen := h.pen t.toConn
  show ((x t.toConn).2.pen, t.attempts) = (t.toConn.pen, t.attempts)
  rw [hpen]

/-- A record that is sealed gets the number that the counter shows. -/
theorem Sealed.inked (h : Sealed t) {b : Bool}
    (hpen : c.pen = { t.toConn.inked pt with seqW := if b then t.seqW + 1 else t.seqW }) :
    Sealed { t with toConn := c, attempts := (pt, b) :: t.attempts } := by
  obtain ⟨henc, hseq, hseal, hkey, hiv⟩ := pen_keys hpen
  refine ⟨henc.trans h.enc, ?_, ?_⟩
  · show c.seqW = UInt64.ofNat (count ((pt, b) :: t.attempts))
    rw [hseq, count_cons, h.seq]
    cases b with
    | true => exact (UInt64.ofNat_add _ 1).symm
    | false => rfl
  · show c.sealings = (numbered ((pt, b) :: t.attempts)).map fun e =>
      (⟨c.writeKey.val, gcmNonce c.writeIv (UInt64.ofNat e.1), e.2⟩ : Sealing)
    rw [hseal, hkey, hiv]
    exact congrArg₂ cons (congrArg (fun q => (⟨_, gcmNonce _ q, pt⟩ : Sealing))
      h.seq) h.sealings

theorem Sealed.send (h : Sealed t) (type : UInt8)
    (hpt : pt.length ≤ maxPlain) : Sealed (sendRecord type pt t).2 := by
  have hends : (tlsSendRecord type pt).Ends t.toConn _ _ := tlsSendRecord_ends h.enc hpt
  rcases hrun : tlsSendRecord type pt t.toConn with ⟨_ | _, c⟩
  · have hsend : (sendRecord type pt t).2 =
        { t with toConn := c, attempts := (pt, false) :: t.attempts } := by
      simp only [sendRecord, onConn, hrun, Option.isSome_none]
    rw [hsend]
    exact h.inked (hends.of_none hrun)
  · have hsend : (sendRecord type pt t).2 =
        { t with toConn := c, attempts := (pt, true) :: t.attempts } := by
      simp only [sendRecord, onConn, hrun, Option.isSome_some]
    rw [hsend]
    exact h.inked (hends.of_some hrun)

theorem keeps_writeLoop (fuel : ℕ) (p : List UInt8) :
    Keeps Sealed (writeLoop fuel p) fun _ => True := by
  induction fuel generalizing p with
  | zero => exact .pure trivial
  | succ fuel ih =>
    refine .ite (fun _ => .pure trivial) fun _ => ?_
    refine .bind (.of_final fun t ht => ht.send ctApp ?_) fun _ _ => ih _
    rw [length_take]
    split_ifs <;> omega

theorem Sealed.write (h : Sealed t) (buf : List UInt8) : Sealed (tlsWrite buf t).2 := by
  have hkeeps : Keeps Sealed (tlsWrite buf) fun _ => True := by
    refine .bind (P := fun _ => True) (keeps_of_ink .query) fun t _ =>
      .ite (fun _ => ?_) fun _ => ?_
    · exact .bind (keeps_of_ink (ink_onConn moves_wrote)) fun _ _ => .pure trivial
    · refine Keeps.of_final fun t ht => ?_
      exact (Keeps.bind (R := fun _ => True) (keeps_writeLoop _ _) fun _ _ =>
        .pure trivial).final ht
  exact hkeeps.final h

/-! Reading leaves alone what a session writes with. -/

theorem ink_decryptRecord {type : UInt8} {rec : List UInt8} :
    Moves (Same Session.ink) (decryptRecord type rec) := by
  refine .bind .query fun t => .bind (ink_onConn moves_refuse) fun _ => ?_
  refine .bind (ink_onConn moves_refuse) fun _ => ?_
  refine .bind (ink_onConn moves_room) fun _ => .bind (.update fun _ => rfl) fun _ => ?_
  exact .bind (ink_onConn moves_refuse) fun _ => .update fun _ => rfl

theorem ink_reset : Moves (Same Session.ink) (update fun t : Session =>
    if t.inOff = t.inbuf.length then { t with inbuf := [], inOff := 0 } else t) := by
  refine .update fun t => ?_
  split_ifs <;> rfl

theorem ink_readLoop (len fuel : ℕ) : Moves (Same Session.ink) (readLoop len fuel) := by
  induction fuel with
  | zero => exact .fail
  | succ fuel ih =>
    have htake : Moves (Same Session.ink) (takeBytes len) :=
      .bind .query fun _ => .bind (.update fun _ => rfl) fun _ => .bind ink_reset fun _ => .pure
    have halert : Moves (Same Session.ink) takeAlert := by
      refine .bind .query fun _ => .ite (.bind (.update fun _ => rfl) fun _ => .ite ?_ ?_) .pure
      · exact .bind (.update fun _ => rfl) fun _ => .bind ink_reset fun _ => .pure
      · exact .bind (ink_onConn (fun _ => rfl)) fun _ => .pure
    refine .bind .query fun t => .ite htake (.ite .pure ?_)
    refine .bind (ink_onConn inner_readRecord.mute) fun r => .ite ?_ (.ite ?_ (.ite ?_ ?_))
    · exact .bind ink_decryptRecord fun _ => ih
    · exact .bind ink_decryptRecord fun _ => .bind halert fun _ => .ite ih .pure
    all_goals exact ink_onConn moves_giveUp

theorem ink_tlsRead (len : ℕ) : Moves (Same Session.ink) (tlsRead len) :=
  .bind .query fun _ => .ite (.bind (ink_onConn moves_wrote) fun _ => .fail)
    (ink_readLoop _ _)

theorem Sealed.calls (h : Sealed t) (cs : List Call) : Sealed (t.calls cs) := by
  induction cs generalizing t with
  | nil => exact h
  | cons call cs ih =>
    refine ih ?_
    cases call with
    | write buf => exact h.write buf
    | read len => exact h.of_ink (ink_tlsRead len t)

theorem Sealed.close (h : Sealed t) : Sealed (tlsClose t).2 := by
  have hkeeps : Keeps Sealed tlsClose fun _ => True := by
    refine .bind (P := fun _ => True) (keeps_of_ink .query) fun t _ => .ite (fun _ => ?_) fun _ =>
      .pure trivial
    refine .bind (.of_final fun t ht => ?_) fun _ _ => keeps_of_ink (.update fun _ => rfl)
    exact ht.send ctAlert (show 2 ≤ maxPlain by decide)
  exact hkeeps.final h

end Vnu.Tls
