import Vnu.Tls.Nonces

/-!
What `tls_read` hands over. Of an alert the first two bytes are taken off again, and what is left of
it is read as data.
-/
namespace Vnu.Tls

open Lib List Act Nat

variable {c : Conn} {E : Session → Prop} {rs : List Record} {b : UInt8} {p : Parties}
  {junk : UInt32}

def appData (rs : List Record) : List UInt8 :=
  rs.flatMap fun r => if r.rtype = ctApp then r.body else []

def surfaced (r : Record) : List UInt8 :=
  if r.rtype = ctApp then r.body
  else if r.rtype = ctAlert then if 2 ≤ r.body.length then r.body.drop 2 else r.body
  else []

/-- What was returned and what is to be returned is what is left of the records. -/
structure Fed (t : Session) : Prop where
  stage : t.stage = .established
  off : t.inOff ≤ t.inbuf.length
  stream : t.returned ++ t.inbuf.drop t.inOff = t.received.flatMap surfaced

theorem Fed.new (h : c.stage = .established) : Fed (newSession c) := ⟨h, le_rfl, rfl⟩

theorem drains_readRecord {out : Buffer} : Moves Drains (readRecord out) :=
  moves_readRecord (fun _ => ⟨rfl, le_rfl⟩) fun _ _ => ⟨rfl, le_rfl⟩

theorem drains_tlsSendRecord (type : UInt8) (pt : List UInt8) :
    Moves Drains (tlsSendRecord type pt) :=
  moves_tlsSendRecord (drains_sendBody _ _) drains_sendLoop fun _ _ => ⟨rfl, le_rfl⟩

section

variable {α : Type} {t : Session}

theorem ends_getSession {Q : Session → Session → Prop} : getSession.Ends t Q E ↔ Q t t := Iff.rfl

theorem ends_onConn {x : Hs α} {Q : α → Session → Prop} :
    (onConn x).Ends t Q E ↔ x.Ends t.toConn (fun a s => Q a { t with toConn := s })
      fun s => E { t with toConn := s } := by
  unfold Ends onConn
  rcases x t.toConn with ⟨_ | a, s⟩ <;> rfl

theorem Fed.onConn (h : Fed t) {x : Hs α} (hx : Moves Drains x) {Q : α → Session → Prop}
    (hQ : ∀ a s, s.stage = .established → Q a { t with toConn := s })
    (hE : ∀ s, s.stage = .established → E { t with toConn := s }) : (onConn x).Ends t Q E :=
  ends_onConn.mpr (hx.ends.mono (fun a s hs => hQ a s (hs.stage.trans h.stage))
    fun s hs => hE s (hs.stage.trans h.stage))

theorem Fed.moved (h : Fed t) {s : Conn} (hs : s.stage = .established) :
    Fed { t with toConn := s } := ⟨hs, h.off, h.stream⟩

theorem keeps_onConn {x : Hs α} (hx : Moves Drains x) :
    Keeps Fed (onConn x) fun _ => True := fun _ ht =>
  ht.onConn hx (fun _ _ hs => ⟨ht.moved hs, trivial⟩) fun _ hs => ht.moved hs

theorem Fed.reset (h : Fed t) :
    Fed (if t.inOff = t.inbuf.length then { t with inbuf := [], inOff := 0 } else t) := by
  split_ifs with hend
  · refine ⟨h.stage, le_rfl, ?_⟩
    rw [← h.stream, hend, drop_length]
    rfl
  · exact h

theorem fed_takeBytes (h : Fed t) (len : ℕ) : (takeBytes len).Ends t (fun _ => Fed) Fed := by
  refine Fed.reset ⟨h.stage, ?_, ?_⟩
  · show t.inOff + _ ≤ t.inbuf.length
    have hoff := h.off
    split_ifs <;> omega
  · show t.returned ++ (t.inbuf.drop t.inOff).take _ ++ t.inbuf.drop (t.inOff + _) = _
    rw [← h.stream, append_assoc, ← drop_drop, take_append_drop]

theorem takeBytes_returns (len : ℕ) :
    (takeBytes len).Ends t (fun _ t' => t'.returned = t.returned ++ (t.inbuf.drop
      t.inOff).take len ∧ t'.received = t.received) fun _ => False := by
  have hmin : (t.inbuf.drop t.inOff).take (if t.inbuf.length - t.inOff > len then len
      else t.inbuf.length - t.inOff) = (t.inbuf.drop t.inOff).take len := by
    split_ifs with hlong
    · rfl
    · rw [← length_drop, take_length, take_of_length_le]
      rw [length_drop]
      omega
  rw [← hmin]
  show Session.returned (if _ then _ else _) = _ ∧ Session.received (if _ then _ else _) = _
  split_ifs <;> exact ⟨rfl, rfl⟩

structure Loaded (type : UInt8) (t : Session) : Prop where
  stage : t.stage = .established
  off : t.inOff ≤ t.inbuf.length
  stream : ∃ old text, t.received = old ++ [⟨type, text⟩] ∧ t.returned = old.flatMap surfaced ∧
    t.inbuf.drop t.inOff = text

theorem Fed.returned_of_read (h : Fed t) (hread : ¬t.inbuf.length - t.inOff > 0) :
    t.returned = t.received.flatMap surfaced := by
  rw [← h.stream, drop_of_length_le (by omega), append_nil]

theorem loads_decryptRecord (h : Fed t) (hread : ¬t.inbuf.length - t.inOff > 0) (type : UInt8)
    (rec : List UInt8) : (decryptRecord type rec).Ends t (fun _ => Loaded type) Fed := by
  have hend : t.inOff = t.inbuf.length := by
    have hoff := h.off
    omega
  simp only [decryptRecord, ends_bind]
  refine h.onConn moves_refuse (fun _ s hs => ?_) fun s hs => h.moved hs
  have h := h.moved hs
  refine h.onConn moves_refuse (fun _ s hs => ?_) fun s hs => h.moved hs
  have h := h.moved hs
  refine h.onConn moves_room (fun cap s hs => ?_) fun s hs => h.moved hs
  have h : Fed { t with toConn := s, inCap := cap } := ⟨hs, h.off, h.stream⟩
  refine h.onConn moves_refuse (fun _ s hs => ?_) fun s hs => h.moved hs
  refine ⟨hs, ?_, t.received, _, rfl, h.returned_of_read hread, ?_⟩
  · show t.inOff ≤ (t.inbuf ++ _).length
    rw [length_append]
    omega
  · show (t.inbuf ++ _).drop t.inOff = _
    rw [hend, drop_left]

theorem Loaded.fed (h : Loaded ctApp t) : Fed t := by
  obtain ⟨old, text, hrec, hret, htext⟩ := h.stream
  refine ⟨h.stage, h.off, ?_⟩
  rw [hrec, hret, htext, flatMap_append]
  exact congrArg _ (append_nil _).symm

/-- An alert without its first two bytes, or with one byte only. -/
theorem fed_takeAlert (h : Loaded ctAlert t) : takeAlert.Ends t (fun _ => Fed) Fed := by
  obtain ⟨old, text, hrec, hret, htext⟩ := h.stream
  have hlen : text.length = t.inbuf.length - t.inOff := by rw [← htext, length_drop]
  have hsurf : t.received.flatMap surfaced =
      old.flatMap surfaced ++ if 2 ≤ text.length then text.drop 2 else text := by
    rw [hrec, flatMap_append]
    exact congrArg _ (append_nil _)
  have hfed (htwo : t.inbuf.length - t.inOff ≥ 2) : Fed { t with inOff := t.inOff + 2 } := by
    refine ⟨h.stage, ?_, ?_⟩
    · show t.inOff + 2 ≤ t.inbuf.length
      omega
    · show t.returned ++ t.inbuf.drop (t.inOff + 2) = t.received.flatMap surfaced
      rw [hsurf, if_pos (by omega), hret, ← drop_drop, htext]
  show Ends (if t.inbuf.length - t.inOff ≥ 2 then _ else _) t _ _
  split_ifs with htwo hclose
  · have hclosed : Fed { t with inOff := t.inOff + 2, closed := true } :=
      ⟨h.stage, (hfed htwo).off, (hfed htwo).stream⟩
    exact hclosed.reset
  · rw [ends_bind]
    exact (hfed htwo).onConn moves_seterr (fun _ _ hs => (hfed htwo).moved hs) fun _ hs =>
      (hfed htwo).moved hs
  · refine ⟨h.stage, h.off, ?_⟩
    rw [hsurf, if_neg (by omega), hret, htext]

end

theorem fed_readLoop {t : Session} (h : Fed t) (len fuel : ℕ) :
    (readLoop len fuel).Ends t (fun _ => Fed) Fed := by
  induction fuel generalizing t with
  | zero => exact h
  | succ fuel ih =>
    show Ends (if t.inbuf.length - t.inOff > 0 then _ else _) t _ _
    split_ifs with hread hclosed
    · exact fed_takeBytes h len
    · exact h
    rw [ends_bind]
    refine h.onConn drains_readRecord (fun r s hs => ?_) fun s hs => h.moved hs
    have h := h.moved hs
    split_ifs
    · rw [ends_bind]
      exact (loads_decryptRecord h hread _ _).mono (fun _ _ hload => ih hload.fed) fun _ => id
    · rw [ends_bind]
      refine (loads_decryptRecord h hread _ _).mono (fun _ t hload => ?_) fun _ => id
      rw [ends_bind]
      refine (fed_takeAlert hload).mono (fun goOn t ht => ?_) fun _ => id
      split_ifs
      · exact ih ht
      · exact ht
    all_goals exact h.onConn moves_giveUp (fun _ _ hs => h.moved hs) fun _ hs => h.moved hs

theorem Fed.read {t : Session} (h : Fed t) (len : ℕ) : Fed (t.call (.read len)) := by
  have hrun : t.call (.read len) = (readLoop len (t.peer.length + 2) t).2 := by
    show ((if t.stage ≠ .established then _ else readLoop len (t.peer.length + 2)) t).2 = _
    rw [if_neg (not_not.mpr h.stage)]
  rw [hrun]
  exact (fed_readLoop h len _).final

theorem keeps_fed_writeLoop (fuel : ℕ) (p : List UInt8) :
    Keeps Fed (writeLoop fuel p) fun _ => True := by
  induction fuel generalizing p with
  | zero => exact .pure trivial
  | succ fuel ih =>
    refine .ite (fun _ => .pure trivial) fun _ => ?_
    refine .bind (.of_final fun t ht => ?_) fun _ _ => ih _
    exact ⟨(drains_tlsSendRecord _ _ t.toConn).stage.trans ht.stage, ht.off, ht.stream⟩

theorem Fed.write {t : Session} (h : Fed t) (buf : List UInt8) : Fed (t.call (.write buf)) := by
  have hkeeps : Keeps Fed (tlsWrite buf) fun _ => True := by
    refine .bind (P := fun _ => True) (fun t ht => ⟨ht, trivial⟩) fun t _ =>
      .ite (fun _ => ?_) fun _ => Keeps.of_final fun t ht => ?_
    · exact .bind (keeps_onConn moves_wrote) fun _ _ => .pure trivial
    · exact (Keeps.bind (R := fun _ => True) (keeps_fed_writeLoop _ _) fun _ _ =>
        .pure trivial).final ht
  exact hkeeps.final h

theorem Fed.calls {t : Session} (h : Fed t) (cs : List Call) : Fed (t.calls cs) := by
  induction cs generalizing t with
  | nil => exact h
  | cons call cs ih =>
    refine ih ?_
    cases call with
    | write buf => exact h.write buf
    | read len => exact h.read len

theorem Fed.drain {t : Session} (h : Fed t) :
    ∃ cs, (t.calls cs).received = t.received ∧
      (t.calls cs).returned = t.received.flatMap surfaced := by
  by_cases hread : t.inbuf.length - t.inOff > 0
  · refine ⟨[.read (t.inbuf.length - t.inOff)], ?_⟩
    have hrun : t.call (.read (t.inbuf.length - t.inOff)) =
        (takeBytes (t.inbuf.length - t.inOff) t).2 := by
      show ((if t.stage ≠ .established then _ else readLoop _ (t.peer.length + 2)) t).2 = _
      rw [if_neg (not_not.mpr h.stage)]
      show ((if t.inbuf.length - t.inOff > 0 then takeBytes _ else _) t).2 = _
      rw [if_pos hread]
    have hreturned : t.returned ++ (t.inbuf.drop t.inOff).take (t.inbuf.length - t.inOff) =
        t.received.flatMap surfaced := by
      rw [← h.stream, ← length_drop, take_length]
    show (t.call (.read _)).received = _ ∧ (t.call (.read _)).returned = _
    rw [hrun, ← hreturned]
    exact ((takeBytes_returns _).mono (fun _ _ ht => And.symm ht) fun _ => False.elim).final
  · exact ⟨[], rfl, h.returned_of_read hread⟩

theorem surfaced_eq_nil_iff {r : Record} (h : r.rtype = ctAlert) :
    surfaced r = [] ↔ r.body.length = 0 ∨ r.body.length = 2 := by
  rw [surfaced, h, if_neg (by decide), if_pos rfl, ← length_eq_zero_iff]
  split_ifs with htwo
  · rw [length_drop]
    omega
  · omega

theorem appData_length_le (rs : List Record) :
    (appData rs).length ≤ (rs.flatMap surfaced).length := by
  induction rs with
  | nil => exact le_rfl
  | cons r rs ih =>
    rw [appData, flatMap_cons, flatMap_cons, length_append, length_append]
    refine Nat.add_le_add ?_ ih
    rw [surfaced]
    split_ifs
    · exact le_rfl
    all_goals exact zero_le _

/-- Nothing but application data comes up when not more comes up. -/
theorem surfaced_of_length_le (h : (rs.flatMap surfaced).length ≤ (appData rs).length) :
    ∀ r ∈ rs, r.rtype = ctAlert → surfaced r = [] := by
  induction rs with
  | nil => exact fun r hr => absurd hr not_mem_nil
  | cons r rs ih =>
    have hrest := appData_length_le rs
    rw [appData, flatMap_cons, flatMap_cons, length_append, length_append, ← appData] at h
    have hhead : (if r.rtype = ctApp then r.body else []).length ≤ (surfaced r).length := by
      rw [surfaced]
      split_ifs
      · exact le_rfl
      all_goals exact zero_le _
    intro r' hr' halert
    obtain rfl | hr' := mem_cons.mp hr'
    · rw [halert, if_neg (by decide), length_nil] at h
      exact length_eq_zero_iff.mp (by omega)
    · exact ih (by omega) r' hr' halert

theorem flatMap_surfaced (h : ∀ r ∈ rs, r.rtype = ctAlert → surfaced r = []) :
    rs.flatMap surfaced = appData rs := by
  refine flatMap_congr fun r hr => ?_
  by_cases happ : r.rtype = ctApp
  · rw [surfaced, if_pos happ, if_pos happ]
  · rw [if_neg happ]
    by_cases halert : r.rtype = ctAlert
    · exact h r hr halert
    · rw [surfaced, if_neg happ, if_neg halert]

def dataCall (n : ℕ) : OpenCall where
  key := ⟨0, 0⟩
  nonce := ⟨1, 0⟩
  aad := ⟨2, 0⟩
  aadlen := 13
  ct := ⟨3, 8⟩
  ctlen := n + 16
  pt := ⟨4, 0⟩
  tag := some ⟨5, 0⟩
  ct_pt := Ptr.apart_of_obj (by decide) _ _
  aad_pt := Ptr.apart_of_obj (by decide) _ _

theorem dataCall_tagApart (n : ℕ) : (dataCall n).TagApart where
  ct p hp := by
    obtain rfl : (⟨5, 0⟩ : Ptr) = p := Option.some.inj hp
    exact Ptr.apart_of_obj (show 5 ≠ 3 by decide) _ _
  pt p hp := by
    obtain rfl : (⟨5, 0⟩ : Ptr) = p := Option.some.inj hp
    exact Ptr.apart_of_obj (show 5 ≠ 4 by decide) _ _

/-- A record that was sealed with the keys and the number of the reader is accepted. -/
theorem dataOpen_sealedBody (key : Bytes 16) (iv : Bytes 4) (seq : UInt64) (type : UInt8)
    (pt : List UInt8) :
    (dataOpen key iv seq type (sealedBody key iv seq type pt)).1 = true ∧
      (dataOpen key iv seq type (sealedBody key iv seq type pt)).2.load ⟨4, 0⟩ pt.length = pt := by
  set rec := sealedBody key iv seq type pt with hrec
  set ct := gcmText key.val (gcmNonce iv seq) pt with hct
  set heap := dataHeap key iv seq type rec with hheap
  have hctlen : ct.length = pt.length := gcmText_length _ _ _
  have hreclen : rec.length = pt.length + 24 := sealedBody_length _ _ _ _ _
  have hlen : rec.length - 24 = pt.length := by omega
  have hdrop : rec.drop 8 = ct ++ gcmTag key.val (gcmNonce iv seq) (gcmAad seq type pt.length) ct :=
    drop_left' (seqBytes_length seq)
  have hkey : heap.load ⟨0, 0⟩ 16 = key.val := by
    rw [hheap, dataHeap, objects_load (by simp)]
    exact take_of_length_le key.property.le
  have hnonce : heap.load ⟨1, 0⟩ 12 = gcmNonce iv seq := by
    have hwire : gcmNonceWire iv rec = gcmNonce iv seq := by
      rw [gcmNonceWire, hrec, sealedBody, take_left' (seqBytes_length seq), gcmNonce]
    rw [hheap, dataHeap, hwire, objects_load (by simp [gcmNonce_length])]
    exact take_of_length_le (gcmNonce_length iv seq).le
  have haad : heap.load ⟨2, 0⟩ 13 = gcmAad seq type pt.length := by
    rw [hheap, dataHeap, hlen]
    exact take_of_length_le gcmAad_length.le
  have hloadCt : heap.load ⟨3, 8⟩ (pt.length + 16 - 16) = ct := by
    rw [hheap, dataHeap, objects_load (show 8 + pt.length ≤ rec.length by omega)]
    show (rec.drop 8).take pt.length = ct
    rw [hdrop, take_left' hctlen]
  have hmac : (dataCall pt.length).mac heap =
      gcmTag key.val (gcmNonce iv seq) (gcmAad seq type pt.length) ct := by
    simp only [OpenCall.mac, dataCall, hkey, hnonce, haad, hloadCt]
  have htag : heap.load ((dataCall pt.length).ct.add ((dataCall pt.length).ctlen - 16)) 16 =
      (dataCall pt.length).mac heap := by
    rw [hmac]
    show heap.load ⟨3, 8 + (pt.length + 16 - 16)⟩ 16 = _
    rw [hheap, dataHeap, objects_load (show 8 + pt.length + 16 ≤ rec.length by omega)]
    show (rec.drop (8 + pt.length)).take 16 = _
    rw [← drop_drop, hdrop, drop_left' hctlen, take_of_length_le (gcmTag_length _ _ _ _).le]
  have hrun : dataOpen key iv seq type rec = (dataCall pt.length).run heap := by
    rw [dataOpen, hlen]
    rfl
  have haccepts : ((dataCall pt.length).run heap).1 = true :=
    ((dataCall_tagApart pt.length).accepts heap).mpr ⟨le_add_left 16 _, htag⟩
  have hreturns := (dataCall_tagApart pt.length).returns heap haccepts
  have htext : (dataCall pt.length).text heap = pt := by
    simp only [OpenCall.text, dataCall, hkey, hnonce, hloadCt]
    rw [gcmText_gcmText]
  rw [htext] at hreturns
  rw [hrun]
  exact ⟨haccepts, hreturns⟩

theorem Goes.onConn {α : Type} {x : Hs α} {m m' : ℕ} {a : α} {c' : Conn} {t : Session}
    (h : Goes x m t.toConn.quiet a m' c') (hsup : Supplied m t.toConn) {Q : α → Session → Prop}
    (hQ : ∀ s : Conn, s.quiet = c' → Supplied m' s → Q a { t with toConn := s }) :
    (onConn x).Ends t Q E := by
  refine ends_onConn.mpr ((h.ends _ rfl hsup).mono ?_ fun _ => False.elim)
  rintro _ s ⟨rfl, hs, hsup⟩
  exact hQ s hs hsup

theorem decryptRecord_sealedBody {t : Session} {type : UInt8} {pt : List UInt8}
    (hside : t.isServer = false) (hpt : pt.length ≤ maxPlain) (hsup : Supplied 1 t.toConn) :
    (decryptRecord type (sealedBody t.skey t.siv t.seqR type pt)).Ends t
      (fun _ t' => t'.inbuf = t.inbuf ++ pt ∧ t'.inOff = t.inOff ∧ t'.returned = t.returned ∧
        t'.received = t.received ++ [⟨type, pt⟩]) fun _ => False := by
  have hlen : (sealedBody t.skey t.siv t.seqR type pt).length = pt.length + 24 :=
    sealedBody_length _ _ _ _ _
  obtain ⟨haccepts, hreturns⟩ := dataOpen_sealedBody t.skey t.siv t.seqR type pt
  simp only [decryptRecord, ends_bind, ends_getSession, hlen, Nat.add_sub_cancel, hside,
    Bool.false_eq_true, if_false, hreturns]
  refine Goes.onConn (goes_refuse (by omega)) hsup fun s _ hsup => ?_
  refine Goes.onConn (goes_refuse (by omega)) hsup fun s _ hsup => ?_
  refine Goes.onConn (goes_room (m := 0) _ _) hsup fun s _ hsup => ?_
  refine Goes.onConn (goes_refuse ?_) hsup fun s _ _ => ?_
  · simp only [hside, Bool.false_eq_true, if_false, haccepts, Bool.true_eq_false, not_false_eq_true]
  · exact ⟨rfl, rfl, rfl, rfl⟩

structure Waiting (b : UInt8) (t : Session) : Prop where
  stage : t.stage = .established
  buf : t.inbuf = []
  off : t.inOff = 0
  closed : t.closed = false
  side : t.isServer = false
  supplied : Supplied 1 t.toConn
  peer : t.peer = wireRecord ctAlert (sealedBody t.skey t.siv t.seqR ctAlert [b]) ++ []

theorem Waiting.readLoop {t : Session} (h : Waiting b t) (fuel : ℕ) :
    (readLoop 1 (fuel + 2)).Ends t (fun _ t' => t'.returned = t.returned ++ [b] ∧
      t'.received = t.received ++ [⟨ctAlert, [b]⟩]) fun _ => False := by
  have hreclen : (sealedBody t.skey t.siv t.seqR ctAlert [b]).length = 25 :=
    sealedBody_length _ _ _ _ _
  show Ends (if t.inbuf.length - t.inOff > 0 then _ else if t.closed = true then _ else _) t _ _
  rw [h.buf, h.off, h.closed, if_neg (show ¬([] : List UInt8).length - 0 > 0 from lt_irrefl 0),
    if_neg Bool.false_ne_true, ends_bind]
  refine Goes.onConn (goes_readRecord h.peer ?_ ?_) h.supplied fun s hs hsup => ?_
  · rw [hreclen]
    decide
  · rw [hreclen]
    decide
  have hkeys : s.quiet.skey = t.skey ∧ s.quiet.siv = t.siv ∧ s.quiet.seqR = t.seqR ∧
      s.quiet.isServer = t.isServer := by
    rw [hs]
    exact ⟨rfl, rfl, rfl, rfl⟩
  obtain ⟨hkey, hiv, hseq, hside⟩ := hkeys
  have hside : s.isServer = false := hside.trans h.side
  rw [if_neg (show ctAlert ≠ ctApp by decide), if_pos rfl, ← hkey, ← hiv, ← hseq, ends_bind]
  have hone : [b].length ≤ maxPlain := (show 1 ≤ maxPlain by decide)
  refine (decryptRecord_sealedBody (t := { t with toConn := s }) hside hone hsup).mono ?_
    fun _ => False.elim
  rintro - t' ⟨hbuf, hoff, hret, hrec⟩
  have hbuf : t'.inbuf = [b] := by
    rw [hbuf]
    exact congrArg (· ++ [b]) h.buf
  have hoff : t'.inOff = 0 := hoff.trans h.off
  rw [ends_bind]
  -- one byte is no alert, and is left to be read
  show Ends (if t'.inbuf.length - t'.inOff ≥ 2 then _ else _) t' _ _
  rw [hbuf, hoff]
  show Ends (if t'.inbuf.length - t'.inOff > 0 then _ else _) t' _ _
  rw [hbuf, hoff]
  have hfull : (t'.inbuf.drop t'.inOff).take 1 = [b] := by
    rw [hbuf, hoff]
    rfl
  refine (takeBytes_returns 1).mono (fun _ t'' ht => ?_) fun _ => id
  rw [ht.1, ht.2, hfull, hret, hrec]
  exact ⟨rfl, rfl⟩

theorem Waiting.read {t : Session} (h : Waiting b t) :
    (t.call (.read 1)).returned = t.returned ++ [b] ∧
      (t.call (.read 1)).received = t.received ++ [⟨ctAlert, [b]⟩] := by
  have hrun : t.call (.read 1) = (Tls.readLoop 1 (t.peer.length + 2) t).2 := by
    show ((if t.stage ≠ .established then _ else Tls.readLoop 1 (t.peer.length + 2)) t).2 = _
    rw [if_neg (not_not.mpr h.stage)]
  rw [hrun]
  exact ((h.readLoop t.peer.length).mono (fun _ _ => id) fun _ => False.elim).final

def Parties.alertWire (p : Parties) (b : UInt8) : List UInt8 :=
  wireRecord ctAlert (sealedBody (bytesOf 16 (p.block.drop 16)) (bytesOf 4 (p.block.drop 36)) 1
    ctAlert [b])

theorem Parties.Joined.waiting (h : p.Joined (p.alertWire b) c) : Waiting b (newSession c) where
  stage := h.stage
  buf := rfl
  off := rfl
  closed := rfl
  side := h.side
  supplied := h.supplied.le (by decide)
  peer := by
    show c.peer = wireRecord ctAlert (sealedBody c.skey c.siv c.seqR ctAlert [b]) ++ []
    rw [h.peer, h.skey, h.siv, h.seqR, append_nil, Parties.alertWire]

theorem alert_returned {env : Env} {rngs : List (List UInt8)} (hp : p.Sound env.junk junk)
    (hrng : env.rngs = p.clientRandom :: p.secret :: rngs)
    (hrel : env.Reliable) (hpeer : env.peer = p.flightWire ++ (p.serverEnd ++ p.alertWire b)) :
    ∃ c, (Role.client p.host).run 3 env = (some (), c) ∧ c.stage = .established ∧
      ((newSession c).calls [.read 1]).returned = [b] ∧
        ((newSession c).calls [.read 1]).received = [⟨ctAlert, [b]⟩] := by
  obtain ⟨c, hrun, hjoined⟩ := client_joins hp hrng hrel hpeer 0
  exact ⟨c, hrun, hjoined.stage, hjoined.waiting.read⟩

def alertEnv : Env :=
  byteEnv (sampleParties.flightWire ++ (sampleParties.serverEnd ++ sampleParties.alertWire 1))
    [[1], [2]]

theorem alertEnv_rngs :
    alertEnv.rngs = sampleParties.clientRandom :: sampleParties.secret :: [] := rfl

theorem alertEnv_peer : alertEnv.peer =
    sampleParties.flightWire ++ (sampleParties.serverEnd ++ sampleParties.alertWire 1) :=
  byteEnv_peer

theorem Parties.Sound.alert_short {junk' : UInt32} (hp : p.Sound junk junk')
    (b : UInt8) : (p.flightWire ++ (p.serverEnd ++ p.alertWire b)).length ≤ 65536 := by
  have hcert := hp.cert
  have hmax : maxPlain = 16384 := rfl
  rw [length_append, length_append, p.flightWire_length, p.serverEnd_length,
    Parties.alertWire, wireRecord_length, sealedBody_length, length_singleton]
  omega

theorem alertEnv_reliable : alertEnv.Reliable :=
  byteEnv_reliable _ (sampleParties_sound.alert_short 1)

/-- Only application data is returned, in its order, exactly when every alert has no bytes or two.
-/
theorem reads_app_data_iff (c : Conn) (hc : c.stage = .established) :
    (∀ cs, ((newSession c).calls cs).returned <+: appData ((newSession c).calls cs).received) ↔
      ∀ cs, ∀ r ∈ ((newSession c).calls cs).received, r.rtype = ctAlert →
        r.body.length = 0 ∨ r.body.length = 2 := by
  constructor
  · intro hall cs r hr halert
    obtain ⟨cs', hrec, hret⟩ := ((Fed.new hc).calls cs).drain
    have hpre := hall (cs ++ cs')
    rw [Session.calls, foldl_append] at hpre
    have hpre : (((newSession c).calls cs).calls cs').returned <+:
        appData (((newSession c).calls cs).calls cs').received := hpre
    rw [hrec, hret] at hpre
    exact (surfaced_eq_nil_iff halert).mp (surfaced_of_length_le hpre.length_le r hr halert)
  · intro hall cs
    have hfed : Fed ((newSession c).calls cs) := (Fed.new hc).calls cs
    have hnone := fun r hr halert => (surfaced_eq_nil_iff halert).mpr (hall cs r hr halert)
    rw [← flatMap_surfaced hnone, ← hfed.stream]
    exact prefix_append _ _

/-- Behind an alert of one byte both sides fail. -/
theorem reads_app_data_client :
    ∃ c, (Role.client sampleParties.host).run 3 alertEnv = (some (), c) ∧ c.stage = .established ∧
      (∃ cs, ∃ r ∈ ((newSession c).calls cs).received, r.rtype = ctAlert ∧ r.body.length = 1) ∧
      ¬ ∀ cs, ((newSession c).calls cs).returned <+:
        appData ((newSession c).calls cs).received := by
  obtain ⟨c, hrun, hstage, -, hreceived⟩ :=
    alert_returned sampleParties_sound alertEnv_rngs alertEnv_reliable alertEnv_peer
  have hmem : (⟨ctAlert, [1]⟩ : Record) ∈ ((newSession c).calls [.read 1]).received := by
    rw [hreceived]
    exact mem_singleton_self _
  refine ⟨c, hrun, hstage, ⟨_, _, hmem, rfl, rfl⟩, fun hall => ?_⟩
  have hlength := (reads_app_data_iff c hstage).mp hall _ _ hmem rfl
  simp at hlength

/-- The byte of the alert is returned as data. -/
theorem alert_byte_returned :
    ∃ c, (Role.client sampleParties.host).run 3 alertEnv = (some (), c) ∧
      c.stage = .established ∧ ((newSession c).calls [.read 1]).returned = [1] ∧
        ((newSession c).calls [.read 1]).received = [⟨ctAlert, [1]⟩] :=
  alert_returned sampleParties_sound alertEnv_rngs alertEnv_reliable alertEnv_peer

end Vnu.Tls
