import Vnu.Tls.Finished

/-!
Where a handshake has written so far, for the primitives and the record layer.
-/
namespace Vnu.Tls

open Lib List Act Nat

variable {w : Write} {s : Conn} {buf : Buffer} {off fuel n : ℕ} {c : Prop} {pt : List UInt8}

theorem Write.inside_of_le (h : w.off + w.len ≤ w.buf.size) : w.Inside := fun i hi => by omega

/-- The buffers are as large as their capacities say, and the stores so far are inside unless a long
record was decrypted. The capacity does not shrink below `k`. -/
structure Tidy (k : ℕ) (s : Conn) : Prop where
  hs : s.hs.length ≤ s.hsCap
  rx : s.rx.length ≤ s.rxCap
  inside : (∀ w ∈ s.log, w.Inside) ↔ ∀ n ∈ s.opened, n ≤ 56
  grown : k ≤ s.rxCap

theorem Tidy.new (env : Env) (isServer : Bool) : Tidy 0 (newConn env isServer) :=
  ⟨le_rfl, le_rfl, by simp [newConn], le_rfl⟩

section

variable {k : ℕ}

theorem Tidy.log_append (hs : Tidy k s) {ws : List Write} (hws : ∀ w ∈ ws, w.Inside) :
    Tidy k { s with log := ws ++ s.log } := by
  refine ⟨hs.hs, hs.rx, ?_, hs.grown⟩
  rw [← hs.inside]
  simp only [mem_append]
  exact ⟨fun h w hw => h w (Or.inr hw), fun h w hw => hw.elim (hws w) (h w)⟩

theorem Tidy.log_cons (hs : Tidy k s) (hw : w.Inside) : Tidy k { s with log := w :: s.log } := by
  have hws : ∀ v ∈ [w], v.Inside := by simpa using hw
  exact hs.log_append hws

abbrev Clean (k : ℕ) {α : Type} (x : Hs α) : Prop := Keeps (Tidy k) x fun _ => True

def Conn.traced (s : Conn) : List UInt8 × ℕ × List UInt8 × ℕ × List Write × List ℕ :=
  (s.hs, s.hsCap, s.rx, s.rxCap, s.log, s.opened)

theorem clean_update {f : Conn → Conn} (h : ∀ s, (f s).traced = s.traced) : Clean k (update f) := by
  refine .update fun s hs => ?_
  obtain ⟨hhs, hcap, hrx, hrxCap, hlog, hopened⟩ :
      (f s).hs = s.hs ∧ (f s).hsCap = s.hsCap ∧ (f s).rx = s.rx ∧ (f s).rxCap = s.rxCap ∧
        (f s).log = s.log ∧ (f s).opened = s.opened := by
    simpa [Conn.traced] using h s
  constructor
  · rw [hhs, hcap]
    exact hs.hs
  · rw [hrx, hrxCap]
    exact hs.rx
  · rw [hlog, hopened]
    exact hs.inside
  · rw [hrxCap]
    exact hs.grown

theorem clean_wrote {len : ℕ} (h : off + len ≤ buf.size) : Clean k (wrote buf off len) :=
  .update fun _ hs => hs.log_cons (Write.inside_of_le h)

theorem clean_emit {ps : List (List UInt8)}
    (h : off + ps.flatten.length ≤ buf.size) : Clean k (emit buf off ps) := by
  induction ps generalizing off with
  | nil => exact .pure trivial
  | cons p ps ih =>
    rw [flatten_cons, length_append] at h
    exact .bind (clean_wrote (by omega)) fun _ _ => ih (by omega)

theorem cutMessage_length (m : String) : (cutMessage m).length ≤ 95 := by
  rw [cutMessage, String.length_ofList, length_take]
  exact min_le_left _ _

theorem clean_seterrGlobal (m : String) : Clean k (seterrGlobal m) := by
  have hlen := cutMessage_length m
  refine clean_wrote ?_
  show 0 + _ ≤ 96
  omega

theorem clean_seterr (m : String) : Clean k (seterr m) := by
  have hlen := cutMessage_length m
  refine .bind (clean_seterrGlobal m) fun _ _ => .bind (clean_wrote ?_) fun _ _ => ?_
  · show 0 + _ ≤ 96
    omega
  · exact clean_update fun _ => rfl

theorem keeps_giveUp {α : Type} {P : α → Prop} (m : String) : Keeps (Tidy k) (giveUp m) P :=
  .bind (clean_seterr m) fun _ _ => .fail

/-- Behind a refusal its condition is known to be false. -/
theorem keeps_refuse [Decidable c] {m : String} : Keeps (Tidy k) (refuse c m) fun _ => ¬c :=
  .ite (fun _ => keeps_giveUp m) fun hc => .pure hc

theorem keeps_refuseGlobal [Decidable c] {m : String} :
    Keeps (Tidy k) (refuseGlobal c m) fun _ => ¬c :=
  .ite (fun _ => .bind (clean_seterrGlobal m) fun _ _ => .fail) fun hc => .pure hc

theorem clean_alertErr (desc : UInt8) : Clean k (alertErr desc) := by
  iterate 5 refine Keeps.ite (fun _ => clean_seterr _) fun _ => ?_
  exact clean_seterr _

theorem clean_refuseAlert [Decidable c] {desc : UInt8} : Clean k (refuseAlert c desc) :=
  .ite (fun _ => .bind (clean_alertErr desc) fun _ _ => .fail) fun _ => .pure trivial

theorem keeps_getConn : Keeps (Tidy k) getConn (Tidy k) := Keeps.query_self

theorem clean_malloc : Clean k malloc :=
  .bind keeps_getConn fun _ _ =>
    .bind (clean_update fun _ => rfl) fun _ _ => .pure trivial

theorem le_growLoop (need fuel ncap : ℕ) : ncap ≤ growLoop need fuel ncap := by
  induction fuel generalizing ncap with
  | zero => exact le_rfl
  | succ fuel ih =>
    rw [growLoop]
    split_ifs
    · exact le_trans (by omega) (ih (ncap * 2))
    · exact le_rfl

theorem need_le_growLoop {need ncap : ℕ} (hpos : 0 < ncap) (hfuel : need ≤ ncap + fuel) :
    need ≤ growLoop need fuel ncap := by
  induction fuel generalizing ncap with
  | zero => exact hfuel
  | succ fuel ih =>
    rw [growLoop]
    split_ifs with hlt
    · exact ih (by omega) (by omega)
    · omega

theorem ends_refuse_tidy [Decidable c] {m : String} {Q : Unit → Conn → Prop}
    (hs : Tidy k s) (hgo : ¬c → Q () s) : (refuse c m).Ends s Q (Tidy k) := by
  rw [refuse]
  split_ifs with hc
  · exact (keeps_giveUp (P := fun _ => False) m s hs).mono (fun _ _ h => h.2.elim) fun _ => id
  · exact hgo hc

theorem grow_ends (hs : Tidy k s) (cap need : ℕ) :
    (grow cap need).Ends s (fun ncap s' => Tidy k s' ∧ s'.hs = s.hs ∧ s'.rx = s.rx ∧
      need ≤ ncap ∧ cap ≤ ncap) (Tidy k) := by
  have hcap : cap ≤ growLoop need need (if cap ≠ 0 then cap else 4096) :=
    le_trans (by split_ifs <;> omega) (le_growLoop _ _ _)
  have hneed : need ≤ growLoop need need (if cap ≠ 0 then cap else 4096) :=
    need_le_growLoop (by split_ifs <;> omega) (by omega)
  simp only [grow, ends_bind]
  have hs' : Tidy k { s with mallocs := s.mallocs.tail } := ⟨hs.hs, hs.rx, hs.inside, hs.grown⟩
  refine ends_refuse_tidy hs' fun _ => ?_
  exact ⟨hs'.log_cons (Write.inside_of_le (by rw [zero_add]; exact hcap)), rfl, rfl, hneed, hcap⟩

theorem room_ends (hs : Tidy k s) (cap need : ℕ) :
    (room cap need).Ends s (fun ncap s' => Tidy k s' ∧ s'.hs = s.hs ∧ s'.rx = s.rx ∧
      need ≤ ncap ∧ cap ≤ ncap) (Tidy k) := by
  rw [room]
  split_ifs with hfull
  · exact grow_ends hs cap need
  · exact ⟨hs, rfl, rfl, not_lt.mp hfull, le_rfl⟩

theorem clean_transcriptAdd {p : List UInt8} : Clean k (transcriptAdd p) := by
  intro s hs
  simp only [transcriptAdd, ends_bind]
  refine (room_ends hs _ _).mono ?_ fun _ => id
  rintro cap s' ⟨hs', hhs, -, hneed, -⟩
  have hlog := hs'.log_cons (w := ⟨.heap cap, s.hs.length, p.length⟩) (Write.inside_of_le hneed)
  refine ⟨⟨?_, hlog.rx, hlog.inside, hlog.grown⟩, trivial⟩
  simpa [hhs] using hneed

theorem clean_rxAdd (p : List UInt8) : Clean k (rxAdd p) := by
  intro s hs
  simp only [rxAdd, ends_bind]
  refine (room_ends hs _ _).mono ?_ fun _ => id
  rintro cap s' ⟨hs', -, hrx, hneed, hcap⟩
  have hlog := hs'.log_cons (w := ⟨.heap cap, s.rx.length, p.length⟩) (Write.inside_of_le hneed)
  refine ⟨⟨hlog.hs, ?_, hlog.inside, le_trans hs.grown hcap⟩, trivial⟩
  simpa [hrx] using hneed

theorem clean_sendLoop (fuel : ℕ) (p : List UInt8) : Clean k (sendLoop fuel p) := by
  induction fuel generalizing p with
  | zero => exact .pure trivial
  | succ fuel ih =>
    refine .ite (fun _ => .pure trivial) fun _ => .bind keeps_getConn fun s _ => ?_
    refine .bind (clean_update fun _ => rfl) fun _ _ => ?_
    refine .bind keeps_refuse fun _ _ => ?_
    exact .bind (clean_update fun _ => rfl) fun _ _ => ih _

theorem clean_sendAll (p : List UInt8) : Clean k (sendAll p) := clean_sendLoop _ p

theorem keeps_recvFn (h : off + n ≤ buf.size) :
    Keeps (Tidy k) (recvFn buf off n) fun bs => bs.length ≤ n := by
  refine .bind keeps_getConn fun s _ => ?_
  refine .bind (clean_update fun _ => rfl) fun _ _ => ?_
  refine .bind keeps_refuse fun _ _ => .bind (clean_wrote (by omega)) fun _ _ => ?_
  refine .bind (clean_update fun _ => rfl) fun _ _ => .pure ?_
  rw [length_take]
  omega

theorem keeps_recvLoop (h : off + n ≤ buf.size) :
    Keeps (Tidy k) (recvLoop buf fuel off n) fun bs => bs.length ≤ n := by
  induction fuel generalizing off n with
  | zero => exact .pure (zero_le n)
  | succ fuel ih =>
    refine .ite (fun _ => .pure (zero_le n)) fun _ => .bind (keeps_recvFn h) fun bs hbs => ?_
    refine .bind (ih (by omega)) fun rest hrest => .pure ?_
    rw [length_append]
    omega

theorem keeps_readRecord {out : Buffer} :
    Keeps (Tidy k) (readRecord out) fun r => r.body.length ≤ out.size := by
  refine .bind (keeps_recvLoop (by decide)) fun hdr _ => ?_
  refine .bind keeps_refuse fun _ _ => .bind keeps_refuse fun _ hfits => ?_
  have hfits := not_lt.mp hfits
  refine .bind (keeps_recvLoop (by omega)) fun body hbody => .pure (le_trans hbody hfits)

theorem clean_wantRng (h : off + n ≤ buf.size) : Clean k (wantRng buf off n) := by
  refine .bind keeps_getConn fun s _ => .bind keeps_refuse fun _ _ => ?_
  refine .bind (clean_wrote h) fun _ _ => ?_
  exact .bind (clean_update fun _ => rfl) fun _ _ => .pure trivial

@[simp] theorem put16_length (v : ℕ) : (put16 v).length = 2 := rfl

@[simp] theorem put24_length (v : ℕ) : (put24 v).length = 3 := rfl

def recordSeal (ptlen : ℕ) : SealCall where
  key := ⟨0, 0⟩
  nonce := ⟨1, 0⟩
  aad := ⟨2, 0⟩
  aadlen := 13
  pt := ⟨3, 0⟩
  ptlen := ptlen
  ct := ⟨4, 0⟩
  pt_ct := Ptr.apart_of_obj (by decide) _ _
  aad_ct := Ptr.apart_of_obj (by decide) _ _

/-- Sealing stores the ciphertext and the tag, and nothing else. -/
theorem mem_recordSeal_log {h : Heap} (hlog : h.log = []) {ptlen : ℕ} {p : Ptr}
    (hp : p ∈ ((recordSeal ptlen).run h).log) : p.off < ptlen + 16 := by
  rw [SealCall.run_eq, Heap.mem_log_write, length_append, SealCall.text_length, hlog] at hp
  obtain hnil | ⟨i, hi, rfl⟩ := hp
  · cases hnil
  · show 0 + i < _
    rw [zero_add]
    exact hi

theorem keeps_sealRecord (key : Bytes 16) (nonce aad : List UInt8) (hpt : pt.length ≤ maxPlain) :
    Keeps (Tidy k) (sealRecord key nonce aad pt) fun ct => ct.length = pt.length + 16 := by
  refine .bind (P := fun _ => True) (.update fun s hs => hs.log_append ?_) fun _ _ =>
    .bind (clean_update fun _ => rfl) fun _ _ => .pure (Heap.load_length _ _ _)
  intro w hw
  obtain ⟨p, hp, rfl⟩ := mem_map.mp hw
  have hoff := mem_recordSeal_log (h := objects [key.val, nonce, aad, pt]) rfl hp
  apply Write.inside_of_le
  show p.off + 1 ≤ maxPlain + 16
  omega

@[simp] theorem bytes_length (b : Bytes n) : b.val.length = n := b.property

theorem clean_sendSealed (type : UInt8) (hpt : pt.length ≤ maxPlain) :
    Clean k (sendSealed type pt) := by
  refine .bind keeps_getConn fun s _ => .bind (clean_emit ?_) fun _ _ =>
    .bind (clean_emit ?_) fun _ _ => .bind (keeps_sealRecord _ _ _ hpt) fun ct hct =>
    .bind (clean_emit ?_) fun _ _ => .pure trivial
  · simp [Buffer.size, seqBytes_length]
  · simp [Buffer.size, seqBytes_length]
  · simp only [flatten_cons, flatten_nil, length_append, put16_length, seqBytes_length,
    length_nil, Buffer.size]
    omega

theorem clean_sendPlain (hpt : pt.length ≤ maxPlain) : Clean k (sendPlain pt) := by
  refine .bind (clean_emit ?_) fun _ _ => .pure trivial
  simp only [flatten_cons, flatten_nil, length_append, put16_length, length_nil, Buffer.size]
  omega

theorem clean_tlsSendRecord {type : UInt8} {pt : List UInt8} : Clean k (tlsSendRecord type pt) := by
  refine .bind keeps_refuse fun _ hpt => .bind (clean_emit ?_) fun _ _ => ?_
  · simp [Buffer.size]
  · have hpt := not_lt.mp hpt
    refine .bind (P := fun _ => True) (.bind keeps_getConn fun s _ => ?_) fun rest _ => ?_
    · exact .ite (fun _ => clean_sendSealed type hpt) fun _ => clean_sendPlain hpt
    · exact .bind (clean_sendAll _) fun _ _ => clean_update fun _ => rfl

end

end Vnu.Tls
