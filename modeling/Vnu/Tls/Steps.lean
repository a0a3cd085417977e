import Vnu.Tls.Tidy

/-!
Runs that succeed. `Goes x m c a m' c'` says that from `c`, with `m` allocations to come and a
transport that always transfers something, the action `x` returns `a` and ends in `c'`, with `m'` to
come.
-/
namespace Vnu.Tls

open Lib List Act Nat

variable {s : Conn} {f : Conn → Conn} {p : Prop} {msg : String} {fuel n : ℕ}
  {bs rest pt : List UInt8} {type : UInt8}

/-- The connection without the answers to come, the log and the sizes of its buffers. -/
def Conn.quiet (s : Conn) : Conn :=
  { s with
    sizes := [], mallocs := [], sends := [], err := "", hsCap := 0, rxCap := 0, log := []
    opened := [] }

def sendLimit : ℕ := 2 ^ 16

/-- There are enough calls to come for what is received and sent; `m` allocations succeed. -/
structure Supplied (m : ℕ) (s : Conn) : Prop where
  sizes_pos : ∀ n ∈ s.sizes, 0 < n
  sizes : s.peer.length ≤ s.sizes.length
  sends_pos : ∀ n ∈ s.sends, 0 < n
  sends : sendLimit ≤ s.sends.length + s.sent.length
  mallocs_true : ∀ b ∈ s.mallocs, b = true
  mallocs : m ≤ s.mallocs.length

structure Goes {α : Type} (x : Hs α) (m : ℕ) (c : Conn) (a : α) (m' : ℕ) (c' : Conn) : Prop where
  ends : ∀ s, s.quiet = c → Supplied m s →
    x.Ends s (fun a' s' => a' = a ∧ s'.quiet = c' ∧ Supplied m' s') fun _ => False

theorem Supplied.le {m m' : ℕ} (h : Supplied m s) (hle : m' ≤ m) : Supplied m' s :=
  ⟨h.sizes_pos, h.sizes, h.sends_pos, h.sends, h.mallocs_true, hle.trans h.mallocs⟩

section

variable {α β : Type} {m m' m'' : ℕ} {x : Hs α} {c c' c'' : Conn} {a : α}

theorem Goes.pure {a : α} : Goes (pure a) m c a m c := ⟨fun _ hs hsup => ⟨rfl, hs, hsup⟩⟩

theorem Goes.bind {f : α → Hs β} {b : β} (hx : Goes x m c a m' c')
    (hf : Goes (f a) m' c' b m'' c'') : Goes (x >>= f) m c b m'' c'' := by
  refine ⟨fun s hs hsup => ?_⟩
  rw [ends_bind]
  refine (hx.ends s hs hsup).mono (fun a' s' h => ?_) fun _ => id
  rw [h.1]
  exact hf.ends s' h.2.1 h.2.2

theorem Goes.look {f : Conn → Hs β} {b : β} (h : ∀ s, s.quiet = c → Goes (f s) m c b m' c') :
    Goes (getConn >>= f) m c b m' c' := by
  refine ⟨fun s hs hsup => ?_⟩
  exact (h s hs).ends s hs hsup

/-- A look at what the connection keeps anyway. -/
theorem Goes.peek {f : Conn → Hs β} {b : β} (hf : ∀ s, f s = f s.quiet)
    (h : Goes (f c) m c b m' c') : Goes (getConn >>= f) m c b m' c' :=
  .look fun s hs => by rwa [hf, hs]

theorem Goes.le (h : Goes x m c a m' c') (hle : m'' ≤ m') : Goes x m c a m'' c' :=
  ⟨fun s hs hsup =>
    (h.ends s hs hsup).mono (fun _ _ h => ⟨h.1, h.2.1, h.2.2.le hle⟩) fun _ => id⟩

def Conn.supply (s : Conn) : List ℕ × List UInt8 × List ℕ × List UInt8 × List Bool :=
  (s.sizes, s.peer, s.sends, s.sent, s.mallocs)

theorem Supplied.of_supply {s' : Conn} (h : Supplied m s) (heq : s'.supply = s.supply) :
    Supplied m s' := by
  obtain ⟨hsizes, hpeer, hsends, hsent, hmallocs⟩ :
      s'.sizes = s.sizes ∧ s'.peer = s.peer ∧ s'.sends = s.sends ∧ s'.sent = s.sent ∧
        s'.mallocs = s.mallocs := by
    simpa [Conn.supply] using heq
  constructor
  · rw [hsizes]
    exact h.sizes_pos
  · rw [hsizes, hpeer]
    exact h.sizes
  · rw [hsends]
    exact h.sends_pos
  · rw [hsends, hsent]
    exact h.sends
  · rw [hmallocs]
    exact h.mallocs_true
  · rw [hmallocs]
    exact h.mallocs

theorem goes_update (hquiet : ∀ s, s.quiet = c → (f s).quiet = c')
    (hsupply : ∀ s, (f s).supply = s.supply) : Goes (update f) m c () m c' :=
  ⟨fun s hs hsup => ⟨rfl, hquiet s hs, hsup.of_supply (hsupply s)⟩⟩

theorem goes_set (hquiet : ∀ s, (f s).quiet = f s.quiet)
    (hsupply : ∀ s, (f s).supply = s.supply) : Goes (update f) m c () m (f c) :=
  goes_update (fun s hs => by rw [hquiet, hs]) hsupply

theorem goes_log (hquiet : ∀ s, (f s).quiet = s.quiet)
    (hsupply : ∀ s, (f s).supply = s.supply) : Goes (update f) m c () m c :=
  goes_update (fun s hs => (hquiet s).trans hs) hsupply

theorem Goes.set {y : Hs β} {b : β} (hquiet : ∀ s, (f s).quiet = f s.quiet)
    (hsupply : ∀ s, (f s).supply = s.supply) (hy : Goes y m (f c) b m' c') :
    Goes (update f >>= fun _ => y) m c b m' c' := (goes_set hquiet hsupply).bind hy

theorem goes_wrote {buf : Buffer} {off len : ℕ} : Goes (wrote buf off len) m c () m c :=
  goes_log (fun _ => rfl) fun _ => rfl

theorem goes_emit {buf : Buffer} {off : ℕ} {ps : List (List UInt8)} :
    Goes (emit buf off ps) m c () m c := by
  induction ps generalizing off with
  | nil => exact .pure
  | cons p ps ih => exact goes_wrote.bind (ih)

theorem goes_refuse {_ : Decidable p} (h : ¬p) : Goes (refuse p msg) m c () m c := by
  rw [refuse, if_neg h]
  exact .pure

theorem goes_refuseGlobal {_ : Decidable p} (h : ¬p) : Goes (refuseGlobal p msg) m c () m c := by
  rw [refuseGlobal, if_neg h]
  exact .pure

theorem goes_refuseAlert {_ : Decidable p} {desc : UInt8} (h : ¬p) :
    Goes (refuseAlert p desc) m c () m c := by
  rw [refuseAlert, if_neg h]
  exact .pure

end

section

variable {m : ℕ} {c : Conn}

theorem goes_malloc : Goes malloc (m + 1) c true m c := by
  refine ⟨fun s hs hsup => ?_⟩
  rw [malloc]
  simp only [ends_bind, ends_getConn, ends_update]
  have hlen := hsup.mallocs
  cases hm : s.mallocs with
  | nil =>
    rw [hm, length_nil] at hlen
    omega
  | cons b bs =>
    have htrue := hsup.mallocs_true
    rw [hm] at htrue hlen
    rw [length_cons] at hlen
    refine ⟨htrue b mem_cons_self, hs, hsup.sizes_pos, hsup.sizes, hsup.sends_pos, hsup.sends,
      fun b' hb' => htrue b' (mem_cons_of_mem b hb'), ?_⟩
    show m ≤ bs.length
    omega

theorem goes_grow (cap need : ℕ) :
    Goes (grow cap need) (m + 1) c (growLoop need need (if cap ≠ 0 then cap else 4096)) m c :=
  goes_malloc.bind ((goes_refuse nofun).bind (goes_wrote.bind Goes.pure))

theorem goes_room (cap need : ℕ) : Goes (room cap need) (m + 1) c
    (if need > cap then growLoop need need (if cap ≠ 0 then cap else 4096) else cap) m c := by
  rw [room]
  by_cases hneed : need > cap
  · rw [if_pos hneed, if_pos hneed]
    exact goes_grow cap need
  · rw [if_neg hneed, if_neg hneed]
    exact Goes.pure.le (le_succ m)

theorem goes_transcriptAdd {p : List UInt8} :
    Goes (transcriptAdd p) (m + 1) c () m { c with hs := c.hs ++ p } := by
  refine Goes.look fun s hs => (goes_room _ _).bind
    (goes_wrote.bind (goes_update ?_ fun _ => rfl))
  intro s hs
  rw [← hs]
  rfl

theorem goes_rxAdd (p : List UInt8) : Goes (rxAdd p) (m + 1) c () m { c with rx := c.rx ++ p } := by
  refine .look fun s hs => (goes_room _ _).bind
    (goes_wrote.bind (goes_update ?_ fun _ => rfl))
  intro s hs
  rw [← hs]
  rfl

theorem goes_wantRng (buf : Buffer) (off n : ℕ) {r : List UInt8} {rest : List (List UInt8)}
    (h : c.rngs = r :: rest) :
    Goes (wantRng buf off n) m c (bytesOf n r) m { c with rngs := rest } := by
  refine .peek (fun _ => rfl) ?_
  rw [h]
  refine (goes_refuse (cons_ne_nil r rest)).bind ?_
  refine goes_wrote.bind ?_
  refine .bind (goes_update (fun s' hs' => ?_) fun _ => rfl) Goes.pure
  have htail : s'.rngs = r :: rest := by
    rw [← h, ← hs']
    rfl
  rw [← hs']
  show { s'.quiet with rngs := s'.rngs.tail } = { s'.quiet with rngs := rest }
  rw [htail, tail_cons]

theorem Supplied.send (h : Supplied m s) {p : List UInt8} (hp : p ≠ [])
    (hfits : s.sent.length + p.length ≤ sendLimit) :
    0 < min p.length (s.sends.headD 0) ∧ Supplied m { s with
        sends := s.sends.tail
        sent := s.sent ++ p.take (min p.length (s.sends.headD 0)) } := by
  have hpos := length_pos_iff.mpr hp
  have hcalls := h.sends
  cases hs : s.sends with
  | nil =>
    rw [hs, length_nil] at hcalls
    omega
  | cons n ns =>
    have hall := h.sends_pos
    rw [hs] at hall hcalls
    have hn := hall n mem_cons_self
    rw [length_cons] at hcalls
    rw [headD_cons, tail_cons]
    refine ⟨by omega, h.sizes_pos, h.sizes, fun n' hn' => hall n' (mem_cons_of_mem n hn'), ?_,
      h.mallocs_true, h.mallocs⟩
    simp only [length_append, length_take]
    omega

theorem goes_sendLoop {p : List UInt8} (hfuel : p.length ≤ fuel)
    (hfits : c.sent.length + p.length ≤ sendLimit) :
    Goes (sendLoop fuel p) m c () m { c with sent := c.sent ++ p } := by
  induction fuel generalizing p c with
  | zero =>
    rw [length_eq_zero_iff.mp (Nat.le_zero.mp hfuel), append_nil]
    exact .pure
  | succ fuel ih =>
    rw [sendLoop]
    by_cases hp : p.length = 0
    · rw [length_eq_zero_iff.mp hp, append_nil]
      exact .pure
    rw [if_neg hp]
    refine ⟨fun s hs hsup => ?_⟩
    obtain rfl := hs
    obtain ⟨hr, hnext⟩ := hsup.send (fun hnil => hp (by rw [hnil]; rfl)) hfits
    simp only [ends_bind]
    refine ends_refuse (fun h0 => absurd h0 hr.ne') fun _ => ?_
    set r := min p.length (s.sends.headD 0) with hrdef
    have hfits : s.sent.length + p.length ≤ sendLimit := hfits
    have hrest := ih (c := { s.quiet with sent := s.sent ++ p.take r }) (p := p.drop r)
      (by rw [length_drop]; omega)
      (by simp only [length_append, length_take, length_drop]; omega)
    have happ : s.sent ++ p.take r ++ p.drop r = s.sent ++ p := by
      rw [append_assoc, take_append_drop]
    refine (hrest.ends _ rfl hnext).mono
      (fun _ s' h => ⟨trivial, h.2.1.trans ?_, h.2.2⟩) fun _ => id
    rw [happ]
    rfl

theorem goes_sendAll {p : List UInt8} (hfits : c.sent.length + p.length ≤ sendLimit) :
    Goes (sendAll p) m c () m { c with sent := c.sent ++ p } := goes_sendLoop le_rfl hfits

theorem Supplied.recv (h : Supplied m s) (hn : 0 < n) (hpeer : s.peer ≠ []) :
    0 < min n (min (s.sizes.headD 0) s.peer.length) ∧ Supplied m { s with
        sizes := s.sizes.tail
        peer := s.peer.drop (min n (min (s.sizes.headD 0) s.peer.length)) } := by
  have hpos := length_pos_iff.mpr hpeer
  have hcalls := h.sizes
  cases hs : s.sizes with
  | nil =>
    rw [hs, length_nil] at hcalls
    omega
  | cons k ks =>
    have hall := h.sizes_pos
    rw [hs] at hall hcalls
    have hk := hall k mem_cons_self
    rw [length_cons] at hcalls
    rw [headD_cons, tail_cons]
    refine ⟨by omega, fun n' hn' => hall n' (mem_cons_of_mem k hn'), ?_, h.sends_pos, h.sends,
      h.mallocs_true, h.mallocs⟩
    simp only [length_drop]
    omega

theorem goes_recvLoop (buf : Buffer) {off : ℕ}
    (hfuel : bs.length ≤ fuel) (hpeer : c.peer = bs ++ rest) :
    Goes (recvLoop buf fuel off bs.length) m c bs m { c with peer := rest } := by
  induction fuel generalizing off bs c with
  | zero =>
    obtain rfl := length_eq_zero_iff.mp (Nat.le_zero.mp hfuel)
    rw [nil_append] at hpeer
    rw [← hpeer]
    exact .pure
  | succ fuel ih =>
    rw [recvLoop]
    by_cases hbs : bs.length = 0
    · obtain rfl := length_eq_zero_iff.mp hbs
      rw [nil_append] at hpeer
      rw [← hpeer]
      exact .pure
    rw [if_neg hbs]
    refine ⟨fun s hs hsup => ?_⟩
    obtain rfl := hs
    have hpeer : s.peer = bs ++ rest := hpeer
    obtain ⟨hr, hnext⟩ := hsup.recv (Nat.pos_of_ne_zero hbs) (by
      rw [hpeer]
      intro hnil
      exact hbs (by rw [(append_eq_nil_iff.mp hnil).1]; rfl))
    rw [recvFn]
    simp only [ends_bind]
    refine ends_refuse (fun h0 => absurd h0 hr.ne') fun _ => ?_
    simp only [ends_pure]
    set r := min bs.length (min (s.sizes.headD 0) s.peer.length) with hrdef
    have htake : s.peer.take r = bs.take r := by
      rw [hpeer, take_append_of_le_length (by omega)]
    have hdrop : s.peer.drop r = bs.drop r ++ rest := by
      rw [hpeer, drop_append_of_le_length (by omega)]
    have hlen : (s.peer.take r).length = r := by
      rw [length_take]
      omega
    have hrest : Goes (recvLoop buf fuel (off + r) (bs.drop r).length) m
        { s.quiet with peer := s.peer.drop r } (bs.drop r) m { s.quiet with peer := rest } :=
      ih (by rw [length_drop]; omega) hdrop
    rw [length_drop] at hrest
    rw [hlen]
    have hlogged : Supplied m { s with
        sizes := s.sizes.tail, peer := s.peer.drop r, log := ⟨buf, off, r⟩ :: s.log } :=
      hnext.of_supply rfl
    refine (hrest.ends _ rfl hlogged).mono (fun bs' s' h => ⟨?_, h.2.1, h.2.2⟩) fun _ => id
    rw [h.1, htake, take_append_drop]

theorem goes_recvAll (buf : Buffer) (hn : bs.length = n)
    (hpeer : c.peer = bs ++ rest) : Goes (recvAll buf n) m c bs m { c with peer := rest } := by
  rw [← hn]
  exact goes_recvLoop buf le_rfl hpeer

end

def wireRecord (type : UInt8) (body : List UInt8) : List UInt8 :=
  [type, 3, 3] ++ put16 body.length ++ body

def sealedBody (key : Bytes 16) (iv : Bytes 4) (seq : UInt64) (type : UInt8) (pt : List UInt8) :
    List UInt8 :=
  seqBytes seq ++ (gcmText key.val (gcmNonce iv seq) pt ++
    gcmTag key.val (gcmNonce iv seq) (gcmAad seq type pt.length)
      (gcmText key.val (gcmNonce iv seq) pt))

def Conn.writeKey (s : Conn) : Bytes 16 := if s.isServer then s.skey else s.ckey

def Conn.writeIv (s : Conn) : Bytes 4 := if s.isServer then s.siv else s.civ

def Conn.readKey (s : Conn) : Bytes 16 := if s.isServer then s.ckey else s.skey

def Conn.readIv (s : Conn) : Bytes 4 := if s.isServer then s.civ else s.siv

theorem wireRecord_length (type : UInt8) (body : List UInt8) :
    (wireRecord type body).length = 5 + body.length := by
  simp only [wireRecord, length_append, put16_length, length_cons, length_nil]

theorem sealedBody_length (key : Bytes 16) (iv : Bytes 4) (seq : UInt64) (type : UInt8)
    (pt : List UInt8) : (sealedBody key iv seq type pt).length = pt.length + 24 := by
  simp only [sealedBody, length_append, seqBytes_length, gcmText_length, gcmTag_length]
  omega

theorem gcmNonce_length (iv : Bytes 4) (seq : UInt64) : (gcmNonce iv seq).length = 12 := by
  rw [gcmNonce, length_append, iv.property, seqBytes_length]

theorem gcmAad_length {seq : UInt64} {type : UInt8} {n : ℕ} : (gcmAad seq type n).length = 13 := by
  rfl

theorem be16_put16 (hn : n < 65536) (rest : List UInt8) : be16 (put16 n ++ rest) = n := by
  simp only [be16, put16, cons_append, getD_cons_zero, getD_cons_succ, UInt8.toNat_ofNat']
  omega

section

variable {m : ℕ} {c : Conn}

theorem goes_readRecord {out : Buffer} {body : List UInt8}
    (hpeer : c.peer = wireRecord type body ++ rest) (hlen : body.length ≤ out.size)
    (hshort : body.length < 65536) :
    Goes (readRecord out) m c ⟨type, body⟩ m { c with peer := rest } := by
  have hsplit : c.peer = ([type, 3, 3] ++ put16 body.length) ++ (body ++ rest) := by
    rw [hpeer, wireRecord, append_assoc]
  have hn : be16 (([type, 3, 3] ++ put16 body.length).drop 3) = body.length := by
    have h := be16_put16 hshort []
    rwa [append_nil] at h
  refine (goes_recvAll .hdr rfl hsplit).bind ?_
  refine (goes_refuse (not_or.mpr ⟨fun h => h rfl, (show ¬(3 : UInt8) > 3 by decide)⟩)).bind ?_
  rw [hn]
  refine (goes_refuse (Nat.not_lt.mpr hlen)).bind ?_
  exact (goes_recvAll out rfl rfl).bind Goes.pure

theorem goes_logHeap (h : Heap) (buf : Buffer) : Goes (logHeap h buf) m c () m c :=
  goes_log (fun _ => rfl) fun _ => rfl

theorem goes_sealRecord (key : Bytes 16) {nonce aad : List UInt8} (pt : List UInt8)
    (hnonce : nonce.length = 12) (haad : aad.length = 13) :
    Goes (sealRecord key nonce aad pt) m c
      (gcmText key.val nonce pt ++ gcmTag key.val nonce aad (gcmText key.val nonce pt)) m
      { c with sealings := ⟨key.val, nonce, pt⟩ :: c.sealings } := by
  have hout : (tlsGcmSeal (objects [key.val, nonce, aad, pt]) ⟨0, 0⟩ ⟨1, 0⟩ ⟨2, 0⟩ 13 ⟨3, 0⟩
      pt.length ⟨4, 0⟩).load ⟨4, 0⟩ (pt.length + 16) =
      gcmText key.val nonce pt ++ gcmTag key.val nonce aad (gcmText key.val nonce pt) := by
    have h := (recordSeal pt.length).output_eq (objects [key.val, nonce, aad, pt])
    have hload (k : ℕ) {n : ℕ} (str : List UInt8) (hk : [key.val, nonce, aad, pt].getD k [] = str)
        (hlen : str.length = n) : (objects [key.val, nonce, aad, pt]).load ⟨k, 0⟩ n = str := by
      rw [objects_load (by rw [hk, hlen, zero_add]), hk, drop_zero, take_of_length_le hlen.le]
    have hkey := hload 0 key.val rfl key.property
    have hnonce := hload 1 nonce rfl hnonce
    have haad := hload 2 aad rfl haad
    have hpt := hload 3 pt rfl rfl
    simp only [recordSeal, hkey, hnonce, haad, hpt] at h
    exact h
  rw [sealRecord, hout]
  refine .bind (goes_logHeap _ _) ?_
  exact .set (fun _ => rfl) (fun _ => rfl) Goes.pure

theorem goes_sendSealed (type : UInt8) (pt : List UInt8) :
    Goes (sendSealed type pt) m c
      (put16 (pt.length + 24) ++ sealedBody c.writeKey c.writeIv c.seqW type pt) m
      { c with sealings := ⟨c.writeKey.val, gcmNonce c.writeIv c.seqW, pt⟩ :: c.sealings } := by
  refine .look fun s hs => ?_
  obtain rfl := hs
  refine goes_emit.bind (goes_emit.bind ?_)
  refine (goes_sealRecord _ pt (gcmNonce_length _ _) gcmAad_length).bind ?_
  refine goes_emit.bind ?_
  have hsum : 8 + pt.length + 16 = pt.length + 24 := by omega
  rw [hsum]
  simp only [flatten_cons, flatten_nil, append_nil]
  exact .pure

theorem goes_sendPlain (pt : List UInt8) : Goes (sendPlain pt) m c (put16 pt.length ++ pt) m c :=
  goes_emit.bind Goes.pure

theorem goes_tlsSendRecord {body : List UInt8} (c₁ : Conn) (hpt : pt.length ≤ maxPlain)
    (hbody : Goes (sendBody type pt) m c (put16 body.length ++ body) m c₁)
    (hfits : c₁.sent.length + (body.length + 5) ≤ sendLimit) :
    Goes (tlsSendRecord type pt) m c () m
      { c₁ with sent := c₁.sent ++ wireRecord type body, seqW := c₁.seqW + 1 } := by
  have hwire : [type] ++ put16 0x0303 ++ (put16 body.length ++ body) = wireRecord type body := rfl
  refine (goes_refuse (Nat.not_lt.mpr hpt)).bind (goes_emit.bind (hbody.bind ?_))
  rw [hwire]
  refine (goes_sendAll (by rw [wireRecord_length]; omega)).bind ?_
  exact goes_set (fun _ => rfl) fun _ => rfl

theorem goes_tlsSendRecord_sealed (henc : c.writeEnc = true)
    (hpt : pt.length ≤ maxPlain) (hfits : c.sent.length + (pt.length + 29) ≤ sendLimit) :
    Goes (tlsSendRecord type pt) m c () m
      { c with
        sent := c.sent ++ wireRecord type (sealedBody c.writeKey c.writeIv c.seqW type pt)
        sealings := ⟨c.writeKey.val, gcmNonce c.writeIv c.seqW, pt⟩ :: c.sealings
        seqW := c.seqW + 1 } := by
  refine goes_tlsSendRecord { c with
    sealings := ⟨c.writeKey.val, gcmNonce c.writeIv c.seqW, pt⟩ :: c.sealings } hpt ?_ ?_
  · refine .peek (fun _ => rfl) ?_
    rw [if_pos henc, sealedBody_length]
    exact goes_sendSealed type pt
  · rw [sealedBody_length]
    exact hfits

theorem goes_tlsSendRecord_plain (henc : c.writeEnc = false)
    (hpt : pt.length ≤ maxPlain) (hfits : c.sent.length + (pt.length + 5) ≤ sendLimit) :
    Goes (tlsSendRecord type pt) m c () m
      { c with sent := c.sent ++ wireRecord type pt, seqW := c.seqW + 1 } := by
  refine goes_tlsSendRecord c hpt (.peek (fun _ => rfl) ?_) hfits
  rw [henc]
  exact goes_sendPlain pt

end

end Vnu.Tls
