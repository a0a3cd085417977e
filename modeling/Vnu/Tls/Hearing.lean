import Vnu.Tls.Parties

/-!
What a client takes from its server, step by step, when the step succeeds.
-/
namespace Vnu.Tls

open Lib List Act Nat

def scan : ℕ → List UInt8 → List UInt8 × List UInt8
  | 0, p => ([], p)
  | fuel + 1, p =>
    if p.length < 4 ∨ p.length < 4 + be24 (p.drop 1) then ([], p)
    else
      let r := scan fuel (p.drop (4 + be24 (p.drop 1)))
      (p.getD 0 0 :: r.1, r.2)

def messageTypes (p : List UInt8) : List UInt8 := (scan p.length p).1

def unread (p : List UInt8) : List UInt8 := (scan p.length p).2

section

variable {p : List UInt8}

theorem scan_short {fuel : ℕ} (h : p.length < 4 ∨ p.length < 4 + be24 (p.drop 1)) :
    scan fuel p = ([], p) := by
  cases fuel with
  | zero => rfl
  | succ fuel => rw [scan, if_pos h]

theorem scan_fuel {fuel fuel' : ℕ} (h : p.length ≤ fuel) (h' : p.length ≤ fuel') :
    scan fuel p = scan fuel' p := by
  induction fuel generalizing fuel' p with
  | zero =>
    have hshort : p.length < 4 := by omega
    rw [scan_short (.inl hshort), scan_short (.inl hshort)]
  | succ fuel ih =>
    by_cases hshort : p.length < 4 ∨ p.length < 4 + be24 (p.drop 1)
    · rw [scan_short hshort, scan_short hshort]
    obtain ⟨k, rfl⟩ : ∃ k, fuel' = k + 1 := ⟨fuel' - 1, by omega⟩
    have hlen : (p.drop (4 + be24 (p.drop 1))).length ≤ p.length - 4 := by
      rw [length_drop]
      omega
    rw [scan, scan, if_neg hshort, if_neg hshort, ih (by omega) (show _ ≤ k by omega)]

theorem scan_long (h : ¬(p.length < 4 ∨ p.length < 4 + be24 (p.drop 1))) :
    scan p.length p = (p.getD 0 0 :: messageTypes (p.drop (4 + be24 (p.drop 1))),
      unread (p.drop (4 + be24 (p.drop 1)))) := by
  obtain ⟨n, hn⟩ : ∃ n, p.length = n + 1 := ⟨p.length - 1, by omega⟩
  have hlen : (p.drop (4 + be24 (p.drop 1))).length ≤ n := by
    rw [length_drop]
    omega
  rw [hn, scan, if_neg h, scan_fuel hlen le_rfl, messageTypes, unread]

theorem be24_append {a b : List UInt8} (h : 3 ≤ a.length) : be24 (a ++ b) = be24 a := by
  rw [be24, be24, getD_append _ _ _ _ (by omega), getD_append _ _ _ _ (by omega),
    getD_append _ _ _ _ (by omega)]

/-- A string that is read in two parts. -/
theorem scan_append (p q : List UInt8) :
    scan (p ++ q).length (p ++ q) =
      (messageTypes p ++ messageTypes (unread p ++ q), unread (unread p ++ q)) := by
  induction hn : p.length using Nat.strong_induction_on generalizing p with
  | _ n ih =>
    by_cases hshort : p.length < 4 ∨ p.length < 4 + be24 (p.drop 1)
    · rw [messageTypes, unread, scan_short hshort]
      rfl
    obtain ⟨hfour, hfits⟩ := not_or.mp hshort
    have hdrop : (p ++ q).drop 1 = p.drop 1 ++ q := drop_append_of_le_length (by omega)
    have hbe : be24 ((p ++ q).drop 1) = be24 (p.drop 1) := by
      rw [hdrop, be24_append (by rw [length_drop]; omega)]
    have hlong : ¬((p ++ q).length < 4 ∨ (p ++ q).length < 4 + be24 ((p ++ q).drop 1)) := by
      rw [length_append]
      omega
    have hrest : (p ++ q).drop (4 + be24 (p.drop 1)) = p.drop (4 + be24 (p.drop 1)) ++ q :=
      drop_append_of_le_length (by omega)
    have hless : (p.drop (4 + be24 (p.drop 1))).length < n := by
      rw [length_drop]
      omega
    have hnext := ih _ hless (p.drop (4 + be24 (p.drop 1))) rfl
    have htypes : messageTypes p = p.getD 0 0 :: messageTypes (p.drop (4 + be24 (p.drop 1))) := by
      rw [messageTypes, scan_long hshort]
    have hunread : unread p = unread (p.drop (4 + be24 (p.drop 1))) := by
      rw [unread, scan_long hshort]
    rw [scan_long hlong, hbe, hrest, messageTypes, unread, hnext, htypes, hunread,
      getD_append _ _ _ _ (by omega)]
    rfl

theorem messageTypes_append (p q : List UInt8) :
    messageTypes (p ++ q) = messageTypes p ++ messageTypes (unread p ++ q) := by
  rw [messageTypes, scan_append]

theorem unread_append (p q : List UInt8) : unread (p ++ q) = unread (unread p ++ q) := by
  rw [unread, scan_append]

end

structure Hearing where
  peer : List UInt8
  rx : List UInt8
  stage : Stage
  trace : List Event
  readEnc : Bool

def Conn.heard (s : Conn) : Hearing := ⟨s.peer, s.rx, s.stage, s.trace, s.readEnc⟩

instance : Blind (Same Conn.heard) :=
  blind_same (fun _ _ => rfl) (fun _ _ => rfl) fun _ _ => rfl

abbrev Deaf {α : Type} (x : Hs α) : Prop := Moves (Same Conn.heard) x

/-- An action of a client that heard `h`: if it returns, then with `Q`. -/
def Hears {α : Type} (x : Hs α) (h : Hearing) (Q : α → Hearing → Prop) : Prop :=
  ∀ s : Conn, s.heard = h → x.Ends s (fun a s' => Q a s'.heard) fun _ => True

section

variable {α β : Type} {x : Hs α} {f : α → Hs β} {h : Hearing} {P : α → Hearing → Prop}
  {Q : β → Hearing → Prop}

theorem Hears.bind (hx : Hears x h P) (hf : ∀ a h', P a h' → Hears (f a) h' Q) :
    Hears (x >>= f) h Q := fun s hs =>
  ends_bind.mpr ((hx s hs).mono (fun a s' ha => hf a s'.heard ha s' rfl) fun _ _ => trivial)

theorem Deaf.hears (hx : Deaf x) (hP : ∀ a, P a h) : Hears x h P := by
  rintro s rfl
  refine hx.ends.mono (fun a s' hs => ?_) fun _ _ => trivial
  rw [hs]
  exact hP a

theorem Deaf.bind_hears (hx : Deaf x) (hf : ∀ a, Hears (f a) h Q) : Hears (x >>= f) h Q :=
  (hx.hears (P := fun _ h' => h' = h) fun _ => rfl).bind fun a _ h' => h' ▸ hf a

theorem Hears.look {g : Conn → Hs β} (hg : ∀ s : Conn, s.heard = h → Hears (g s) h Q) :
    Hears (getConn >>= g) h Q := fun s hs => hg s hs s hs

theorem Hears.pure {a : α} (ha : P a h) : Hears (pure a) h P := by
  rintro s rfl
  exact ha

theorem Hears.set {g : Conn → Conn} {h' : Hearing} {Q : Unit → Hearing → Prop}
    (hg : ∀ s : Conn, s.heard = h → (g s).heard = h') (hQ : Q () h') :
    Hears (update g) h Q := by
  intro s hs
  show Q () (g s).heard
  rw [hg s hs]
  exact hQ

end

theorem deaf_transcriptAdd {p : List UInt8} : Deaf (transcriptAdd p) :=
  moves_transcriptAdd (fun _ _ _ => rfl) p

theorem deaf_sendLoop {fuel : ℕ} {p : List UInt8} : Deaf (sendLoop fuel p) :=
  moves_sendLoop (fun _ => rfl) fun _ _ => rfl

theorem deaf_tlsSendRecord {type : UInt8} {pt : List UInt8} : Deaf (tlsSendRecord type pt) :=
  moves_tlsSendRecord (moves_sendBody fun _ _ => rfl) deaf_sendLoop fun _ _ => rfl

theorem hears_connectHello (host : List UInt8) (h : Hearing) :
    Hears (connectHello host) h fun _ h' => h' = { h with stage := .awaitShd } := by
  have hcrandom (rand : Bytes 32) : Deaf (update fun s => { s with crandom := rand }) :=
    .update fun _ => rfl
  refine Deaf.bind_hears moves_malloc fun _ => Deaf.bind_hears moves_refuseGlobal fun _ => ?_
  refine Deaf.bind_hears (moves_wantRng (fun _ _ => rfl) _ _ _) fun _ => ?_
  refine (hcrandom _).bind_hears fun _ => Deaf.bind_hears moves_buildClientHello fun _ => ?_
  refine Deaf.bind_hears moves_emit fun _ => deaf_transcriptAdd.bind_hears fun _ => ?_
  refine deaf_tlsSendRecord.bind_hears fun _ => Hears.set (fun s hs => ?_) rfl
  rw [← hs]
  rfl

theorem deaf_connectKeys : Deaf connectKeys :=
  .bind (moves_clientKeyExchange (fun _ _ _ => rfl) deaf_tlsSendRecord fun _ _ => rfl) fun _ =>
    moves_deriveKeys (fun _ _ => rfl) fun _ _ _ _ _ => rfl

theorem deaf_changeCipherSpec : Deaf changeCipherSpec :=
  .bind moves_wrote fun _ => .bind deaf_sendLoop fun _ => .update fun _ => rfl

theorem deaf_sendFinished (label : String) : Deaf (sendFinished label) :=
  .bind moves_verifyData fun _ => .bind moves_emit fun _ =>
    .bind deaf_transcriptAdd fun _ => deaf_tlsSendRecord

theorem hears_recvLoop (buf : Buffer) {fuel n : ℕ} (off : ℕ) (hn : n ≤ fuel) (h : Hearing) :
    Hears (recvLoop buf fuel off n) h fun bs h' =>
      n ≤ h.peer.length ∧ bs = h.peer.take n ∧ h' = { h with peer := h.peer.drop n } := by
  induction fuel generalizing h n off with
  | zero =>
    obtain rfl := Nat.le_zero.mp hn
    exact .pure ⟨zero_le _, rfl, rfl⟩
  | succ fuel ih =>
    rw [recvLoop]
    split_ifs with hzero
    · obtain rfl := hzero
      exact .pure ⟨zero_le _, rfl, rfl⟩
    rintro s rfl
    simp only [recvFn, ends_bind, ends_pure]
    refine ends_refuse (fun _ _ => trivial) fun hsome => ?_
    set r := min n (min (s.sizes.headD 0) s.peer.length)
    have hle : r ≤ s.peer.length := by omega
    rw [length_take, min_eq_left hle]
    refine (ih _ (by omega) _ _ rfl).mono (fun bs s' hs' => ?_) fun _ _ => trivial
    obtain ⟨hlen, hbs, hheard⟩ := hs'
    have hlen : n - r ≤ (s.peer.drop r).length := hlen
    rw [length_drop] at hlen
    have hsum : r + (n - r) = n := by omega
    refine ⟨show n ≤ s.peer.length by omega, ?_, ?_⟩
    · rw [hbs]
      show s.peer.take r ++ (s.peer.drop r).take (n - r) = s.peer.take n
      rw [← take_add, hsum]
    · rw [hheard]
      show { s.heard with peer := (s.peer.drop r).drop (n - r) } =
        { s.heard with peer := s.peer.drop n }
      rw [drop_drop, hsum]

theorem be16_take {p : List UInt8} (hp : 5 ≤ p.length) :
    be16 ((p.take 5).drop 3) = be16 (p.drop 3) := by
  have hsplit : p.drop 3 = (p.take 5).drop 3 ++ p.drop 5 := by
    rw [drop_take, show p.drop 5 = (p.drop 3).drop 2 from (drop_drop (i := 2) (j := 3)).symm,
      take_append_drop]
  have htwo : ((p.take 5).drop 3).length = 2 := by
    rw [length_drop, length_take]
    omega
  rw [hsplit, be16, be16, getD_append _ _ _ _ (by omega), getD_append _ _ _ _ (by omega)]

theorem hears_readRecord (out : Buffer) (h : Hearing) :
    Hears (readRecord out) h fun r h' =>
      5 ≤ h.peer.length ∧ r.body = (h.peer.drop 5).take (be16 (h.peer.drop 3)) ∧
        h' = { h with peer := h.peer.drop (5 + be16 (h.peer.drop 3)) } := by
  refine (hears_recvLoop .hdr 0 le_rfl h).bind ?_
  rintro hdr - ⟨hlen, rfl, rfl⟩
  refine Deaf.bind_hears moves_refuse fun _ => Deaf.bind_hears moves_refuse fun _ => ?_
  rw [be16_take hlen]
  refine (hears_recvLoop out 0 le_rfl _).bind ?_
  rintro body - ⟨-, rfl, rfl⟩
  refine Hears.pure ⟨hlen, rfl, ?_⟩
  rw [← drop_drop]

theorem hears_rxAdd (p : List UInt8) (h : Hearing) :
    Hears (rxAdd p) h fun _ h' => h' = { h with rx := h.rx ++ p } := by
  refine Hears.look fun s _ => Deaf.bind_hears moves_room fun cap => ?_
  refine Deaf.bind_hears moves_wrote fun _ => Hears.set (fun s hs => ?_) rfl
  rw [← hs]
  rfl

theorem hears_drainMessage (type : UInt8) (body : List UInt8) (h : Hearing) :
    Hears (drainMessage type body) h fun _ h' =>
      h' = { h with stage := if type = 14 then .flightDone else h.stage } := by
  by_cases hdone : type = 14
  · subst hdone
    refine .set (fun s hs => ?_) rfl
    rw [← hs]
    rfl
  have hdeaf : Deaf (drainMessage type body) := by
    rw [drainMessage, if_neg (c := type = 14) hdone]
    exact .ite (moves_parseServerHello (fun _ _ => rfl) _)
      (.ite (moves_parseCertificate (fun _ _ => rfl) _)
        (.ite .pure (.ite moves_giveUp moves_giveUp)))
  rw [if_neg hdone]
  exact hdeaf.hears fun _ => rfl

def Hearing.drained (h : Hearing) (types : List UInt8) : Hearing :=
  { h with
    trace := (types.map Event.message).reverse ++ h.trace
    stage := if 14 ∈ types then .flightDone else h.stage }

theorem Hearing.drained_cons (h : Hearing) (type : UInt8) (types : List UInt8) :
    ({ h with
      stage := if type = 14 then .flightDone else h.stage
      trace := .message type :: h.trace } : Hearing).drained types = h.drained (type :: types) := by
  simp only [Hearing.drained, map_cons, reverse_cons, append_assoc, singleton_append, mem_cons]
  by_cases hmem : 14 ∈ types
  · rw [if_pos hmem, if_pos (.inr hmem)]
  · by_cases htype : type = 14
    · rw [if_neg hmem, if_pos htype, if_pos (.inl htype.symm)]
    · rw [if_neg hmem, if_neg htype, if_neg (not_or.mpr ⟨fun h => htype h.symm, hmem⟩)]

/-- The loop takes the complete messages and leaves the rest. -/
theorem hears_drainLoop (fuel : ℕ) (p : List UInt8) (h : Hearing) :
    Hears (drainLoop fuel p) h fun left h' =>
      left = (scan fuel p).2 ∧ h' = h.drained (scan fuel p).1 := by
  induction fuel generalizing h p with
  | zero => exact .pure ⟨rfl, rfl⟩
  | succ fuel ih =>
    rw [drainLoop, scan]
    by_cases hfour : p.length < 4
    · rw [if_pos hfour, if_pos (Or.inl hfour)]
      exact Hears.pure ⟨rfl, rfl⟩
    rw [if_neg hfour]
    by_cases hfits : p.length < 4 + be24 (p.drop 1)
    · rw [if_pos (Or.inr hfits)]
      rw [if_pos hfits]
      exact Hears.pure ⟨rfl, rfl⟩
    rw [if_neg (not_or.mpr ⟨hfour, hfits⟩)]
    rw [if_neg hfits]
    refine (hears_drainMessage _ _ h).bind ?_
    rintro - - rfl
    refine .bind (P := fun _ h' => h' = { h with
      stage := if p.getD 0 0 = 14 then .flightDone else h.stage
      trace := .message (p.getD 0 0) :: h.trace }) (.set (fun s hs => ?_) rfl) ?_
    · show { s.heard with trace := .message (p.getD 0 0) :: s.heard.trace } = _
      rw [hs]
    · rintro - - rfl
      rw [← Hearing.drained_cons]
      exact ih _ _

theorem hears_hsDrain (h : Hearing) :
    Hears hsDrain h fun _ h' =>
      h' = { h.drained (messageTypes h.rx) with rx := unread h.rx } := by
  refine Hears.look fun s hs => ?_
  have hrx : s.rx = h.rx := congrArg Hearing.rx hs
  rw [hrx]
  refine (hears_drainLoop _ _ h).bind ?_
  rintro left - ⟨rfl, rfl⟩
  refine Deaf.bind_hears moves_wrote fun _ => Hears.set (fun s hs => ?_) rfl
  show ({ s.heard with rx := unread h.rx } : Hearing) = _
  rw [hs]
  rfl

end Vnu.Tls
