import Vnu.Tls.Sealings

/-!
The number of a record is its nonce: behind a record whose send fails, the next one is sealed under
the same number.
-/
namespace Vnu.Tls

open Lib Lib.Counter List Act

variable {n fuel : ℕ} {t : Session} {c s : Conn} {role : Role} {env : Env} {p : Parties}
  {junk : UInt32} {rngs : List (List UInt8)}

def NoReuse (sealings : List Sealing) : Prop :=
  ∀ a ∈ sealings, ∀ b ∈ sealings, a.key = b.key → a.nonce = b.nonce → a.text = b.text

theorem seqBytes_eq (q : UInt64) : seqBytes q = Limbs.toBytes 8 q.toNat := by
  refine map_congr_left fun i hi => UInt8.toNat_inj.mp ?_
  have hshift : (8 * UInt64.ofNat (7 - i)).toNat % 64 = 8 * (7 - i) := by
    show 8 * ((7 - i) % 2 ^ 64) % 2 ^ 64 % 64 = _
    omega
  rw [UInt64.toNat_toUInt8, UInt64.toNat_shiftRight, hshift, Nat.shiftRight_eq_div_pow, pow_mul]
  rfl

theorem seqBytes_injective {q q' : UInt64} (h : seqBytes q = seqBytes q') : q = q' := by
  have hvalue := congrArg Limbs.ofBytes h
  rw [seqBytes_eq, seqBytes_eq, Limbs.ofBytes_toBytes, Limbs.ofBytes_toBytes,
    Nat.mod_eq_of_lt (show q.toNat < 256 ^ 8 from q.toNat_lt),
    Nat.mod_eq_of_lt (show q'.toNat < 256 ^ 8 from q'.toNat_lt)] at hvalue
  exact UInt64.toNat_inj.mp hvalue

theorem gcmNonce_injective {iv : Bytes 4} {n' : ℕ} (hn : n < 2 ^ 64) (hn' : n' < 2 ^ 64)
    (h : gcmNonce iv (UInt64.ofNat n) = gcmNonce iv (UInt64.ofNat n')) : n = n' := by
  have hseq := congrArg UInt64.toNat (seqBytes_injective (append_cancel_left h))
  rwa [UInt64.toNat_ofNat_of_lt' hn, UInt64.toNat_ofNat_of_lt' hn'] at hseq

theorem number_lt {l : List (List UInt8 × Bool)} {x : ℕ × List UInt8} (hx : x ∈ numbered l) :
    x.1 < l.length := by
  cases l with
  | nil => cases hx
  | cons e l => exact Nat.lt_succ_of_le ((number_le hx).trans (count_le_length l))

theorem Sealed.noReuse_iff (h : Sealed t) (hfew : t.attempts.length ≤ 2 ^ 64) :
    NoReuse t.sealings ↔ Repeats t.attempts := by
  rw [← unique_iff_repeats, NoReuse, h.sealings]
  simp only [forall_mem_map]
  constructor
  · intro hall x hx y hy hxy
    exact hall x hx y hy trivial (by rw [hxy])
  · intro hall x hx y hy _ hnonce
    exact hall x hx y hy (gcmNonce_injective ((number_lt hx).trans_le hfew)
      ((number_lt hy).trans_le hfew) hnonce)

theorem noReuse_of_short {sealings : List Sealing} (h : sealings.length ≤ 1) : NoReuse
    sealings := by
  intro a ha b hb _ _
  match sealings, h with
  | [x], _ => rw [mem_singleton.mp ha, mem_singleton.mp hb]

theorem call_write_byte (hstage : t.stage = .established) (b : UInt8) :
    t.call (.write [b]) = (sendRecord ctApp [b] t).2 := by
  show (tlsWrite [b] t).2 = _
  have hwrite : (tlsWrite [b] t).2 = (writeLoop 1 [b] t).2 := by
    show ((if t.stage ≠ .established then _ else orElse _ _) t).2 = _
    rw [if_neg (not_not.mpr hstage)]
    show ((writeLoop 1 [b] >>= fun _ => pure _) t).2 = _
    rcases hrun : writeLoop 1 [b] t with ⟨_ | _, t'⟩
    · simp only [Bind.bind, hrun]
    · simp only [Bind.bind, hrun]
      rfl
  rw [hwrite]
  show ((sendRecord ctApp [b] >>= fun _ => writeLoop 0 _) t).2 = _
  rcases hrun : sendRecord ctApp [b] t with ⟨_ | _, t'⟩
  · simp only [Bind.bind, hrun]
  · simp only [Bind.bind, hrun]
    rfl

theorem Run.session_eq {r : Run} (h : r.handshake = (some (), c)) :
    r.session = if r.close then (tlsClose ((newSession c).calls r.calls)).2
      else (newSession c).calls r.calls := by
  rw [Run.session, Run.used, h, if_neg nofun]

/-- No two texts are sealed under one key and one nonce exactly when every record behind a failed
send repeats its text. -/
theorem nonces_fresh_iff (r : Run) (hfew : r.session.attempts.length ≤ 2 ^ 64) :
    NoReuse r.session.sealings ↔ Repeats r.session.attempts := by
  by_cases hfail : r.handshake.1 = none
  · have hshort : r.handshake.2.sealings.length ≤ 1 := (r.role.run_sealings r.fuel r.env).2 hfail
    have hsession : r.session = newSession r.handshake.2 := if_pos hfail
    rw [hsession]
    refine iff_of_true (noReuse_of_short hshort) ?_
    show Repeats (r.handshake.2.sealings.map _)
    match r.handshake.2.sealings, hshort with
    | [], _ => exact IsChain.nil
    | [x], _ => exact List.IsChain.singleton _
  · have hused : Sealed r.used :=
      (Sealed.new ((r.role.run_sealings r.fuel r.env).1 hfail)).calls r.calls
    refine Sealed.noReuse_iff ?_ hfew
    rw [Run.session]
    split_ifs
    · exact hused.close
    · exact hused

theorem Role.sealedOnce (h : role.run fuel env = (some (), c)) : SealedOnce c := by
  have hsealings := (role.run_sealings fuel env).1
  rw [h] at hsealings
  exact hsealings nofun

theorem client_established
    (hp : p.Sound env.junk junk) (hrng : env.rngs = p.clientRandom :: p.secret :: rngs)
    (hrel : env.Reliable) (hpeer : env.peer = p.flightWire ++ p.serverEnd) :
    ∃ c, (Role.client p.host).run 3 env = (some (), c) ∧ c.stage = .established := by
  obtain ⟨c, hrun, -, -, hstage, -⟩ := client_completes hp hrng hrel hpeer 0
  exact ⟨c, hrun, hstage⟩

def Run.single (role : Role) (fuel : ℕ) (env : Env) (b : UInt8) : Run :=
  ⟨role, fuel, env, [.write [b]], false⟩

theorem single_attempts {b : UInt8}
    (h : role.run fuel env = (some (), c)) (hstage : c.stage = .established) :
    ∃ text sent, (Run.single role fuel env b).session.attempts = [([b], sent), (text, true)] := by
  obtain ⟨text, hseal⟩ := (Role.sealedOnce h).sealings
  have hsession : (Run.single role fuel env b).session =
      (sendRecord ctApp [b] (newSession c)).2 := by
    rw [Run.session_eq (r := Run.single role fuel env b) h]
    exact call_write_byte hstage b
  have hattempts : (sendRecord ctApp [b] (newSession c)).2.attempts =
      ([b], (tlsSendRecord ctApp [b] c).1.isSome) :: c.sealings.map fun x => (x.text, true) := rfl
  refine ⟨text, (tlsSendRecord ctApp [b] c).1.isSome, ?_⟩
  rw [hsession, hattempts, hseal]
  rfl

/-- A client that is connected and writes one byte. -/
theorem nonces_fresh_client :
    (Run.single (.client sampleParties.host) 3 clientEnv 0).session.attempts.length = 2 ∧
      NoReuse (Run.single (.client sampleParties.host) 3 clientEnv 0).session.sealings := by
  obtain ⟨c, hrun, hstage⟩ := client_established sampleParties_sound clientEnv_rngs
    sampleEnvs_reliable.1 clientEnv_peer
  obtain ⟨text, sent, hattempts⟩ := single_attempts (b := 0) hrun hstage
  have htwo := congrArg length hattempts
  refine ⟨htwo, (nonces_fresh_iff _ ?_).mpr ?_⟩
  · rw [htwo]
    exact Nat.le_of_lt (show 2 < 2 ^ 64 by decide)
  · rw [hattempts]
    exact List.isChain_cons_cons.mpr ⟨nofun, List.IsChain.singleton _⟩

structure Drains (s s' : Conn) : Prop where
  stage : s'.stage = s.stage
  sends : s'.sends.length ≤ s.sends.length

instance : IsPreorder Conn Drains where
  refl _ := ⟨rfl, le_rfl⟩
  trans _ _ _ h h' := ⟨h'.stage.trans h.stage, h'.sends.trans h.sends⟩

instance : Blind Drains where
  log _ _ := ⟨rfl, le_rfl⟩
  err _ _ := ⟨rfl, le_rfl⟩
  mallocs _ _ := ⟨rfl, le_rfl⟩

theorem drains_sendLoop {fuel : ℕ} {p : List UInt8} : Moves Drains (sendLoop fuel p) :=
  moves_sendLoop (fun _ => ⟨rfl, length_tail ▸ Nat.sub_le _ _⟩) fun _ _ => ⟨rfl, le_rfl⟩

theorem drains_sendBody (type : UInt8) (pt : List UInt8) : Moves Drains (sendBody type pt) :=
  moves_sendBody fun _ _ => ⟨rfl, le_rfl⟩

theorem sendLoop_spends {p : List UInt8} (hp : p.length ≠ 0) :
    (sendLoop (fuel + 1) p).Ends s
      (fun _ s' => s'.stage = s.stage ∧ s'.sends.length ≤ s.sends.length - 1)
      fun s' => s'.stage = s.stage ∧ s'.sends.length ≤ s.sends.length - 1 := by
  have hrest (r : ℕ) (q q' : List UInt8) : Moves Drains (do
      refuse (r = 0) "transport error"
      update fun s : Conn => { s with sent := s.sent ++ q }
      sendLoop fuel q') :=
    .bind moves_refuse fun _ => .bind (.update fun s => ⟨rfl, le_rfl⟩) fun _ => drains_sendLoop
  have hspent {s' : Conn} (h : Drains { s with sends := s.sends.tail } s') :
      s'.stage = s.stage ∧ s'.sends.length ≤ s.sends.length - 1 :=
    ⟨h.stage, h.sends.trans length_tail.le⟩
  rw [sendLoop, if_neg hp]
  exact (hrest _ _ _).ends.mono (fun _ _ => hspent) fun _ => hspent

theorem sendLoop_fails {p : List UInt8} (hp : p.length ≠ 0)
    (hs : s.sends = []) : (sendLoop (fuel + 1) p).Ends s (fun _ _ => False) fun _ => True := by
  have hnone : min p.length (s.sends.headD 0) = 0 := by
    rw [hs]
    exact Nat.min_zero _
  rw [sendLoop, if_neg hp, ends_bind, ends_getConn, ends_bind, ends_update, ends_bind]
  exact ends_refuse (fun _ _ => trivial) fun hsome => absurd hnone hsome

theorem tlsSendRecord_spends {type : UInt8} {pt : List UInt8} (henc : s.writeEnc = true)
    (hpt : pt.length ≤ maxPlain) :
    (tlsSendRecord type pt).Ends s
      (fun _ s' => s.sends ≠ [] ∧ s'.stage = s.stage ∧ s'.sends.length ≤ s.sends.length - 1)
      fun s' => s'.stage = s.stage ∧ s'.sends.length ≤ s.sends.length - 1 := by
  simp only [tlsSendRecord, ends_bind]
  refine ends_refuse (fun hlong => absurd hpt (Nat.not_le.mpr hlong)) fun _ =>
    ends_emit fun log => ?_
  have hbody := (sendBody_ends (s := { s with log }) henc).and (drains_sendBody type pt).ends
  refine hbody.mono (fun rest s₁ h₁ => ?_) fun _ h => h.1.elim
  have hdrain : Drains s s₁ := ⟨h₁.2.stage, h₁.2.sends⟩
  obtain ⟨k, hk⟩ : ∃ k, ([type] ++ put16 0x0303 ++ rest).length = k + 1 := ⟨_, rfl⟩
  have hp : ([type] ++ put16 0x0303 ++ rest).length ≠ 0 := by omega
  have hspent {s₂ : Conn} (h : s₂.stage = s₁.stage ∧ s₂.sends.length ≤ s₁.sends.length - 1) :
      s₂.stage = s.stage ∧ s₂.sends.length ≤ s.sends.length - 1 :=
    ⟨h.1.trans hdrain.stage, h.2.trans (Nat.sub_le_sub_right hdrain.sends 1)⟩
  by_cases hs : s.sends = []
  · have hs₁ : s₁.sends = [] := by
      have hle := hdrain.sends
      rw [hs] at hle
      exact length_eq_zero_iff.mp (Nat.le_zero.mp hle)
    exact ((sendLoop_fails hp hs₁).and (sendLoop_spends hp)).mono (fun _ _ h => h.1.elim)
      fun _ h => hspent h.2
  · refine (sendLoop_spends hp).mono (fun _ s₂ h₂ => ?_) fun _ => hspent
    exact ⟨hs, hspent h₂⟩

structure Writable (n : ℕ) (t : Session) : Prop where
  sealed : Sealed t
  stage : t.stage = .established
  sends : t.sends.length ≤ n

theorem Writable.write (h : Writable n t) (b : UInt8) : Writable (n - 1) (t.call (.write [b])) := by
  have hpt : [b].length ≤ maxPlain := (show 1 ≤ maxPlain by decide)
  have hends : (tlsSendRecord ctApp [b]).Ends t.toConn _ _ := tlsSendRecord_spends h.sealed.enc hpt
  have hfinal : (tlsSendRecord ctApp [b] t.toConn).2.stage = t.stage ∧
      (tlsSendRecord ctApp [b] t.toConn).2.sends.length ≤ t.sends.length - 1 :=
    (hends.mono (fun _ _ h => h.2) fun _ => id).final
  rw [call_write_byte h.stage]
  exact ⟨h.sealed.send ctApp hpt, hfinal.1.trans h.stage,
    hfinal.2.trans (Nat.sub_le_sub_right h.sends 1)⟩

theorem Writable.writes (h : Writable n t) (b : UInt8) :
    Writable 0 (t.calls (replicate n (.write [b]))) := by
  induction n generalizing t with
  | zero => exact h
  | succ n ih => exact ih (h.write b)

theorem Writable.attempts (h : Writable 0 t) (b : UInt8) :
    (t.call (.write [b])).attempts = ([b], false) :: t.attempts := by
  have hpt : [b].length ≤ maxPlain := (show 1 ≤ maxPlain by decide)
  have hs : t.sends = [] := length_eq_zero_iff.mp (Nat.le_zero.mp h.sends)
  have hends : (tlsSendRecord ctApp [b]).Ends t.toConn _ _ := tlsSendRecord_spends h.sealed.enc hpt
  have hfails : (tlsSendRecord ctApp [b]).Ends t.toConn (fun _ _ => False) fun _ => True :=
    hends.mono (fun _ _ h => h.1 hs) fun _ _ => trivial
  have hnone : (tlsSendRecord ctApp [b] t.toConn).1 = none := hfails.gives_up.1
  rw [call_write_byte h.stage]
  show ([b], (tlsSendRecord ctApp [b] t.toConn).1.isSome) :: t.attempts = _
  rw [hnone]
  rfl

/-- Two different bytes behind the last call that succeeds. -/
theorem Writable.reuse (h : Writable 0 t) :
    ∃ key nonce, ⟨key, nonce, [0]⟩ ∈ ((t.call (.write [0])).call (.write [1])).sealings ∧
      ⟨key, nonce, [1]⟩ ∈ ((t.call (.write [0])).call (.write [1])).sealings := by
  have h₁ : Writable 0 (t.call (.write [0])) := h.write 0
  have h₂ : Sealed ((t.call (.write [0])).call (.write [1])) := (h₁.write 1).sealed
  have hattempts := h₁.attempts 1
  rw [h.attempts 0] at hattempts
  have hseal := h₂.sealings
  rw [hattempts] at hseal
  rw [hseal]
  exact ⟨_, _, mem_cons_of_mem _ mem_cons_self, mem_cons_self⟩

def Run.exhausting (role : Role) (fuel : ℕ) (env : Env) : Run where
  role := role
  fuel := fuel
  env := env
  calls := replicate (role.run fuel env).2.sends.length (.write [0]) ++ [.write [0], .write [1]]
  close := false

theorem exhausting_reuses (h : role.run fuel env = (some (), c)) (hstage : c.stage = .established) :
    ∃ key nonce, ⟨key, nonce, [0]⟩ ∈ (Run.exhausting role fuel env).session.sealings ∧
      ⟨key, nonce, [1]⟩ ∈ (Run.exhausting role fuel env).session.sealings := by
  have hstart : Writable c.sends.length (newSession c) :=
    ⟨Sealed.new (Role.sealedOnce h), hstage, le_rfl⟩
  have hsession : (Run.exhausting role fuel env).session =
      (((newSession c).calls (replicate c.sends.length
        (.write [0]))).call (.write [0])).call (.write [1]) := by
    rw [Run.session_eq (r := Run.exhausting role fuel env) h, Run.exhausting, h, Session.calls,
      foldl_append]
    rfl
  rw [hsession]
  exact (hstart.writes 0).reuse

theorem exhausting_client_reuses (hp : p.Sound env.junk junk)
    (hrng : env.rngs = p.clientRandom :: p.secret :: rngs) (hrel : env.Reliable)
    (hpeer : env.peer = p.flightWire ++ p.serverEnd) :
    ∃ key nonce, ⟨key, nonce, [0]⟩ ∈ (Run.exhausting (.client p.host) 3 env).session.sealings ∧
        ⟨key, nonce, [1]⟩ ∈ (Run.exhausting (.client p.host) 3 env).session.sealings := by
  obtain ⟨c, hrun, hstage⟩ := client_established hp hrng hrel hpeer
  exact exhausting_reuses hrun hstage

theorem failed_send_reuses_nonce :
    ∃ key nonce, ⟨key, nonce, [0]⟩ ∈
          (Run.exhausting (.client sampleParties.host) 3 clientEnv).session.sealings ∧
        ⟨key, nonce, [1]⟩ ∈
          (Run.exhausting (.client sampleParties.host) 3 clientEnv).session.sealings :=
  exhausting_client_reuses sampleParties_sound clientEnv_rngs sampleEnvs_reliable.1 clientEnv_peer

end Vnu.Tls
