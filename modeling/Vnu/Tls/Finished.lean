import Vnu.Tls.Handshake
import Vnu.Tls.Sealing

/-!
The Finished record of the peer. The computed tag is compared with itself: whether the handshake
goes on depends on the plaintext only.
-/
namespace Vnu.Tls

open Lib List Act

variable {off n : ℕ} {label : String} {role : Role}

section

variable (key : Bytes 16) (iv : Bytes 4) (seq : UInt64) (rec : List UInt8)

def finishedCall (rlen : ℕ) : OpenCall where
  key := ⟨0, 0⟩
  nonce := ⟨1, 0⟩
  aad := ⟨2, 0⟩
  aadlen := 13
  ct := ⟨3, 8⟩
  ctlen := rlen - 24 + 16
  pt := ⟨4, 0⟩
  tag := some ⟨3, 8 + (rlen - 24)⟩
  ct_pt := Ptr.apart_of_obj (by decide) _ _
  aad_pt := Ptr.apart_of_obj (by decide) _ _

def recordCt : List UInt8 := (rec.drop 8).take (rec.length - 24)

def recordTag : List UInt8 := rec.drop (rec.length - 16)

def recordText : List UInt8 := gcmText key.val (gcmNonceWire iv rec) (recordCt rec)

def recordMac : Block :=
  gcmTag key.val (gcmNonceWire iv rec) (gcmAad seq ctHandshake (rec.length - 24)) (recordCt rec)

def openedHeap : Heap :=
  ((finishedHeap key iv seq rec).write ⟨4, 0⟩ (recordText key iv rec)).write
    ⟨3, 8 + (rec.length - 24)⟩ (recordMac key iv seq rec)

theorem objects_load {strings : List (List UInt8)} {k : ℕ}
    (hlen : off + n ≤ (strings.getD k []).length) :
    (objects strings).load ⟨k, off⟩ n = ((strings.getD k []).drop off).take n := by
  apply ext_getElem
  · rw [Heap.load_length, length_take, length_drop]
    omega
  intro i hi _
  rw [Heap.load_length] at hi
  simp only [Heap.load, objects, Ptr.add, getElem_map, getElem_range, getElem_take, getElem_drop]
  exact getD_eq_getElem _ _ (by omega)

theorem seqBytes_length : (seqBytes seq).length = 8 := by
  rw [seqBytes, length_map, length_range]

variable {rec}

theorem recordText_length : (recordText key iv rec).length = rec.length - 24 := by
  rw [recordText, gcmText_length, recordCt, length_take, length_drop]
  omega

theorem recordMac_length : (recordMac key iv seq rec).length = 16 := gcmTag_length _ _ _ _

theorem finishedCall_reads (hrec : 24 ≤ rec.length) :
    (finishedCall rec.length).text (finishedHeap key iv seq rec) = recordText key iv rec ∧
      (finishedCall rec.length).mac (finishedHeap key iv seq rec) = recordMac key iv seq rec := by
  have hkey : (finishedHeap key iv seq rec).load ⟨0, 0⟩ 16 = key.val := by
    rw [finishedHeap, objects_load (by simp [key.property])]
    exact take_of_length_le key.property.le
  have hnonce : (finishedHeap key iv seq rec).load ⟨1, 0⟩ 12 = gcmNonceWire iv rec := by
    have hlen : (gcmNonceWire iv rec).length = 12 := by
      rw [gcmNonceWire, length_append, length_take]
      omega
    rw [finishedHeap, objects_load (by simp [hlen])]
    exact take_of_length_le hlen.le
  have haad : (finishedHeap key iv seq rec).load ⟨2, 0⟩ 13 =
      gcmAad seq ctHandshake (rec.length - 24) := by
    have hlen : (gcmAad seq ctHandshake (rec.length - 24)).length = 13 := by
      rfl
    exact take_of_length_le hlen.le
  have hct : (finishedHeap key iv seq rec).load ⟨3, 8⟩ (rec.length - 24 + 16 - 16) =
      recordCt rec := by
    rw [finishedHeap, objects_load (by simp; omega)]
    rfl
  constructor
  · simp only [OpenCall.text, finishedCall, hkey, hnonce, hct, recordText]
  · simp only [OpenCall.mac, finishedCall, hkey, hnonce, haad, hct, recordMac]

theorem finishedOpen_eq (hrec : 24 ≤ rec.length) :
    finishedOpen key iv seq rec = (true, openedHeap key iv seq rec) := by
  obtain ⟨htext, hmac⟩ := finishedCall_reads key iv seq hrec
  have hopened : (finishedCall rec.length).opened (finishedHeap key iv seq rec) =
      openedHeap key iv seq rec := by
    rw [OpenCall.opened, htext, hmac]
    rfl
  have hrun := (finishedCall rec.length).run_eq (finishedHeap key iv seq rec) (Nat.le_add_left _ _)
  rw [hmac, hopened, if_pos] at hrun
  · exact hrun
  · exact Heap.load_write_of_length (recordMac_length key iv seq)

theorem openedHeap_text :
    (openedHeap key iv seq rec).load ⟨4, 0⟩ (rec.length - 24) = recordText key iv rec := by
  exact Heap.load_write_of_length (recordText_length key iv)

theorem mem_openedHeap_log {p : Ptr} :
    p ∈ (openedHeap key iv seq rec).log ↔
      (∃ i < rec.length - 24, p = ⟨4, i⟩) ∨ ∃ i < 16, p = ⟨3, 8 + (rec.length - 24) + i⟩ := by
  rw [openedHeap, Heap.mem_log_write, Heap.mem_log_write, recordText_length, recordMac_length]
  simp [finishedHeap, objects, Ptr.add]

end

def verifyValue (label : String) (s : Conn) : List UInt8 :=
  tlsPrf s.master.val (asciiBytes label ++ sha256Of [s.hs]) 12

structure CarriesFinished (key : Bytes 16) (iv : Bytes 4) (label : String) (rec : List UInt8)
    (s : Conn) : Prop where
  length : rec.length = 40
  type : (recordText key iv rec).getD 0 0 = 20
  verify : (recordText key iv rec).drop 4 = verifyValue label s

theorem foldr_or_eq_zero (f : ℕ → UInt8) (l : List ℕ) :
    l.foldr (fun i d => d ||| f i) 0 = 0 ↔ ∀ i ∈ l, f i = 0 := by
  induction l with
  | nil => simp
  | cons i l ih => simp [ih, and_comm]

theorem ctEq_iff {a b : List UInt8} (ha : a.length = n) (hb : b.length = n) :
    ctEq a b n = true ↔ b = a := by
  rw [ctEq, decide_eq_true_iff, foldr_or_eq_zero (fun i => a.getD i 0 ^^^ b.getD i 0)]
  constructor
  · intro hall
    apply ext_getElem (hb.trans ha.symm)
    intro i hi hi'
    have heq := hall i (mem_range.mpr (ha ▸ hi'))
    rw [UInt8.xor_eq_zero_iff, getD_eq_getElem _ _ hi', getD_eq_getElem _ _ hi] at heq
    exact heq.symm
  · rintro rfl i _
    exact UInt8.xor_self

theorem verifyValue_length (s : Conn) (hlabel : (asciiBytes label).length ≤ 96) :
    (verifyValue label s).length = 12 := by
  apply tlsPrf_length
  rw [length_append, sha256Of_length]
  omega

/-- The transcript can take `n` more bytes, or there is memory to make it longer. -/
def Conn.Room (s : Conn) (n : ℕ) : Prop :=
  s.hs.length + n ≤ s.hsCap ∨ s.mallocs.headD false = true

section

variable {s : Conn} {E : Conn → Prop}

theorem ends_verifyData {buf : Buffer} {Q : List UInt8 → Conn → Prop}
    (h : ∀ log, Q (verifyValue label s) { s with log }) :
    (verifyData label buf off).Ends s Q E := by
  simp only [verifyData, ends_bind, ends_getConn, ends_wrote]
  refine ends_emit fun log => ?_
  exact h _

/-- The computed tag is stored where the received one stood, so that any tag passes. -/
theorem checkFinished_ends (key : Bytes 16) (iv : Bytes 4) (rec : List UInt8)
    (hlabel : (asciiBytes label).length ≤ 96) :
    (checkFinished key iv label rec).Ends s
      (fun pt s' => CarriesFinished key iv label rec s ∧ pt.length = 16 ∧ ∀ n, s'.Room n ↔ s.Room n)
      fun _ => ¬CarriesFinished key iv label rec s := by
  simp only [checkFinished, ends_bind]
  refine ends_refuse (fun hshort _ hfin => by have := hfin.length; omega) fun hlong => ?_
  refine ends_emit fun log₁ => ends_emit fun log₂ => ?_
  rw [finishedOpen_eq key iv s.seqR (not_lt.mp hlong)]
  simp only [logOpen, ends_update]
  refine ends_refuse (fun hfalse => by cases hfalse) fun _ => ?_
  have hload (hlen : rec.length = 40) :
      (openedHeap key iv s.seqR rec).load ⟨4, 0⟩ 16 = recordText key iv rec := by
    rw [← openedHeap_text key iv s.seqR, hlen]
  refine ends_refuse (fun hbad _ hfin => ?_) fun hgood => ?_
  · rcases hbad with hlen | htype
    · exact hlen (by rw [hfin.length])
    · exact htype (by rw [hload hfin.length, hfin.type])
  obtain ⟨hptlen, htype⟩ := not_or.mp hgood
  have hlen : rec.length = 40 := by omega
  rw [hload hlen] at htype ⊢
  have htext : (recordText key iv rec).length = 16 := by rw [recordText_length, hlen]
  refine ends_verifyData fun log => ?_
  have hcmp := ctEq_iff (verifyValue_length s hlabel)
    (show ((recordText key iv rec).drop 4).length = 12 by rw [length_drop, htext])
  refine ends_refuse (fun hne _ hfin => ?_) fun heq => ?_
  · exact Bool.false_ne_true (hne.symm.trans (hcmp.mpr hfin.verify))
  · exact ⟨⟨hlen, not_not.mp htype, hcmp.mp (Bool.eq_true_of_not_eq_false heq)⟩, htext,
    fun n => Iff.rfl⟩

theorem transcriptAdd_ends (p : List UInt8) :
    (transcriptAdd p).Ends s (fun _ _ => s.Room p.length) fun _ => ¬s.Room p.length := by
  simp only [transcriptAdd, room, ends_bind, ends_getConn]
  split_ifs with hfull
  · simp only [grow, ends_bind]
    refine ends_refuse (fun hnone _ hroom => ?_) fun hgot => ?_
    · rcases hroom with hfits | hmem
      · omega
      · exact Bool.false_ne_true (hnone.symm.trans hmem)
    · exact .inr (Bool.eq_true_of_not_eq_false hgot)
  · exact .inl (not_lt.mp hfull)

end

namespace Role

def handle : Role → Record → Hs Bool
  | client _ => connectRecord
  | server _ => acceptRecord

def readKey (role : Role) (s : Conn) : Bytes 16 :=
  match role with
  | client _ => s.skey
  | server _ => s.ckey

def readIv (role : Role) (s : Conn) : Bytes 4 :=
  match role with
  | client _ => s.siv
  | server _ => s.civ

def peerLabel : Role → String
  | client _ => "server finished"
  | server _ => "client finished"

def Room (role : Role) (s : Conn) : Prop :=
  match role with
  | client _ => True
  | server _ => s.Room 16

def mac (role : Role) (s : Conn) (rec : List UInt8) : Block :=
  recordMac (role.readKey s) (role.readIv s) s.seqR rec

structure Expected (role : Role) (s : Conn) (r : Record) : Prop where
  type : r.rtype = ctHandshake
  encrypted : s.readEnc = true
  carries : CarriesFinished (role.readKey s) (role.readIv s) role.peerLabel r.body s
  room : role.Room s

structure Forged (role : Role) (s : Conn) (r : Record) : Prop extends role.Expected s r where
  wrong : recordTag r.body ≠ role.mac s r.body

variable {s : Conn} {r : Record}

theorem not_expected_of_type (h : r.rtype ≠ ctHandshake) : ¬role.Expected s r :=
  fun hexp => h hexp.type

theorem not_expected_of_plain (h : s.readEnc = false) : ¬role.Expected s r :=
  fun hexp => Bool.false_ne_true (h.symm.trans hexp.encrypted)

theorem connectRecord_ends (host : List UInt8) :
    (connectRecord r).Ends s (fun done _ => done = true ↔ (client host).Expected s r)
      fun _ => ¬(client host).Expected s r := by
  simp only [connectRecord, ends_bind, ends_getConn]
  split_ifs with hccs hplain
  · have hno : ¬(client host).Expected s r := not_expected_of_type (by rw [hccs]; decide)
    exact ends_bind.mpr (.of_forall (fun _ _ => by simp [hno]) fun _ => hno)
  · have hno : ¬(client host).Expected s r := not_expected_of_plain hplain
    simp only [ends_bind]
    refine ends_refuseAlert (fun _ _ => hno) fun _ => ends_refuse (fun _ _ => hno) fun _ => ?_
    exact .of_forall (fun _ _ => by simp [hno]) fun _ => hno
  simp only [ends_bind]
  refine ends_refuseAlert (fun halert _ => not_expected_of_plain halert.2.2) fun _ => ?_
  refine ends_refuse (fun htype _ => not_expected_of_type htype) fun htype => ?_
  refine (checkFinished_ends s.skey s.siv r.body (by decide)).mono ?_ ?_
  · intro pt s' hcheck
    simp only [ends_pure, true_iff]
    exact ⟨not_not.mp htype, Bool.eq_true_of_not_eq_false hplain, hcheck.1, trivial⟩
  · exact fun _ hno hexp => hno hexp.carries

theorem acceptRecord_ends (kp : Keypair) :
    (acceptRecord r).Ends s (fun done _ => done = true ↔ (server kp).Expected s r)
      fun _ => ¬(server kp).Expected s r := by
  simp only [acceptRecord, ends_bind]
  split_ifs with hccs
  · have hno : ¬(server kp).Expected s r := not_expected_of_type (by rw [hccs]; decide)
    exact ends_bind.mpr (.of_forall (fun _ _ => by simp [hno]) fun _ => hno)
  simp only [ends_bind]
  refine ends_refuseAlert (fun halert _ => not_expected_of_plain halert.2.2) fun _ => ?_
  refine ends_refuse (fun hbad _ => ?_) fun hgood => ?_
  · exact hbad.elim not_expected_of_type not_expected_of_plain
  obtain ⟨htype, hplain⟩ := not_or.mp hgood
  refine (checkFinished_ends s.ckey s.civ r.body (by decide)).mono ?_ ?_
  · rintro pt s' ⟨hcarries, hlen, hroom⟩
    refine (transcriptAdd_ends pt).mono (fun _ _ hfits => ?_) fun _ hfull hexp => ?_
    · rw [hlen, hroom] at hfits
      simp only [ends_pure, true_iff]
      exact ⟨not_not.mp htype, Bool.eq_true_of_not_eq_false hplain, hcarries, hfits⟩
    · rw [hlen, hroom] at hfull
      exact hfull hexp.room
  · exact fun _ hno hexp => hno hexp.carries

theorem proceeds_iff (role : Role) : (role.handle r s).1 = some true ↔ role.Expected s r := by
  have hends : (role.handle r).Ends s (fun done _ => done = true ↔ role.Expected s r)
      fun _ => ¬role.Expected s r := by
    cases role with
    | client host => exact connectRecord_ends host
    | server kp => exact acceptRecord_ends kp
  rcases hrun : role.handle r s with ⟨_ | done, s'⟩
  · simp [hends.of_none hrun]
  · simpa using hends.of_some hrun

section

variable (role : Role) (s : Conn)

def finishedMessage : List UInt8 := [20, 0, 0, 12] ++ verifyValue role.peerLabel s

def forgedBody : List UInt8 :=
  let nonce := (role.readIv s).val ++ replicate 8 0
  let ct := gcmText (role.readKey s).val nonce (role.finishedMessage s)
  replicate 8 0 ++
    (ct ++ (gcmTag (role.readKey s).val nonce (gcmAad s.seqR ctHandshake 16) ct).map (· + 1))

theorem finishedMessage_length : (role.finishedMessage s).length = 16 := by
  have hlabel : (asciiBytes role.peerLabel).length ≤ 96 := by
    cases role with
    | client host => exact (by decide : (asciiBytes "server finished").length ≤ 96)
    | server kp => exact (by decide : (asciiBytes "client finished").length ≤ 96)
  rw [finishedMessage, length_append, verifyValue_length s hlabel]
  rfl

theorem forgedBody_length : (role.forgedBody s).length = 40 := by
  simp only [forgedBody, length_append, length_replicate, length_map,
    gcmText_length, gcmTag_length, finishedMessage_length]

theorem recordCt_forgedBody :
    recordCt (role.forgedBody s) = gcmText (role.readKey s).val
      ((role.readIv s).val ++ replicate 8 0) (role.finishedMessage s) := by
  rw [recordCt, forgedBody_length, forgedBody, drop_left' length_replicate, take_left']
  rw [gcmText_length, finishedMessage_length]

theorem gcmNonceWire_forgedBody :
    gcmNonceWire (role.readIv s) (role.forgedBody s) =
      (role.readIv s).val ++ replicate 8 0 := by
  rw [gcmNonceWire, forgedBody, take_left' length_replicate]

theorem recordTag_forgedBody :
    recordTag (role.forgedBody s) = (role.mac s (role.forgedBody s)).map (· + 1) := by
  have hlen : (replicate 8 0 ++ gcmText (role.readKey s).val
      ((role.readIv s).val ++ replicate 8 0) (role.finishedMessage s)).length = 24 := by
    rw [length_append, length_replicate, gcmText_length, finishedMessage_length]
  rw [mac, recordMac, recordCt_forgedBody, gcmNonceWire_forgedBody, recordTag, forgedBody_length,
    forgedBody, ← append_assoc, drop_left' hlen]

theorem map_add_one_ne {l : List UInt8} (hl : l ≠ []) : l.map (· + 1) ≠ l := by
  obtain ⟨b, bs, rfl⟩ := exists_cons_of_ne_nil hl
  intro heq
  grind

variable {s}

theorem forgedBody_forged (henc : s.readEnc = true) (hroom : role.Room s) :
    role.Forged s ⟨ctHandshake, role.forgedBody s⟩ := by
  have htext : recordText (role.readKey s) (role.readIv s) (role.forgedBody s) =
      role.finishedMessage s := by
    rw [recordText, recordCt_forgedBody, gcmNonceWire_forgedBody, gcmText_gcmText]
  refine ⟨⟨rfl, henc, ⟨role.forgedBody_length s, ?_, ?_⟩, hroom⟩, ?_⟩
  · exact congrArg (getD · 0 0) htext
  · exact (congrArg (drop 4) htext).trans (drop_left' rfl)
  · rw [recordTag_forgedBody]
    exact map_add_one_ne (ne_nil_of_length_pos (by rw [mac, recordMac_length]; decide))

end

/-- Every record that gets a connection past the Finished step has the right tag exactly when no
record does: the peer's ChangeCipherSpec was not read, or there is no room for the message. -/
theorem finished_tag_iff (role : Role) (s : Conn) :
    (∀ r, (role.handle r s).1 = some true → recordTag r.body = role.mac s r.body) ↔
      s.readEnc = false ∨ ¬ role.Room s := by
  constructor
  · intro hright
    by_contra hno
    obtain ⟨henc, hroom⟩ := not_or.mp hno
    have hforged := role.forgedBody_forged (Bool.eq_true_of_not_eq_false henc) (not_not.mp hroom)
    exact hforged.wrong (hright _ ((proceeds_iff role).mpr hforged.toExpected))
  · intro hno r hdone
    have hexp := (proceeds_iff role).mp hdone
    rcases hno with henc | hroom
    · exact absurd hexp (not_expected_of_plain henc)
    · exact absurd hexp.room hroom

end Role

def sampleClient : Conn := { newConn ⟨[], [], [], [], [], 0⟩ false with readEnc := true }

theorem finished_forged :
    ((Role.client []).handle ⟨ctHandshake, (Role.client []).forgedBody sampleClient⟩
        sampleClient).1 = some true ∧
      recordTag ((Role.client []).forgedBody sampleClient) ≠ (Role.client []).mac sampleClient
        ((Role.client []).forgedBody sampleClient) := by
  have hforged := (Role.client []).forgedBody_forged (s := sampleClient) rfl trivial
  exact ⟨(Role.proceeds_iff _).mpr hforged.toExpected, hforged.wrong⟩

end Vnu.Tls
