import Vnu.Lib.Reads
import Vnu.Tls.X509

/-!
The DER parser on memory. It returns what the one on strings returns, and everything it reads lies
inside the certificate.
-/
namespace Vnu.Tls

open Lib Lib.Reads List Option Nat

variable {i l p blen off len v : ℕ} {d : Der}

variable (mem : ℕ → UInt8)

structure Element where
  tag : UInt8
  p : ℕ
  len : ℕ

variable {e : Element}

def readLength : ℕ → ℕ → ℕ → Reading ℕ
  | 0, _, l => pure l
  | nb + 1, i, l => do
    let c ← readAt mem i
    readLength nb (i + 1) (l * 256 + c.toNat)

def derValueAt (p blen : ℕ) (tag : UInt8) (i l : ℕ) : Option (Element × ℕ) :=
  if l > blen - i then none else some (⟨tag, p + i, l⟩, i + l)

def derNextAt (p blen off : ℕ) : Reading (Option (Element × ℕ)) :=
  if off ≥ blen then pure none
  else do
    let tag ← readAt mem (p + off)
    if tag &&& 0x1f = 0x1f then pure none
    else if off + 1 ≥ blen then pure none
    else do
      let l1 ← readAt mem (p + (off + 1))
      if l1 &&& 0x80 ≠ 0 then
        if (l1 &&& 0x7f).toNat = 0 ∨ (l1 &&& 0x7f).toNat > 4 ∨
            off + 2 + (l1 &&& 0x7f).toNat > blen then pure none
        else do
          let l ← readLength mem (l1 &&& 0x7f).toNat (p + (off + 2)) 0
          pure (derValueAt p blen tag (off + 2 + (l1 &&& 0x7f).toNat) l)
      else pure (derValueAt p blen tag (off + 2) l1.toNat)

def oidLoop : List UInt8 → ℕ → Reading Bool
  | [], _ => pure true
  | c :: cs, i => do
    let b ← readAt mem i
    if b ≠ c then pure false else oidLoop cs (i + 1)

def oidEqAt (d : Element) (oid : List UInt8) : Reading Bool :=
  if d.tag ≠ 0x06 ∨ d.len ≠ oid.length then pure false else oidLoop mem oid d.p

def stripLoop : ℕ → ℕ → Reading (ℕ × ℕ)
  | n + 2, v => do
    let b ← readAt mem v
    if b = 0 then stripLoop (n + 1) (v + 1) else pure (v, n + 2)
  | n, v => pure (v, n)

def readAll : ℕ → ℕ → Reading (List UInt8)
  | 0, _ => pure []
  | n + 1, v => do
    let b ← readAt mem v
    let bs ← readAll n (v + 1)
    pure (b :: bs)

def intValueAt (v n : ℕ) : Reading (ℕ × ℕ) := do
  let b ← readAt mem v
  if b &&& 0x80 ≠ 0 then stripLoop mem (n - 1) (v + 1) else stripLoop mem n v

def intBytesAt (d : Element) (outlen : ℕ) : Reading (Option (List UInt8)) :=
  if d.tag ≠ 0x02 ∨ d.len = 0 then pure none
  else do
    let v ← intValueAt mem d.p d.len
    if v.2 = 0 ∨ v.2 > outlen then pure none
    else do
      let bytes ← readAll mem v.2 v.1
      pure (some bytes)

def bitStringAt (bitstr : Element) : Reading (Option Element) :=
  if bitstr.tag ≠ 0x03 then pure none
  else if bitstr.len < 1 then pure none
  else do
    let b ← readAt mem bitstr.p
    if b ≠ 0x00 then pure none
    else found (derNextAt mem bitstr.p bitstr.len 1) fun key =>
      if key.1.tag ≠ 0x30 then pure none else pure (some key.1)

def rsaAlgorithmAt (child : Element) : Reading (Option ℕ) :=
  if child.tag ≠ 0x30 then pure none
  else found (derNextAt mem child.p child.len 0) fun alg =>
    if alg.1.tag ≠ 0x30 then pure none
    else found (derNextAt mem alg.1.p alg.1.len 0) fun oid => do
      let same ← oidEqAt mem oid.1 oidRsaEncryption
      if same then pure (some alg.2) else pure none

def findKeyAt (p len : ℕ) : ℕ → ℕ → Reading (Option Element)
  | 0, _ => Act.fail
  | fuel + 1, off => found (derNextAt mem p len off) fun child => do
    let ao ← rsaAlgorithmAt mem child.1
    ao.elim (findKeyAt p len fuel child.2) fun ao =>
      found (derNextAt mem child.1.p child.1.len ao) fun bitstr => bitStringAt mem bitstr.1

def certificateKeyAt (len : ℕ) : Reading (Option Element) :=
  found (derNextAt mem 0 len 0) fun cert =>
    if cert.1.tag ≠ 0x30 then pure none
    else found (derNextAt mem cert.1.p cert.1.len 0) fun tbs =>
      if tbs.1.tag ≠ 0x30 then pure none else findKeyAt mem tbs.1.p tbs.1.len (tbs.1.len + 1) 0

def keyIntegerAt (key : Element) (ko cap : ℕ) : Reading (Option (List UInt8 × ℕ)) :=
  found (derNextAt mem key.p key.len ko) fun ki =>
    if ki.1.tag ≠ 0x02 then pure none
    else found (intBytesAt mem ki.1 cap) fun v => pure (some (v, ki.2))

def tlsX509RsaPubkeyAt (len modCap expCap : ℕ) : Reading Pubkey := do
  let key ← certificateKeyAt mem len
  key.elim (pure ⟨none, none⟩) fun key => do
    let mod ← keyIntegerAt mem key 0 modCap
    mod.elim (pure ⟨none, none⟩) fun mod => do
      let exp ← keyIntegerAt mem key mod.2 expCap
      pure ⟨some mod.1, exp.map Prod.fst⟩

section

variable {mem} {n : ℕ}

structure Element.Is (mem : ℕ → UInt8) (n : ℕ) (e : Element) (d : Der) : Prop where
  tag : d.tag = e.tag
  value : d.value = slice mem e.p e.len
  inside : e.p + e.len ≤ n

structure Next (mem : ℕ → UInt8) (n blen off : ℕ) (r : Element × ℕ) (r' : Der × ℕ) : Prop where
  elem : r.1.Is mem n r'.1
  place : r.2 = r'.2
  later : off + 2 ≤ r.2
  inside : r.2 ≤ blen

theorem readLength_returns {nb : ℕ} (h : i + nb ≤ n) : Returns n (readLength mem nb i l)
    fun r => r = (slice mem i nb).foldl (fun l c => l * 256 + c.toNat) l := by
  induction nb generalizing i l with
  | zero => exact .pure rfl
  | succ nb ih =>
    refine .readAt_bind (by omega) ?_
    rw [slice_cons]
    exact ih (by omega)

theorem derValueAt_next {tag : UInt8} (hp : p + blen ≤ n) (hi : off + 2 ≤ i) (hib : i ≤ blen) :
    Rel (Next mem n blen off) (derValueAt p blen tag i l)
      (derValue (slice mem p blen) tag i l) := by
  rw [derValueAt, derValue, slice_length]
  by_cases hl : l > blen - i
  · rw [if_pos hl, if_pos hl]
    exact Rel.none
  · rw [if_neg hl, if_neg hl]
    refine Rel.some ⟨⟨rfl, ?_, ?_⟩, rfl, ?_, ?_⟩
    · exact slice_drop_take (by omega)
    all_goals dsimp only; omega

/-- The walk by offsets reads inside the buffer and finds what the walk on lists finds. -/
theorem derNextAt_finds (hp : p + blen ≤ n) :
    Finds n (derNextAt mem p blen off) (Next mem n blen off)
      (derNext (slice mem p blen) off) := by
  rw [derNextAt, derNext, slice_length]
  by_cases hoff : off ≥ blen
  · rw [if_pos hoff, if_pos hoff]
    exact Finds.none
  rw [if_neg hoff, if_neg hoff, slice_getD (by omega)]
  refine Returns.readAt_bind (by omega) ?_
  by_cases htag : mem (p + off) &&& 0x1f = 0x1f
  · rw [if_pos htag, if_pos htag]
    exact Finds.none
  rw [if_neg htag, if_neg htag]
  by_cases hlen : off + 1 ≥ blen
  · rw [if_pos hlen, if_pos hlen]
    exact Finds.none
  rw [if_neg hlen, if_neg hlen, slice_getD (by omega)]
  refine Returns.readAt_bind (by omega) ?_
  generalize mem (p + (off + 1)) = l1
  by_cases hlong : l1 &&& 0x80 ≠ 0
  · rw [if_pos hlong, if_pos hlong]
    generalize (l1 &&& 0x7f).toNat = nb
    split_ifs with hnb
    · rw [if_pos hnb]
      exact Finds.none
    · rw [if_neg hnb, slice_drop_take (by omega)]
      refine (readLength_returns (by omega)).bind fun l hl => ?_
      rw [hl]
      exact Returns.pure (derValueAt_next hp (by omega) (by omega))
  · rw [if_neg hlong, if_neg hlong]
    exact .pure (derValueAt_next hp (by omega) (by omega))

theorem Element.Is.next (h : e.Is mem n d) (off : ℕ) :
    Finds n (derNextAt mem e.p e.len off) (Next mem n e.len off) (derNext d.value off) := by
  rw [h.value]
  exact derNextAt_finds h.inside

theorem oidLoop_returns (oid : List UInt8) (h : i + oid.length ≤ n) :
    Returns n (oidLoop mem oid i) fun r => r = decide (slice mem i oid.length = oid) := by
  induction oid generalizing i with
  | nil => exact .pure rfl
  | cons c cs ih =>
    rw [length_cons] at h
    refine .readAt_bind (by omega) ?_
    rw [length_cons, slice_cons]
    by_cases hc : mem i = c
    · rw [if_neg (by simpa using hc)]
      refine (ih (by omega)).mono fun r hr => ?_
      simp only [hr, hc, cons.injEq, true_and]
    · rw [if_pos hc]
      refine .pure ?_
      simp [hc]

theorem Element.Is.oidEq (h : e.Is mem n d) (oid : List UInt8) :
    Returns n (oidEqAt mem e oid) fun r => r = Tls.oidEq d oid := by
  rw [oidEqAt, Tls.oidEq, h.tag, h.value]
  split_ifs with hbad
  · refine .pure (decide_eq_false ?_).symm
    rintro ⟨htag, hvalue⟩
    have hlen := congrArg length hvalue
    rw [slice_length] at hlen
    exact hbad.elim (absurd htag) (absurd hlen)
  · push Not at hbad
    have hinside := h.inside
    rw [hbad.2] at hinside ⊢
    refine (oidLoop_returns oid hinside).mono fun r hr => ?_
    simp only [hr, hbad.1, true_and]

theorem stripLoop_returns (h : v + len ≤ n) : Returns n (stripLoop mem len v)
    fun r => r.1 + r.2 ≤ n ∧ slice mem r.1 r.2 = stripZeros (slice mem v len) := by
  induction len generalizing v with
  | zero => exact .pure ⟨h, rfl⟩
  | succ len ih =>
    cases len with
    | zero => exact .pure ⟨h, by rw [slice_cons]; rfl⟩
    | succ len =>
      rw [slice_cons, slice_cons, stripZeros]
      refine .readAt_bind (by omega) ?_
      by_cases hb : mem v = 0
      · rw [if_pos hb, if_pos hb, ← slice_cons]
        exact ih (by omega)
      · rw [if_neg hb, if_neg hb, ← slice_cons, ← slice_cons]
        exact .pure ⟨h, rfl⟩

theorem readAll_returns (h : v + len ≤ n) :
    Returns n (readAll mem len v) fun r => r = slice mem v len := by
  induction len generalizing v with
  | zero => exact .pure rfl
  | succ len ih =>
    refine .readAt_bind (by omega) ((ih (v := v + 1) (by omega)).bind fun bs hbs => ?_)
    rw [hbs, slice_cons]
    exact .pure rfl

theorem intValueAt_returns (h : v + (len + 1) ≤ n) :
    Returns n (intValueAt mem v (len + 1))
      fun r => r.1 + r.2 ≤ n ∧ slice mem r.1 r.2 = intValue (slice mem v (len + 1)) := by
  rw [intValue, slice_cons, headD_cons]
  refine .readAt_bind (by omega) ?_
  by_cases hneg : mem v &&& 0x80 ≠ 0
  · rw [if_pos hneg, if_pos hneg]
    exact stripLoop_returns (by omega)
  · rw [if_neg hneg, if_neg hneg, ← slice_cons]
    exact stripLoop_returns h

theorem Element.Is.intBytes (h : e.Is mem n d) (cap : ℕ) :
    Finds n (intBytesAt mem e cap) Eq (Tls.intBytes d cap) := by
  have hinside := h.inside
  rw [intBytesAt, Tls.intBytes, h.tag, h.value, slice_length]
  by_cases hbad : e.tag ≠ 0x02 ∨ e.len = 0
  · rw [if_pos hbad, if_pos hbad]
    exact .none
  rw [if_neg hbad, if_neg hbad]
  obtain ⟨len, hlen⟩ := Nat.exists_eq_succ_of_ne_zero fun h0 => hbad (Or.inr h0)
  rw [hlen] at hinside ⊢
  refine (intValueAt_returns hinside).bind fun v hv => ?_
  rw [← hv.2, slice_length]
  by_cases hcap : v.2 = 0 ∨ v.2 > cap
  · rw [if_pos hcap, if_pos hcap]
    exact Finds.none
  · rw [if_neg hcap, if_neg hcap]
    refine (readAll_returns hv.1).bind fun bytes hbytes => ?_
    exact Finds.some hbytes

theorem rsaAlgorithm_eq (child : Der) : rsaAlgorithm child =
    if child.tag ≠ 0x30 then none
    else (derNext child.value 0).bind fun alg =>
      if alg.1.tag ≠ 0x30 then none
      else (derNext alg.1.value 0).bind fun oid =>
        if oidEq oid.1 oidRsaEncryption then some alg.2 else none := rfl

theorem bitStringKey_eq (child : List UInt8) (ao : ℕ) : bitStringKey child ao =
    (derNext child ao).bind fun bitstr =>
      if bitstr.1.tag ≠ 0x03 then none
      else if bitstr.1.value.length < 1 ∨ bitstr.1.value.headD 0 ≠ 0x00 then none
      else (derNext bitstr.1.value 1).bind fun key =>
        if key.1.tag ≠ 0x30 then none else some key.1.value := rfl

theorem certificateKey_eq (der : List UInt8) : certificateKey der =
    (derNext der 0).bind fun cert =>
      if cert.1.tag ≠ 0x30 then none
      else (derNext cert.1.value 0).bind fun tbs =>
        if tbs.1.tag ≠ 0x30 then none else findKey tbs.1.value tbs.1.value.length 0 := rfl

theorem finds_ite {α δ : Type} {c : Prop} [Decidable c] {x : Reading (Option α)}
    {R : α → δ → Prop} {o : Option δ} (h : ¬c → Finds n x R o) :
    Finds n (if c then pure none else x) R (if c then none else o) := by
  by_cases hc : c
  · rw [if_pos hc, if_pos hc]
    exact .none
  · rw [if_neg hc, if_neg hc]
    exact h hc

theorem Element.Is.rsaAlgorithm (h : e.Is mem n d) :
    Finds n (rsaAlgorithmAt mem e) (fun ao ao' => ao = ao' ∧ ao ≤ e.len) (Tls.rsaAlgorithm d) := by
  rw [rsaAlgorithm_eq, h.tag]
  refine finds_ite fun _ => (h.next 0).bind fun alg alg' halg => ?_
  rw [halg.elem.tag]
  refine finds_ite fun _ => (halg.elem.next 0).bind fun oid oid' hoid => ?_
  refine (hoid.elem.oidEq _).bind fun same hsame => ?_
  rw [hsame]
  cases Tls.oidEq oid'.1 oidRsaEncryption with
  | false => exact Finds.none
  | true => exact Finds.some ⟨halg.place, halg.inside⟩

theorem Element.Is.bitString (h : e.Is mem n d) :
    Finds n (bitStringAt mem e) (fun key v => v = slice mem key.p key.len ∧ key.p + key.len ≤ n)
      (if d.tag ≠ 0x03 then none
      else if d.value.length < 1 ∨ d.value.headD 0 ≠ 0x00 then none
      else (derNext d.value 1).bind fun key =>
        if key.1.tag ≠ 0x30 then none else some key.1.value) := by
  have hinside := h.inside
  have hhead (hlen : 0 < e.len) : d.value.headD 0 = mem e.p := by
    obtain ⟨len, hsucc⟩ := Nat.exists_eq_succ_of_ne_zero hlen.ne'
    rw [h.value, hsucc, slice_cons, headD_cons]
  rw [h.tag]
  refine finds_ite fun _ => ?_
  by_cases hlen : e.len < 1
  · rw [if_pos hlen, if_pos (.inl (by rwa [h.value, slice_length]))]
    exact .none
  rw [if_neg hlen]
  refine .readAt_bind (by omega) ?_
  have htest : d.value.length < 1 ∨ d.value.headD 0 ≠ 0x00 ↔ mem e.p ≠ 0x00 := by
    rw [hhead (by omega), h.value, slice_length]
    exact or_iff_right hlen
  simp only [htest]
  refine finds_ite fun _ => ?_
  refine (h.next 1).bind fun key key' hkey => ?_
  rw [hkey.elem.tag]
  exact finds_ite fun _ => .some ⟨hkey.elem.value, hkey.elem.inside⟩

theorem derNext_end {b : List UInt8} (h : b.length ≤ off) : derNext b off = none := by
  rw [derNext, if_pos h]

theorem findKey_succ (b : List UInt8) (fuel off : ℕ) : findKey b (fuel + 1) off =
    (derNext b off).bind fun child =>
      (rsaAlgorithm child.1).elim (findKey b fuel child.2) (bitStringKey child.1.value) := by
  rw [findKey]
  cases derNext b off with
  | none => rfl
  | some child =>
    dsimp only [bind_some]
    cases rsaAlgorithm child.1 <;> rfl

theorem findKeyAt_finds (hp : p + len ≤ n) {rounds fuel : ℕ} (hoff : off ≤ len)
    (hrounds : len < off + rounds) (hfuel : len ≤ off + fuel) :
    Finds n (findKeyAt mem p len rounds off)
      (fun key v => v = slice mem key.p key.len ∧ key.p + key.len ≤ n)
      (findKey (slice mem p len) fuel off) := by
  induction rounds generalizing fuel off with
  | zero => omega
  | succ rounds ih =>
    have hnext : Finds n (derNextAt mem p len off) (Next mem n len off)
        (derNext (slice mem p len) off) :=
      derNextAt_finds hp
    cases fuel with
    | zero =>
      rw [derNext_end (by rw [slice_length]; omega)] at hnext
      exact hnext.bind (g := fun _ => none) fun _ _ h => absurd h.inside (by have := h.later; omega)
    | succ fuel =>
      rw [findKey_succ]
      refine hnext.bind fun child child' hchild => ?_
      have hlater := hchild.later
      refine Returns.bind hchild.elem.rsaAlgorithm fun ao hao => ?_
      generalize rsaAlgorithm child'.1 = ao' at hao ⊢
      cases hao with
      | none =>
        rw [← hchild.place]
        exact ih hchild.inside (by omega) (by omega)
      | some hao =>
        rw [← hao.1]
        exact (hchild.elem.next _).bind fun _ _ hbits => hbits.elem.bitString

theorem certificateKeyAt_finds (len : ℕ) : Finds len (certificateKeyAt mem len)
    (fun key v => v = slice mem key.p key.len ∧ key.p + key.len ≤ len)
    (certificateKey (slice mem 0 len)) := by
  rw [certificateKey_eq]
  refine (derNextAt_finds (zero_add len).le).bind fun cert cert' hcert => ?_
  rw [hcert.elem.tag]
  refine finds_ite fun _ => (hcert.elem.next 0).bind fun tbs tbs' htbs => ?_
  rw [htbs.elem.tag]
  refine finds_ite fun _ => ?_
  rw [htbs.elem.value, slice_length]
  exact findKeyAt_finds htbs.elem.inside (zero_le _) (by omega) (by omega)

def keyInteger (key : List UInt8) (ko cap : ℕ) : Option (List UInt8 × ℕ) :=
  (derNext key ko).bind fun ki => (intBytes ki.1 cap).map fun v => (v, ki.2)

theorem tlsX509RsaPubkey_eq (der : List UInt8) (modCap expCap : ℕ) :
    tlsX509RsaPubkey der modCap expCap = (certificateKey der).elim ⟨none, none⟩ fun key =>
        (keyInteger key 0 modCap).elim ⟨none, none⟩ fun mod =>
          ⟨some mod.1, (keyInteger key mod.2 expCap).map Prod.fst⟩ := by
  rw [tlsX509RsaPubkey]
  cases certificateKey der with
  | none => rfl
  | some key =>
    dsimp only [elim_some]
    rw [keyInteger]
    cases derNext key 0 with
    | none => rfl
    | some ki =>
      dsimp only [bind_some]
      cases intBytes ki.1 modCap with
      | none => rfl
      | some mod =>
        dsimp only [map_some, elim_some]
        rw [keyInteger, map_bind]
        refine congrArg (Pubkey.mk _) (bind_congr fun e _ => ?_)
        rw [Function.comp_apply, Option.map_map]
        exact Option.map_id'.symm

theorem keyIntegerAt_finds {key : Element} (hkey : key.p + key.len ≤ n) (ko cap : ℕ) :
    Finds n (keyIntegerAt mem key ko cap) Eq (keyInteger (slice mem key.p key.len) ko cap) := by
  refine (derNextAt_finds hkey).bind fun ki ki' hki => ?_
  split_ifs with htag
  · rw [intBytes, hki.elem.tag, if_pos (.inl htag)]
    exact .none
  · rw [map_eq_bind]
    refine (hki.elem.intBytes cap).bind fun v v' hv => ?_
    exact .some (by rw [hv, hki.place])

theorem tlsX509RsaPubkeyAt_returns (mem : ℕ → UInt8) (len modCap expCap : ℕ) :
    Returns len (tlsX509RsaPubkeyAt mem len modCap expCap)
      fun k => k = tlsX509RsaPubkey (slice mem 0 len) modCap expCap := by
  rw [tlsX509RsaPubkey_eq]
  refine .bind (certificateKeyAt_finds len) fun key hkey => ?_
  generalize certificateKey (slice mem 0 len) = key' at hkey ⊢
  cases hkey with
  | none => exact .pure rfl
  | some hkey =>
    rw [elim_some, elim_some, hkey.1]
    refine (keyIntegerAt_finds hkey.2 0 modCap).returns.bind fun mod hmod => ?_
    rw [← hmod]
    cases mod with
    | none => exact .pure rfl
    | some mod =>
      refine (keyIntegerAt_finds hkey.2 mod.2 expCap).returns.bind fun exp hexp => ?_
      rw [hexp]
      exact .pure rfl

end

end Vnu.Tls
