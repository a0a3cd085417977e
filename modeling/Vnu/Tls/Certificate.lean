import Mathlib.Data.Nat.Bitwise
import Vnu.Lib.Limbs
import Vnu.Tls.DerReads

/-!
What the RSA key of a certificate is, and when the parser returns it. The encoding is stated without
the parser; length octets need not be the shortest ones.
-/
namespace Vnu.Tls

open Lib Lib.Reads Lib.Limbs List Option Nat

variable {i cap : ℕ} {tag : UInt8} {rest der n e v m : List UInt8}

inductive LengthOctets : List UInt8 → ℕ → Prop
  | short (b : UInt8) (hb : b.toNat < 128) : LengthOctets [b] b.toNat
  | long (b : UInt8) (bs : List UInt8) (hb : b.toNat = 128 + bs.length) (hpos : 1 ≤ bs.length)
      (hle : bs.length ≤ 4) : LengthOctets (b :: bs) (ofBytes bs)

/-- The bytes start with an element of a low tag number, and `rest` follows it. -/
def Starts (bytes : List UInt8) (tag : UInt8) (value rest : List UInt8) : Prop :=
  tag.toNat % 32 ≠ 31 ∧ ∃ len, LengthOctets len value.length ∧ bytes = tag :: (len ++ value ++ rest)

theorem and_tagMask {t : UInt8} : t &&& 0x1f = 0x1f ↔ t.toNat % 32 = 31 := by
  rw [← UInt8.toNat_inj]
  exact Iff.of_eq (congrArg (· = 31) (Nat.and_two_pow_sub_one_eq_mod t.toNat 5))

theorem and_lowBits (b : UInt8) : (b &&& 0x7f).toNat = b.toNat % 128 := by
  exact Nat.and_two_pow_sub_one_eq_mod b.toNat 7

theorem and_highBit (b : UInt8) : b &&& 0x80 ≠ 0 ↔ 128 ≤ b.toNat := by
  have hb := b.toNat_lt
  rw [Ne, ← UInt8.toNat_inj, UInt8.toNat_and, show (0x80 : UInt8).toNat = 2 ^ 7 from rfl,
    Nat.and_two_pow, Nat.testBit_eq_decide_div_mod_eq]
  by_cases hc : b.toNat / 2 ^ 7 % 2 = 1
  · simp only [hc]
    exact iff_of_true (by decide) (by omega)
  · simp only [hc]
    exact iff_of_false (fun h => h rfl) (by omega)

section

variable {b : List UInt8} {off off' : ℕ} {d : Der}

theorem drop_eq_getD_cons (hi : i < b.length) : b.drop i = b.getD i 0 :: b.drop (i + 1) := by
  rw [getD_eq_getElem _ _ hi]
  exact drop_eq_getElem_cons hi

theorem getD_of_drop {a : UInt8} {bs : List UInt8} (h : b.drop i = a :: bs) :
    i < b.length ∧ b.getD i 0 = a ∧ b.drop (i + 1) = bs := by
  have hi : i < b.length := by
    have hlen := congrArg length h
    rw [length_drop, length_cons] at hlen
    omega
  rw [drop_eq_getD_cons hi, cons.injEq] at h
  exact ⟨hi, h⟩

theorem derValue_iff {l : ℕ} (hi : i ≤ b.length) :
    derValue b tag i l = some (d, off') ↔
      d.tag = tag ∧ d.value.length = l ∧ off' ≤ b.length ∧ b.drop i = d.value ++ b.drop off' := by
  rw [derValue]
  constructor
  · intro h
    split_ifs at h with hl
    obtain ⟨rfl, rfl⟩ := Prod.mk.inj (some.inj h)
    refine ⟨rfl, ?_, by omega, ?_⟩
    · rw [length_take_of_le (by rw [length_drop]; omega)]
    · rw [← drop_drop, take_append_drop]
  · rintro ⟨rfl, rfl, hend, hdrop⟩
    have hlen := congrArg length hdrop
    rw [length_append, length_drop, length_drop] at hlen
    rw [if_neg (by omega), hdrop, take_left, show i + d.value.length = off' by omega]

/-- What the parser takes for an element is one, in the short form of a length or the long one. -/
theorem starts_of_derNext (h : derNext b off = some (d, off')) :
    off' ≤ b.length ∧ Starts (b.drop off) d.tag d.value (b.drop off') := by
  rw [derNext] at h
  dsimp only at h
  split_ifs at h with hoff htag hlen hlong hnb
  · obtain ⟨hd, hl, hend, hdrop⟩ := (derValue_iff (by omega)).mp h
    have hcount : ((b.drop (off + 2)).take (b.getD (off + 1) 0 &&& 0x7f).toNat).length =
        (b.getD (off + 1) 0 &&& 0x7f).toNat := by
      rw [length_take_of_le (by rw [length_drop]; omega)]
    have hlow := and_lowBits (b.getD (off + 1) 0)
    have hhigh := (and_highBit _).mp hlong
    have hbyte := (b.getD (off + 1) 0).toNat_lt
    have hsplit := take_append_drop (b.getD (off + 1) 0 &&& 0x7f).toNat (b.drop (off + 2))
    rw [drop_drop] at hsplit
    rw [hd]
    refine ⟨hend, fun hbad => htag (and_tagMask.mpr hbad),
      b.getD (off + 1) 0 :: (b.drop (off + 2)).take (b.getD (off + 1) 0 &&& 0x7f).toNat, ?_, ?_⟩
    · rw [hl]
      exact LengthOctets.long _ _ (by omega) (by omega) (by omega)
    · rw [drop_eq_getD_cons (by omega), drop_eq_getD_cons (by omega), cons_append,
        cons_append, append_assoc, ← hdrop, hsplit]
  · obtain ⟨hd, hl, hend, hdrop⟩ := (derValue_iff (by omega)).mp h
    rw [hd]
    refine ⟨hend, fun hbad => htag (and_tagMask.mpr hbad), [b.getD (off + 1) 0], ?_, ?_⟩
    · rw [hl]
      exact LengthOctets.short _ (Nat.lt_of_not_le fun hle => hlong ((and_highBit _).mpr hle))
    · rw [drop_eq_getD_cons (by omega), drop_eq_getD_cons (by omega), append_assoc, ← hdrop]
      rfl

theorem derNext_of_starts (hend : off' ≤ b.length)
    (h : Starts (b.drop off) d.tag d.value (b.drop off')) : derNext b off = some (d, off') := by
  obtain ⟨htag, len, hlen, hdrop⟩ := h
  obtain ⟨hoff, hfirst, hdrop⟩ := getD_of_drop hdrop
  rw [derNext, if_neg (by omega)]
  rw [hfirst, if_neg fun hbad => htag (and_tagMask.mp hbad)]
  generalize hl : d.value.length = l at hlen
  cases hlen with
  | short c hc =>
    obtain ⟨hoff, hsecond, hdrop⟩ := getD_of_drop hdrop
    rw [if_neg (by omega), hsecond, if_neg fun hbad => absurd ((and_highBit c).mp hbad) (by omega)]
    exact (derValue_iff (by omega)).mpr ⟨rfl, hl, hend, hdrop⟩
  | long c bs hc hpos hle =>
    rw [append_assoc, cons_append] at hdrop
    obtain ⟨hoff, hsecond, hdrop⟩ := getD_of_drop hdrop
    have hlow : (c &&& 0x7f).toNat = bs.length := by
      rw [and_lowBits]
      omega
    have hcount := congrArg length hdrop
    rw [length_append, length_drop] at hcount
    rw [if_neg (by omega), hsecond, if_pos ((and_highBit c).mpr (by omega)), hlow,
      if_neg (by omega), hdrop, take_left]
    refine (derValue_iff (by omega)).mpr ⟨rfl, hl, hend, ?_⟩
    rw [← drop_drop, hdrop, drop_left]

theorem derNext_later (h : derNext b off = some (d, off')) : off < off' := by
  obtain ⟨hend, -, len, -, hdrop⟩ := starts_of_derNext h
  have hcount := congrArg length hdrop
  simp only [length_drop, length_cons, length_append] at hcount
  omega

theorem starts_iff {value : List UInt8} :
    Starts (b.drop off) tag value rest ↔
      ∃ off', derNext b off = some (⟨tag, value⟩, off') ∧ b.drop off' = rest := by
  constructor
  · intro h
    obtain ⟨htag, len, hlen, hdrop⟩ := h
    have hcount := congrArg length hdrop
    simp only [length_drop, length_cons, length_append] at hcount
    have hrest : b.drop (off + (1 + len.length + value.length)) = rest := by
      rw [← drop_drop, hdrop, ← cons_append]
      exact drop_left' (by simp only [length_cons, length_append]; omega)
    exact ⟨_, derNext_of_starts (by omega) ⟨htag, len, hlen, by rw [hrest, hdrop]⟩, hrest⟩
  · rintro ⟨off', hnext, rfl⟩
    exact (starts_of_derNext hnext).2

theorem starts_zero_iff {value : List UInt8} : Starts b tag value rest ↔
    ∃ off', derNext b 0 = some (⟨tag, value⟩, off') ∧ b.drop off' = rest := by
  rw [← starts_iff, drop_zero]

theorem Starts.unique {tag' : UInt8} {value value' rest' : List UInt8}
    (h : Starts b tag value rest) (h' : Starts b tag' value' rest') :
    tag = tag' ∧ value = value' ∧ rest = rest' := by
  obtain ⟨off, hnext, rfl⟩ := starts_zero_iff.mp h
  obtain ⟨off', hnext', rfl⟩ := starts_zero_iff.mp h'
  rw [hnext] at hnext'
  obtain ⟨⟨rfl, rfl⟩, rfl⟩ := hnext'
  exact ⟨rfl, rfl, rfl⟩

end

def RsaInfo (value : List UInt8) : Prop :=
  ∃ alg behind params, Starts value 0x30 alg behind ∧ Starts alg 0x06 oidRsaEncryption params

/-- The first of the elements that has the shape of a SubjectPublicKeyInfo for RSA. -/
inductive KeyInfo : List UInt8 → List UInt8 → Prop
  | here {bytes info rest : List UInt8} (h : Starts bytes 0x30 info rest) (hrsa : RsaInfo info) :
      KeyInfo bytes info
  | later {bytes value rest info : List UInt8} {tag : UInt8} (h : Starts bytes tag value rest)
      (hother : ¬(tag = 0x30 ∧ RsaInfo value)) (hrest : KeyInfo rest info) : KeyInfo bytes info

def InfoKey (info key : List UInt8) : Prop :=
  ∃ alg behind bits, Starts info 0x30 alg behind ∧ (∃ rest, Starts behind 0x03 (0 :: bits) rest) ∧
    ∃ rest, Starts bits 0x30 key rest

def PublicKey (der n e : List UInt8) : Prop :=
  ∃ cert tbs info key behind, (∃ rest, Starts der 0x30 cert rest) ∧
    (∃ rest, Starts cert 0x30 tbs rest) ∧ KeyInfo tbs info ∧ InfoKey info key ∧
      Starts key 0x02 n behind ∧ ∃ rest, Starts behind 0x02 e rest

section

variable {b value info key : List UInt8} {off ao : ℕ} {d : Der}

theorem oidEq_iff {oid : List UInt8} : oidEq d oid = true ↔ d = ⟨0x06, oid⟩ := by
  rw [oidEq, decide_eq_true_iff, Der.mk.injEq]

theorem rsaAlgorithm_iff : rsaAlgorithm d = some ao ↔ d.tag = 0x30 ∧ ∃ alg params,
    derNext d.value 0 = some (⟨0x30, alg⟩, ao) ∧ Starts alg 0x06 oidRsaEncryption params := by
  rw [rsaAlgorithm_eq, ite_none_left_eq_some, not_not]
  refine and_congr_right fun _ => ?_
  simp only [bind_eq_some_iff, ite_none_left_eq_some, ite_none_right_eq_some,
    not_not, oidEq_iff, some.injEq]
  constructor
  · rintro ⟨⟨⟨_, alg⟩, _⟩, halg, rfl, ⟨⟨_, off⟩, hoid, rfl, rfl⟩⟩
    exact ⟨alg, _, halg, starts_zero_iff.mpr ⟨off, hoid, rfl⟩⟩
  · rintro ⟨alg, params, halg, hoid⟩
    obtain ⟨off, hnext, rfl⟩ := starts_zero_iff.mp hoid
    exact ⟨_, halg, rfl, _, hnext, rfl, rfl⟩

theorem rsaAlgorithm_none (h : rsaAlgorithm d = none) : ¬(d.tag = 0x30 ∧ RsaInfo d.value) := by
  rintro ⟨htag, alg, behind, params, halg, hoid⟩
  obtain ⟨ao, hnext, -⟩ := starts_zero_iff.mp halg
  rw [rsaAlgorithm_iff.mpr ⟨htag, alg, params, hnext, hoid⟩] at h
  cases h

theorem bitStringKey_iff {alg : List UInt8} (hao : derNext value 0 = some (⟨0x30, alg⟩, ao)) :
    bitStringKey value ao = some key ↔ InfoKey value key := by
  have halg : Starts value 0x30 alg (value.drop ao) := starts_zero_iff.mpr ⟨ao, hao, rfl⟩
  rw [bitStringKey_eq]
  simp only [bind_eq_some_iff, ite_none_left_eq_some, not_not, some.injEq, not_or]
  constructor
  · rintro ⟨⟨⟨_, v⟩, off⟩, hbits, rfl, ⟨hlen, hzero⟩, ⟨⟨_, _⟩, off'⟩, hkey, rfl, rfl⟩
    cases v with
    | nil => exact absurd Nat.zero_lt_one hlen
    | cons a bits =>
      subst hzero
      exact ⟨alg, _, bits, halg, ⟨_, starts_iff.mpr ⟨off, hbits, rfl⟩⟩, _,
        starts_iff.mpr ⟨off', hkey, rfl⟩⟩
  · rintro ⟨alg', behind, bits, halg', ⟨rest, hbits⟩, rest', hkey⟩
    obtain ⟨-, -, rfl⟩ := halg.unique halg'
    obtain ⟨off, hnext, -⟩ := starts_iff.mp hbits
    have hkey' : Starts ((0 :: bits).drop 1) 0x30 key rest' := hkey
    obtain ⟨off', hnext', -⟩ := starts_iff.mp hkey'
    have hlen : ¬(0 :: bits).length < 1 := Nat.not_lt.mpr (Nat.succ_pos bits.length)
    exact ⟨_, hnext, rfl, ⟨hlen, rfl⟩, _, hnext', rfl, rfl⟩

theorem not_starts_nil : ¬Starts [] tag value rest := by
  rintro ⟨-, len, -, hnil⟩
  cases hnil

theorem keyInfo_iff (h : Starts b tag value rest) :
    KeyInfo b info ↔ ((tag = 0x30 ∧ RsaInfo value) ∧ info = value) ∨
      (¬(tag = 0x30 ∧ RsaInfo value) ∧ KeyInfo rest info) := by
  constructor
  · rintro (⟨h', hrsa⟩ | ⟨h', hother, hrest⟩)
    · obtain ⟨rfl, rfl, rfl⟩ := h.unique h'
      exact Or.inl ⟨⟨rfl, hrsa⟩, rfl⟩
    · obtain ⟨rfl, rfl, rfl⟩ := h.unique h'
      exact Or.inr ⟨hother, hrest⟩
  · rintro (⟨⟨rfl, hrsa⟩, rfl⟩ | ⟨hother, hrest⟩)
    · exact KeyInfo.here h hrsa
    · exact KeyInfo.later h hother hrest

/-- The search stops at the first element of the right shape. -/
theorem findKey_iff {fuel : ℕ} (hfuel : b.length ≤ off + fuel) :
    findKey b fuel off = some key ↔ ∃ info, KeyInfo (b.drop off) info ∧ InfoKey info key := by
  induction fuel generalizing off with
  | zero =>
    rw [add_zero] at hfuel
    rw [drop_of_length_le hfuel]
    refine iff_of_false nofun ?_
    rintro ⟨info, h | h, -⟩ <;> exact not_starts_nil h
  | succ fuel ih =>
    rw [findKey_succ]
    cases hnext : derNext b off with
    | none =>
      refine iff_of_false nofun ?_
      rintro ⟨info, h | h, -⟩ <;>
        · obtain ⟨off', hsome, -⟩ := starts_iff.mp h
          rw [hnext] at hsome
          cases hsome
    | some child =>
      have hchild : Starts (b.drop off) child.1.tag child.1.value (b.drop child.2) :=
        (starts_of_derNext hnext).2
      simp only [bind_some, keyInfo_iff hchild]
      cases halg : rsaAlgorithm child.1 with
      | none =>
        have hlater := derNext_later hnext
        rw [elim_none, ih (by omega)]
        simp [rsaAlgorithm_none halg]
      | some ao =>
        obtain ⟨htag, alg, params, hao, hoid⟩ := rsaAlgorithm_iff.mp halg
        have hrsa : RsaInfo child.1.value :=
          ⟨alg, _, params, starts_zero_iff.mpr ⟨ao, hao, rfl⟩, hoid⟩
        rw [elim_some, bitStringKey_iff hao]
        simp only [htag, hrsa, true_and, not_true_eq_false, false_and, or_false, exists_eq_left]

theorem certificateKey_iff : certificateKey der = some key ↔
    ∃ cert tbs info, (∃ rest, Starts der 0x30 cert rest) ∧ (∃ rest, Starts cert 0x30 tbs rest) ∧
      KeyInfo tbs info ∧ InfoKey info key := by
  rw [certificateKey_eq]
  simp only [bind_eq_some_iff, ite_none_left_eq_some, not_not, findKey_iff (le_add_left _ 0)]
  constructor
  · rintro ⟨⟨⟨_, cert⟩, _⟩, hcert, rfl, ⟨⟨_, tbs⟩, _⟩, htbs, rfl, info, hinfo, hkey⟩
    exact ⟨cert, tbs, info, ⟨_, starts_zero_iff.mpr ⟨_, hcert, rfl⟩⟩,
      ⟨_, starts_zero_iff.mpr ⟨_, htbs, rfl⟩⟩, hinfo, hkey⟩
  · rintro ⟨cert, tbs, info, ⟨rest, hcert⟩, ⟨rest', htbs⟩, hinfo, hkey⟩
    obtain ⟨off, hcert, -⟩ := starts_zero_iff.mp hcert
    obtain ⟨off', htbs, -⟩ := starts_zero_iff.mp htbs
    exact ⟨_, hcert, rfl, _, htbs, rfl, info, hinfo, hkey⟩

theorem publicKey_iff : PublicKey der n e ↔ ∃ key ko ko',
    certificateKey der = some key ∧ derNext key 0 = some (⟨0x02, n⟩, ko) ∧
      derNext key ko = some (⟨0x02, e⟩, ko') := by
  constructor
  · rintro ⟨cert, tbs, info, key, behind, hcert, htbs, hinfo, hkey, hn, rest, he⟩
    obtain ⟨ko, hmod, rfl⟩ := starts_zero_iff.mp hn
    obtain ⟨ko', hexp, -⟩ := starts_iff.mp he
    exact ⟨key, ko, ko', certificateKey_iff.mpr ⟨cert, tbs, info, hcert, htbs, hinfo, hkey⟩, hmod,
      hexp⟩
  · rintro ⟨key, ko, ko', hcert, hn, he⟩
    obtain ⟨cert, tbs, info, hcert, htbs, hinfo, hkey⟩ := certificateKey_iff.mp hcert
    exact ⟨cert, tbs, info, key, _, hcert, htbs, hinfo, hkey, starts_zero_iff.mpr ⟨ko, hn, rfl⟩,
      _, starts_iff.mpr ⟨ko', he, rfl⟩⟩

theorem PublicKey.unique {n' e' : List UInt8} (h : PublicKey der n e)
    (h' : PublicKey der n' e') : n = n' ∧ e = e' := by
  obtain ⟨key, ko, ko', hkey, hn, he⟩ := publicKey_iff.mp h
  obtain ⟨key', ko₁, ko₁', hkey', hn', he'⟩ := publicKey_iff.mp h'
  obtain rfl := some.inj (hkey.symm.trans hkey')
  obtain ⟨hn, rfl⟩ := Prod.mk.inj (some.inj (hn.symm.trans hn'))
  obtain ⟨he, -⟩ := Prod.mk.inj (some.inj (he.symm.trans he'))
  exact ⟨(Der.mk.inj hn).2, (Der.mk.inj he).2⟩

end

structure Magnitude (content m : List UInt8) : Prop where
  value : ofBytes m = ofBytes content
  zeros : ∃ z, content = replicate z 0 ++ m
  short : m = [0] ∨ m.headD 0 ≠ 0

theorem stripZeros_magnitude (hv : v ≠ []) : Magnitude v (stripZeros v) := by
  fun_induction stripZeros v with
  | case1 b bs ih =>
    have hrest := ih (cons_ne_nil b bs)
    obtain ⟨z, hz⟩ := hrest.zeros
    refine ⟨?_, ⟨z + 1, by rw [replicate_succ, cons_append, ← hz]⟩, hrest.short⟩
    rw [ofBytes_cons, hrest.value, UInt8.toNat_zero, zero_mul, zero_add]
  | case2 a b bs ha => exact ⟨rfl, ⟨0, rfl⟩, Or.inr ha⟩
  | case3 bs hbs =>
    refine ⟨rfl, ⟨0, rfl⟩, ?_⟩
    match bs, hv, hbs with
    | [a], _, _ =>
      by_cases ha : a = 0
      · exact Or.inl (by rw [ha])
      · exact Or.inr ha
    | a :: b :: bs, _, hbs => exact absurd rfl (hbs a b bs)

theorem stripZeros_length (v : List UInt8) : (stripZeros v).length ≤ v.length := by
  fun_induction stripZeros v with
  | case1 b bs ih => exact ih.trans (le_succ _)
  | case2 a b bs ha => exact le_rfl
  | case3 bs hbs => exact le_rfl

/-- The bytes of an INTEGER are its magnitude when its first bit is clear. -/
theorem intValue_magnitude_iff (hv : v ≠ []) :
    Magnitude v (intValue v) ↔ (v.headD 0).toNat < 128 := by
  rw [intValue]
  split_ifs with hneg
  · have hhigh := (and_highBit _).mp hneg
    refine iff_of_false (fun h => ?_) (by omega)
    obtain ⟨z, hz⟩ := h.zeros
    cases z with
    | zero =>
      -- nothing was dropped, but the first byte was
      have hlen := congrArg length hz
      have hpos := length_pos_iff.mpr hv
      have hstrip := stripZeros_length v.tail
      rw [length_tail] at hstrip
      rw [replicate_zero, nil_append] at hlen
      omega
    | succ z =>
      rw [hz, replicate_succ, cons_append, headD_cons] at hhigh
      exact absurd hhigh (by decide)
  · exact iff_of_true (stripZeros_magnitude hv)
      (Nat.lt_of_not_le fun hle => hneg ((and_highBit _).mpr hle))

theorem intBytes_eq_some {d : Der} (h : intBytes d cap = some m) :
    d.tag = 0x02 ∧ d.value ≠ [] ∧ m = intValue d.value := by
  rw [intBytes] at h
  split_ifs at h with hbad hcap
  push Not at hbad
  exact ⟨hbad.1, length_pos_iff.mp (Nat.pos_of_ne_zero hbad.2), (some.inj h).symm⟩

theorem keyInteger_eq_some {key : List UInt8} {ko ko' : ℕ}
    (h : keyInteger key ko cap = some (m, ko')) :
    ∃ v, derNext key ko = some (⟨0x02, v⟩, ko') ∧ v ≠ [] ∧ m = intValue v := by
  obtain ⟨⟨⟨tag, v⟩, off⟩, hnext, hmap⟩ := bind_eq_some_iff.mp h
  obtain ⟨m', hm, heq⟩ := map_eq_some_iff.mp hmap
  obtain ⟨rfl, rfl⟩ := Prod.mk.inj heq
  obtain ⟨rfl, hv, hvalue⟩ := intBytes_eq_some hm
  exact ⟨v, hnext, hv, hvalue⟩

theorem publicKey_of_returned {modCap expCap : ℕ}
    (h : tlsX509RsaPubkey der modCap expCap = ⟨some m, some e⟩) :
    ∃ n x, PublicKey der n x ∧ (n ≠ [] ∧ m = intValue n) ∧ x ≠ [] ∧ e = intValue x := by
  rw [tlsX509RsaPubkey_eq] at h
  cases hkey : certificateKey der with
  | none =>
    rw [hkey] at h
    cases h
  | some key =>
    rw [hkey, elim_some] at h
    cases hmod : keyInteger key 0 modCap with
    | none =>
      rw [hmod] at h
      cases h
    | some mod =>
      rw [hmod, elim_some, Pubkey.mk.injEq, some.injEq, map_eq_some_iff] at h
      obtain ⟨rfl, exp, hexp, rfl⟩ := h
      obtain ⟨n, hn, hnv⟩ := keyInteger_eq_some hmod
      obtain ⟨x, hx, hxv⟩ := keyInteger_eq_some hexp
      exact ⟨n, x, publicKey_iff.mpr ⟨key, _, _, hkey, hn, hx⟩, hnv, hxv⟩

/-- The parser ends and reads inside the certificate, and what it returns are the magnitudes of the
INTEGERs of the RSAPublicKey exactly when the first bit of both is clear. -/
theorem pubkey_exact_iff (mem : ℕ → UInt8) (len modCap expCap : ℕ) :
    (∃ k log, tlsX509RsaPubkeyAt mem len modCap expCap [] = (some k, log) ∧
        (∀ i ∈ log, i < len) ∧ ∀ m e, k = ⟨some m, some e⟩ →
          ∃ n x, PublicKey (slice mem 0 len) n x ∧ Magnitude n m ∧ Magnitude x e) ↔
      ∀ m e, (tlsX509RsaPubkeyAt mem len modCap expCap []).1 = some ⟨some m, some e⟩ →
        ∀ n x, PublicKey (slice mem 0 len) n x →
          (n.headD 0).toNat < 128 ∧ (x.headD 0).toNat < 128 := by
  obtain ⟨k, log, hrun, hinside, hk⟩ := (tlsX509RsaPubkeyAt_returns mem len modCap expCap).run
  simp only [hrun, Prod.mk.injEq, some.injEq]
  constructor
  · rintro ⟨_, _, ⟨rfl, rfl⟩, -, hexact⟩ m e hme n x hkey
    obtain ⟨n', x', hkey', hm, he⟩ := hexact m e hme
    obtain ⟨rfl, rfl⟩ := hkey.unique hkey'
    obtain ⟨n', x', hkey', hn, hx⟩ := publicKey_of_returned (hk.symm.trans hme)
    obtain ⟨rfl, rfl⟩ := hkey.unique hkey'
    rw [hn.2] at hm
    rw [hx.2] at he
    exact ⟨(intValue_magnitude_iff hn.1).mp hm, (intValue_magnitude_iff hx.1).mp he⟩
  · intro hclear
    refine ⟨k, log, ⟨rfl, rfl⟩, hinside, fun m e hme => ?_⟩
    obtain ⟨n, x, hkey, hn, hx⟩ := publicKey_of_returned (hk.symm.trans hme)
    obtain ⟨hnclear, hxclear⟩ := hclear m e hme n x hkey
    rw [hn.2, hx.2]
    exact ⟨n, x, hkey, (intValue_magnitude_iff hn.1).mpr hnclear,
      (intValue_magnitude_iff hx.1).mpr hxclear⟩

def negativeCertificate : List UInt8 :=
  [0x30, 31, 0x30, 29, 0x30, 27, 0x30, 11, 0x06, 9] ++ oidRsaEncryption ++
    [0x03, 12, 0, 0x30, 9, 0x02, 4, 0x80, 1, 2, 5, 0x02, 1, 3]

/-- The first byte of the modulus 80 01 02 05 is dropped. -/
theorem negative_modulus_cut :
    PublicKey negativeCertificate [0x80, 1, 2, 5] [3] ∧
      (tlsX509RsaPubkeyAt (negativeCertificate.getD · 0) negativeCertificate.length 512 8 []).1 =
        some ⟨some [1, 2, 5], some [3]⟩ ∧
      ¬Magnitude [0x80, 1, 2, 5] [1, 2, 5] := by
  refine ⟨publicKey_iff.mpr ⟨[0x02, 4, 0x80, 1, 2, 5, 0x02, 1, 3], 6, 9, ?_⟩, ?_, fun h => ?_⟩
  · decide +kernel
  · decide +kernel
  · exact absurd h.value (by decide)

end Vnu.Tls
