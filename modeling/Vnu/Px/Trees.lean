import Vnu.Px.Inflate
import Vnu.Px.Rfc1951

/-!
Reading bits and codes. The tree built from code lengths has the label of a symbol exactly at the
end of its canonical code.
-/
namespace Vnu.Px

open Lib Lib.Canonical Rfc1951 Option Nat

theorem ok_bind {α β : Type} (a : α) (f : α → Except Stop β) : (Except.ok a >>= f) = f a := rfl

def PxBit.index (b : PxBit) : ℕ := 8 * b.pos + b.bitpos

structure At (src : List UInt8) (b : PxBit) (bits : List Bool) : Prop where
  bit_lt : b.bitpos < 8
  index_le : b.index ≤ 8 * src.length
  eq : (octets (src.drop b.pos)).drop b.bitpos = bits

@[simp] theorem word_length (n v : ℕ) : (word n v).length = n := by simp [word]

theorem octets_length (data : List UInt8) : (octets data).length = 8 * data.length := by
  induction data with
  | nil => rfl
  | cons b rest ih =>
    have hsplit : octets (b :: rest) = word 8 b.toNat ++ octets rest := rfl
    rw [hsplit, List.length_append, word_length, ih, List.length_cons]
    ring

theorem PxBit.index_next {b : PxBit} : b.next.index = b.index + 1 := by
  unfold PxBit.next PxBit.index
  split_ifs <;> simp only <;> omega

variable {src : List UInt8} {b : PxBit} {bits : List Bool}

theorem At.start (src : List UInt8) : At src ⟨0, 0⟩ (octets src) :=
    ⟨by norm_num, zero_le _, rfl⟩

theorem At.length (h : At src b bits) : bits.length + b.index = 8 * src.length := by
  have hle := h.index_le
  rw [← h.eq, List.length_drop, octets_length, List.length_drop]
  unfold PxBit.index at hle ⊢
  omega

theorem At.bit {x : Bool} (h : At src b (x :: bits)) :
    pbBit src b = .ok (x, b.next) ∧ At src b.next bits := by
  obtain ⟨hbit, hindex, heq⟩ := h
  cases hdrop : src.drop b.pos with
  | nil => simp [hdrop, octets] at heq
  | cons byte rest =>
    have hlt : b.pos < src.length := by
      by_contra hge
      rw [List.drop_eq_nil_of_le (Nat.not_lt.mp hge)] at hdrop
      cases hdrop
    have hbyte : src[b.pos]? = some byte := by
      rw [← List.head?_drop, hdrop, List.head?_cons]
    have hnext : src.drop (b.pos + 1) = rest := by
      rw [← List.tail_drop, hdrop, List.tail_cons]
    have hall : octets (src.drop b.pos) = word 8 byte.toNat ++ octets rest := by
      rw [hdrop]
      rfl
    rw [hall] at heq
    have hfirst : (word 8 byte.toNat ++ octets rest)[b.bitpos]? =
      some (byte.toNat.testBit b.bitpos) := by
      rw [List.getElem?_append_left (by simpa using hbit)]
      simp [word, hbit]
    have hx : byte.toNat.testBit b.bitpos = x := by
      rw [← List.head?_drop, heq] at hfirst
      exact (some.inj hfirst).symm
    have hbits : (word 8 byte.toNat ++ octets rest).drop (b.bitpos + 1) = bits := by
      rw [← List.tail_drop, heq, List.tail_cons]
    constructor
    · simp only [pbBit, byteAt, hbyte, if_neg (Nat.not_le.mpr hlt)]
      rw [ok_bind, hx]
      rfl
    have hle : b.next.index ≤ 8 * src.length := by
      rw [PxBit.index_next, PxBit.index]
      omega
    unfold PxBit.next at hle ⊢
    split_ifs with hlast
    · rw [if_pos hlast] at hle
      refine ⟨by norm_num, hle, ?_⟩
      rw [hlast, List.drop_append_of_le_length (by simp), List.drop_of_length_le (by simp)] at hbits
      simpa [hnext] using hbits
    · rw [if_neg hlast] at hle
      exact ⟨by simp only; omega, hle, by rw [hall]; exact hbits⟩

theorem or_testBit (v i : ℕ) :
    (if v.testBit i then v % 2 ^ i ||| 1 <<< i else v % 2 ^ i) = v % 2 ^ (i + 1) := by
  apply Nat.eq_of_testBit_eq
  intro j
  by_cases hj : j = i
  · subst hj
    cases hbit : v.testBit j <;> simp [hbit]
  · have hlt : j < i + 1 ↔ j < i := by omega
    rw [Nat.shiftLeft_eq]
    cases v.testBit i <;> simp [hlt, Ne.symm hj]

theorem At.loop (v n i : ℕ) {b : PxBit}
    (h : At src b ((List.range n).map (fun k => v.testBit (i + k)) ++ bits)) :
    ∃ b', pbLoop src n i (v % 2 ^ i) b = .ok (v % 2 ^ (i + n), b') ∧ At src b' bits ∧
      b'.index = b.index + n := by
  induction n generalizing i b with
  | zero => exact ⟨b, rfl, h, rfl⟩
  | succ n ih =>
    rw [List.range_succ_eq_map, List.map_cons, List.map_map] at h
    obtain ⟨hbit, hnext⟩ := h.bit
    have hshift : (fun k => v.testBit (i + k)) ∘ Nat.succ = fun k => v.testBit (i + 1 + k) := by
      funext k
      simp only [Function.comp]
      congr 1
      omega
    rw [hshift] at hnext
    obtain ⟨b', hloop, hat, hindex⟩ := ih (i + 1) hnext
    refine ⟨b', ?_, hat, ?_⟩
    · simp only [pbLoop, hbit]
      rw [ok_bind]
      simp only [add_zero, or_testBit, hloop, add_right_comm, add_assoc]
    · rw [hindex, PxBit.index_next]
      omega

theorem At.get {n v : ℕ} (hv : v < 2 ^ n) (h : At src b (word n v ++ bits)) :
    ∃ b', pbGet src n b = .ok (v, b') ∧ At src b' bits ∧ b'.index = b.index + n := by
  have hstart : At src b ((List.range n).map (fun k => v.testBit (0 + k)) ++ bits) := by
    simpa [word] using h
  obtain ⟨b', hloop, hat, hindex⟩ := At.loop v n 0 hstart
  refine ⟨b', ?_, hat, hindex⟩
  rw [zero_add, Nat.mod_eq_of_lt hv, pow_zero, Nat.mod_one] at hloop
  exact hloop

theorem bump_length (c : List ℕ) (l : ℕ) : (bump c l).length = c.length := by simp [bump]

theorem bump_getD {c : List ℕ} {l k : ℕ} (hk : k < c.length) :
    (bump c l).getD k 0 = c.getD k 0 + if k = l then 1 else 0 := by
  unfold bump
  by_cases hkl : k = l
  · subst hkl
    simp [hk]
  · simp [hkl, List.getElem?_set_ne (Ne.symm hkl)]

theorem cnt_foldl (lens c : List ℕ) {l : ℕ} (hl : l < c.length) :
    (lens.foldl (fun c l => if l = 0 then c else bump c l) c).getD l 0 =
      c.getD l 0 + count lens l := by
  induction lens generalizing c with
  | nil => simp [Canonical.count]
  | cons x lens ih =>
    rw [List.foldl_cons]
    split_ifs with hx
    · rw [ih c hl]
      subst hx
      unfold Canonical.count
      by_cases hzero : l = 0
      · simp [hzero]
      · simp [List.count_cons_of_ne (Ne.symm hzero)]
    · rw [ih (bump c x) (by rwa [bump_length]), bump_getD hl]
      unfold Canonical.count
      by_cases hzero : l = 0
      · simp [hzero, Ne.symm hx]
      by_cases hlx : l = x
      · subst hlx
        simp [hzero]
        omega
      · simp [hlx, List.count_cons_of_ne (Ne.symm hlx)]

theorem getD_replicate_zero (n l : ℕ) : (List.replicate n 0).getD l 0 = 0 := by
  rw [List.getD_eq_getElem?_getD, List.getElem?_replicate]
  split_ifs <;> rfl

theorem nextCode_eq (lens : List ℕ) {l : ℕ} (hl : l ≤ 16) :
    nextCode (cnt lens) l = first lens l := by
  induction l with
  | zero => rfl
  | succ l ih =>
    have hcnt : (cnt lens).getD l 0 = count lens l := by
      have hfold := cnt_foldl lens (List.replicate 16 0) (l := l) (by simpa using hl)
      rwa [getD_replicate_zero, zero_add] at hfold
    rw [nextCode, ih (by omega), hcnt, first, Nat.shiftLeft_eq]

theorem defInsert_eq (s c l : ℕ) {t : Trie ℕ} (used : ℕ) (ht : t ≠ .nil)
    (hroom : used + l ≤ defHnMax) (hfree : t.lookup (bitsOf l c) = none) :
    ∃ k, defInsert s c l t used = some (t.put s (bitsOf l c), used + k) ∧
      (t.put s (bitsOf l c)).size = t.size + k := by
  induction l generalizing t used with
  | zero =>
    have hlabel : t.label = none := hfree
    refine ⟨0, ?_, ?_⟩
    · simp [defInsert, hlabel, bitsOf, Trie.put]
    · cases t with
      | nil => exact absurd rfl ht
      | node l zero one => rfl
  | succ l ih =>
    have hfree' : (t.child (c.testBit l)).lookup (bitsOf l c) = none := hfree
    have hsize := Trie.size_graft ht ((t.child (c.testBit l)).put s (bitsOf l c)) (c.testBit l)
    simp only [bitsOf, Trie.put, defInsert]
    cases hchild : t.child (c.testBit l) with
    | nil =>
      obtain ⟨k, hinsert, hmore⟩ := ih (t := .node none .nil .nil) (used + 1) (by simp) (by omega)
        (Trie.lookup_bare _)
      rw [hchild, Trie.put_nil, hmore] at hsize
      refine ⟨1 + k, ?_, ?_⟩
      · rw [if_neg (by omega), hinsert, Trie.put_nil]
        simp [add_assoc]
      · rw [Trie.put_nil]
        simp only [Trie.size] at hsize
        omega
    | node label zero one =>
      rw [hchild] at hfree' hsize
      obtain ⟨k, hinsert, hmore⟩ := ih used (by simp) (by omega) hfree'
      refine ⟨k, ?_, ?_⟩
      · simp [hinsert]
      · omega

def Holds (lens : List ℕ) (n : ℕ) (t : Trie ℕ) : Prop :=
  ∀ path s, t.lookup path = some s ↔ s < n ∧ len lens s ≠ 0 ∧ code lens s = path

structure Midway (lens : List ℕ) (n : ℕ) (next : List ℕ) (t : Trie ℕ) (used : ℕ) : Prop where
  next_length : next.length = 16
  next_eq : ∀ l, l ≠ 0 → l ≤ 15 → next.getD l 0 = first lens l + (lens.take n).count l
  ne_nil : t ≠ .nil
  used_eq : used = t.size
  level_le : ∀ d, t.level d ≤ n + 1
  level_deep : ∀ d, 16 ≤ d → t.level d = 0
  holds : Holds lens n t

theorem midway_start (lens : List ℕ) :
    Midway lens 0 (nextCodes (cnt lens)) (.node none .nil .nil) 1 where
  next_length := by simp [nextCodes]
  next_eq l _ hl := by
    have hget : (nextCodes (cnt lens)).getD l 0 = nextCode (cnt lens) l := by
      simp [nextCodes, Nat.lt_succ_of_le hl]
    rw [hget, nextCode_eq lens (by omega)]
    simp
  ne_nil := by simp
  used_eq := rfl
  level_le d := by cases d <;> simp [Trie.level]
  level_deep d hd := by
    obtain ⟨d, rfl⟩ := Nat.exists_eq_add_of_le' (Nat.one_le_of_lt hd)
    simp [Trie.level]
  holds path s := by simp [Trie.lookup_bare]

section Build

variable {lens next : List ℕ} {max n used : ℕ} {t : Trie ℕ}

theorem Midway.skip (h : Midway lens n next t used) (hzero : len lens n = 0)
    (hn : n < lens.length) :
    Midway lens (n + 1) next t used where
  next_length := h.next_length
  next_eq l hl hl' := by
    have htake : lens.take (n + 1) = lens.take n ++ [0] := by
      rw [len, List.getD_eq_getElem lens 0 hn] at hzero
      rw [List.take_add_one, List.getElem?_eq_getElem hn, hzero]
      rfl
    rw [h.next_eq l hl hl', htake]
    simp [Ne.symm hl]
  ne_nil := h.ne_nil
  used_eq := h.used_eq
  level_le d := (h.level_le d).trans (le_succ _)
  level_deep := h.level_deep
  holds path s := by
    rw [h.holds path s]
    constructor
    · exact fun hbefore => ⟨Nat.lt_succ_of_lt hbefore.1, hbefore.2⟩
    · rintro ⟨hs, hcode, hpath⟩
      refine ⟨lt_of_le_of_ne (Nat.le_of_lt_succ hs) ?_, hcode, hpath⟩
      rintro rfl
      exact hcode hzero

theorem Midway.size_le (h : Midway lens n next t used) (hn : n ≤ 288) : t.size ≤ 2534 := by
  refine (Trie.size_le_of_levels t h.level_deep fun d => (h.level_le d).trans ?_).trans
    (le_of_eq (by decide : ∑ d ∈ Finset.range 16, min (2 ^ d) 289 = 2534))
  omega

/-- The next code of a length is free, as the lengths leave room for it. -/
theorem Midway.insert (hkraft : Kraft lens max) (hmax : max ≤ 15) (hlength : lens.length ≤ 288)
    (h : Midway lens n next t used) (hcode : len lens n ≠ 0) :
    ∃ t' used', defInsert n (next.getD (len lens n) 0) (len lens n) t used = some (t', used') ∧
      Midway lens (n + 1) (bump next (len lens n)) t' used' := by
  have hn := lt_length_of_len hcode
  have hlen : len lens n ≤ 15 := (hkraft.len_le hcode).trans hmax
  have hvalue : next.getD (len lens n) 0 = value lens n := h.next_eq _ hcode hlen
  have hsize := h.size_le (hn.le.trans hlength)
  have hfree : t.lookup (code lens n) = none := by
    rw [eq_none_iff_forall_ne_some]
    intro s hs
    obtain ⟨hlt, hscode, hpath⟩ := (h.holds _ s).mp hs
    exact Nat.ne_of_lt hlt (hkraft.prefix_free hscode hcode (hpath ▸ List.prefix_rfl))
  have hroom : used + len lens n ≤ defHnMax := by
    have hused := h.used_eq
    unfold defHnMax
    omega
  have hput : ∃ k, defInsert n (value lens n) (len lens n) t used =
      some (t.put n (code lens n), used + k) ∧ (t.put n (code lens n)).size = t.size + k :=
    defInsert_eq n (value lens n) (len lens n) used h.ne_nil hroom hfree
  obtain ⟨k, hinsert, hmore⟩ := hput
  rw [hvalue]
  refine ⟨_, _, hinsert, ?_⟩
  have hlt : (code lens n).length < 16 := by
    rw [code_length]
    omega
  refine ⟨by rw [bump_length, h.next_length], ?_, ?_, ?_, ?_, ?_, ?_⟩
  · intro l hl hl'
    rw [bump_getD (by rw [h.next_length]; omega), h.next_eq l hl hl', split_at hcode, add_assoc]
    congr 2
    by_cases hln : l = len lens n
    · simp [hln]
    · simp [hln, Ne.symm hln]
  · intro hnil
    have hput := Trie.lookup_put_self n (code lens n) t
    rw [hnil, Trie.lookup_nil] at hput
    cases hput
  · rw [hmore, h.used_eq]
  · intro d
    have hle := Trie.level_put_le n (code lens n) t d
    have hbefore := h.level_le d
    exact hle.trans (by omega)
  · intro d hd
    exact (Trie.level_put_of_lt n t (hlt.trans_le hd)).trans (h.level_deep d hd)
  intro path s
  by_cases hpath : path = code lens n
  · subst hpath
    rw [Trie.lookup_put_self]
    constructor
    · intro hs
      cases hs
      exact ⟨lt_succ_self n, hcode, rfl⟩
    · rintro ⟨-, hscode, heq⟩
      rw [hkraft.prefix_free hscode hcode (heq ▸ List.prefix_rfl)]
  · rw [Trie.lookup_put_of_ne n hpath t, h.holds path s]
    constructor
    · exact fun ⟨hs, hrest⟩ => ⟨Nat.lt_succ_of_lt hs, hrest⟩
    · rintro ⟨hs, hscode, heq⟩
      refine ⟨lt_of_le_of_ne (Nat.le_of_lt_succ hs) ?_, hscode, heq⟩
      rintro rfl
      exact hpath heq.symm

theorem buildLoop_holds (hkraft : Kraft lens max) (hmax : max ≤ 15) (hlength : lens.length ≤ 288)
    (todo : List ℕ) (n : ℕ) {next : List ℕ} {t : Trie ℕ} {used : ℕ} (htodo : lens.drop n = todo)
    (h : Midway lens n next t used) :
    ∃ t', buildLoop todo n next t used = some t' ∧ Holds lens lens.length t' := by
  induction todo generalizing n next t used with
  | nil =>
    refine ⟨t, rfl, fun path s => ?_⟩
    rw [h.holds path s]
    have hn : lens.length ≤ n := List.drop_eq_nil_iff.mp htodo
    constructor
    · exact fun ⟨_, hcode, hpath⟩ => ⟨lt_length_of_len hcode, hcode, hpath⟩
    · exact fun ⟨hs, hrest⟩ => ⟨by omega, hrest⟩
  | cons l todo ih =>
    have hn : n < lens.length := by
      by_contra hge
      rw [List.drop_eq_nil_of_le (Nat.not_lt.mp hge)] at htodo
      cases htodo
    have hl : len lens n = l := by
      rw [len, List.getD_eq_getElem?_getD, ← List.head?_drop, htodo]
      rfl
    have hrest : lens.drop (n + 1) = todo := by
      rw [← List.tail_drop, htodo, List.tail_cons]
    unfold buildLoop
    split_ifs with hzero
    · exact ih (n + 1) hrest (h.skip (hl.trans hzero) hn)
    obtain ⟨t', used', hinsert, hnext⟩ := h.insert hkraft hmax hlength (hl.symm ▸ hzero)
    rw [hl] at hinsert hnext
    rw [hinsert]
    exact ih (n + 1) hrest hnext

/-- The tree of lengths that leave room for one another. -/
theorem defBuild_holds (hkraft : Kraft lens max) (hmax : max ≤ 15) (hlength : lens.length ≤ 288) :
    ∃ t, defBuild lens = .ok t ∧ Holds lens lens.length t := by
  obtain ⟨t, hbuild, hholds⟩ :=
    buildLoop_holds hkraft hmax hlength lens 0 (List.drop_zero) (midway_start lens)
  refine ⟨t, ?_, hholds⟩
  rw [defBuild, hbuild]

end Build

/-- The path of a code has no label before its end, so the walk stops there. -/
theorem huffLoop_eq (s : ℕ) (path : List Bool) {n : ℕ} {t : Trie ℕ} {b : PxBit} (hne : path ≠ [])
    (hlength : path.length ≤ n) (hlabel : t.lookup path = some s)
    (hbefore : ∀ q, q <+: path → q ≠ [] → q ≠ path → t.lookup q = none)
    (h : At src b (path ++ bits)) :
    ∃ b', huffLoop src n t b = .ok (s, b') ∧ At src b' bits ∧ b'.index = b.index + path.length := by
  induction path generalizing n t b with
  | nil => exact absurd rfl hne
  | cons x rest ih =>
    obtain ⟨n, rfl⟩ := Nat.exists_eq_add_of_le' (Nat.one_le_of_lt (lt_of_lt_of_le
      (Nat.succ_pos rest.length) hlength))
    have hfield : At src b (word 1 x.toNat ++ (rest ++ bits)) := by
      cases x <;> exact h
    obtain ⟨b₁, hget, hat, hindex⟩ := hfield.get (by cases x <;> decide)
    have hx : x.toNat.testBit 0 = x := by cases x <;> rfl
    have hchild : (t.child x).lookup rest = some s := hlabel
    simp only [huffLoop, hget]
    rw [ok_bind]
    simp only [hx]
    by_cases hrest : rest = []
    · subst hrest
      refine ⟨b₁, ?_, hat, hindex⟩
      cases hnode : t.child x with
      | nil => rw [hnode] at hchild; cases hchild
      | node label zero one =>
        rw [hnode] at hchild
        have hlab : label = some s := hchild
        rw [hlab]
    have hnone : (t.child x).label = none :=
      hbefore [x] ⟨rest, rfl⟩ (by simp) (by simp [Ne.symm hrest])
    cases hnode : t.child x with
    | nil =>
      rw [hnode, Trie.lookup_nil] at hchild
      cases hchild
    | node label zero one =>
      rw [hnode] at hchild hnone
      have hlab : label = none := hnone
      rw [hlab] at hchild hnode ⊢
      have hbelow : ∀ q, q <+: rest → q ≠ [] → q ≠ rest →
          (Trie.node none zero one).lookup q = none := by
        intro q hq hqne hqrest
        have hq' := hbefore (x :: q) (List.cons_prefix_cons.mpr ⟨rfl, hq⟩) (by simp)
          (by simpa using hqrest)
        rwa [Trie.lookup, hnode] at hq'
      obtain ⟨b', hloop, hat', hindex'⟩ := ih hrest (by simpa using hlength) hchild hbelow hat
      refine ⟨b', hloop, hat', ?_⟩
      rw [List.length_cons]
      omega

theorem defHuff_eq {lens : List ℕ} {max s : ℕ} {t : Trie ℕ} (hkraft : Kraft lens max)
    (hmax : max ≤ 15) (ht : Holds lens lens.length t) (hcode : len lens s ≠ 0)
    (h : At src b (code lens s ++ bits)) :
    ∃ b', defHuff src t b = .ok (s, b') ∧ At src b' bits ∧ b'.index = b.index + len lens s := by
  have hlabel : t.lookup (code lens s) = some s := (ht _ s).mpr ⟨lt_length_of_len hcode, hcode, rfl⟩
  have hne : code lens s ≠ [] := by
    rw [← List.length_pos_iff, code_length]
    exact Nat.pos_of_ne_zero hcode
  have hbefore : ∀ q, q <+: code lens s → q ≠ [] → q ≠ code lens s → t.lookup q = none := by
    intro q hq _ hqne
    rw [eq_none_iff_forall_ne_some]
    intro r hr
    obtain ⟨-, hrcode, rfl⟩ := (ht q r).mp hr
    exact hqne (by rw [hkraft.prefix_free hrcode hcode hq])
  have hlength : (code lens s).length ≤ 15 := by
    rw [code_length]
    exact (hkraft.len_le hcode).trans hmax
  obtain ⟨b', hloop, hat, hindex⟩ := huffLoop_eq s (code lens s) hne hlength hlabel hbefore h
  rw [code_length] at hindex
  exact ⟨b', hloop, hat, hindex⟩

end Vnu.Px
