import Mathlib.Data.List.GetD
import Vnu.Tls.Gcm

/-!
What sealing and opening compute. Opening accepts a ciphertext and a tag exactly when sealing gives
them for the plaintext it returns.
-/
namespace Vnu.Tls

open Lib List Function Nat

def keyByte (a : Aes128) (ctr : Block) (i : ℕ) : UInt8 :=
  (tlsAes128Enc a (gcmInc32^[i / 16] ctr)).getD (i % 16) 0

def mask (a : Aes128) (ctr : Block) (bs : List UInt8) : List UInt8 :=
  bs.mapIdx fun i b => b ^^^ keyByte a ctr i

theorem mask_length (a : Aes128) (ctr : Block) (bs : List UInt8) :
    (mask a ctr bs).length = bs.length :=
  length_mapIdx

theorem mask_mask (a : Aes128) (ctr : Block) (bs : List UInt8) :
    mask a ctr (mask a ctr bs) = bs := by
  apply ext_getElem (by rw [mask_length, mask_length])
  intro i _ _
  simp only [mask, getElem_mapIdx, UInt8.xor_assoc, UInt8.xor_self, UInt8.xor_zero]

theorem keyByte_of_lt (a : Aes128) (ctr : Block) {i : ℕ} (hi : i < 16) :
    keyByte a ctr i = (tlsAes128Enc a ctr).getD i 0 := by
  rw [keyByte, Nat.div_eq_of_lt hi, Nat.mod_eq_of_lt hi, iterate_zero_apply]

theorem keyByte_add (a : Aes128) (ctr : Block) (i : ℕ) :
    keyByte a ctr (i + 16) = keyByte a (gcmInc32 ctr) i := by
  rw [keyByte, Nat.add_mod_right, Nat.add_div_right i (by decide), iterate_succ_apply, keyByte]

theorem mask_append (a : Aes128) (ctr : Block) (xs ys : List UInt8)
    (hxs : xs.length = 16 ∨ ys = []) :
    mask a ctr (xs ++ ys) = mask a ctr xs ++ mask a (gcmInc32 ctr) ys := by
  rcases hxs with hxs | rfl
  · simp only [mask, mapIdx_append, hxs, keyByte_add]
  · simp only [mask, append_nil, mapIdx_nil]

theorem xorBytes_eq (h : Heap) (inp out : Ptr) (ks : List UInt8)
    (hap : inp.Apart ks.length out ks.length) :
    xorBytes h inp out ks = h.write out (zipWith (· ^^^ ·) (h.load inp ks.length) ks) := by
  induction ks generalizing h inp out with
  | nil => rfl
  | cons k ks ih =>
    rw [length_cons, add_comm] at hap
    have hnext : (inp.add 1).Apart ks.length (out.add 1) ks.length := hap.shift.symm.shift.symm
    have hkeep : (h.store out (h.bytes inp ^^^ k)).load (inp.add 1) ks.length =
        h.load (inp.add 1) ks.length :=
      Heap.load_store_apart (hap.shift.symm.mono (by omega) le_rfl)
    rw [xorBytes, ih _ _ _ hnext, hkeep, length_cons, Heap.load_succ, zipWith_cons_cons, Heap.write]

theorem xorBytes_mask (a : Aes128) (ctr : Block) (h : Heap) (inp out : Ptr) {n : ℕ} (hn : n ≤ 16)
    (hap : inp.Apart n out n) :
    xorBytes h inp out ((range n).map fun i => (tlsAes128Enc a ctr).getD i 0) =
      h.write out (mask a ctr (h.load inp n)) := by
  have hlen : ((range n).map fun i => (tlsAes128Enc a ctr).getD i 0).length = n := by
    rw [length_map, length_range]
  rw [xorBytes_eq h inp out _ (by rwa [hlen]), hlen]
  congr 1
  apply ext_getElem
  · rw [length_zipWith, hlen, mask_length, Heap.load_length, Nat.min_self]
  intro i h₁ h₂
  rw [mask_length, Heap.load_length] at h₂
  simp only [mask, getElem_zipWith, getElem_mapIdx, getElem_map, getElem_range]
  rw [keyByte_of_lt a ctr (by omega)]

/-- Input and output may be the same place: a byte is read before it is written. -/
theorem gctrLoop_eq (a : Aes128) (inp out : Ptr) (len : ℕ) (hap : inp.Apart len out len) :
    ∀ (fuel off : ℕ) (h : Heap) (ctr : Block), off ≤ len → len - off ≤ fuel →
      (gctrLoop a inp out len fuel off h ctr).1 =
        h.write (out.add off) (mask a ctr (h.load (inp.add off) (len - off))) := by
  intro fuel
  induction fuel with
  | zero =>
    intro off h ctr _ hfuel
    rw [Nat.le_zero.mp hfuel]
    rfl
  | succ fuel ih =>
    intro off h ctr hoff hfuel
    rw [gctrLoop]
    split_ifs with hlt
    · obtain ⟨n, hn⟩ : ∃ n, n = min (len - off) 16 := ⟨_, rfl⟩
      obtain ⟨m, hm⟩ : ∃ m, len - off = n + m := ⟨len - off - n, by omega⟩
      have hrest : len - (off + n) = m := by omega
      have hblock : (inp.add off).Apart n (out.add off) n :=
        (hap.mono (by omega) (le_refl len)).shift.symm.mono (by omega) le_rfl |>.shift.symm
      have hkeep : (out.add off).Apart n (inp.add (off + n)) m := by
        refine Ptr.Apart.symm (Ptr.Apart.shift ?_)
        exact (hap.symm.mono (show off + n ≤ len by omega) (by omega)).shift.symm
      dsimp only
      rw [← hn, xorBytes_mask a ctr h _ _ (by omega) hblock, ih _ _ _ (by omega) (by omega), hrest,
        Heap.load_write_apart (by rwa [mask_length, Heap.load_length]), hm, Heap.load_add,
        Ptr.add_add, mask_append _ _ _ _ ?_, Heap.write_append, mask_length, Heap.load_length,
        Ptr.add_add]
      rcases lt_or_ge n 16 with hshort | _
      · exact Or.inr (by rw [show m = 0 by omega]; rfl)
      · exact Or.inl (by rw [Heap.load_length]; omega)
    · rw [show len - off = 0 by omega]
      rfl

theorem gcmGctr_eq (a : Aes128) (ctr : Block) (h : Heap) {inp out : Ptr} {len : ℕ}
    (hap : inp.Apart len out len) :
    (gcmGctr a ctr h inp out len).1 = h.write out (mask a ctr (h.load inp len)) :=
  gctrLoop_eq a inp out len hap len 0 h ctr (zero_le _) le_rfl

theorem tagBytes_length (a : Aes128) (J0 S : Block) : (tagBytes a J0 S).length = 16 :=
  Heap.load_length _ _ _

def gcmText (key nonce text : List UInt8) : List UInt8 :=
  mask (tlsAes128Setkey key) (gcmInc32 (gcmJ0 nonce)) text

def gcmTag (key nonce aad ct : List UInt8) : Block :=
  let a := tlsAes128Setkey key
  tagBytes a (gcmJ0 nonce)
    (gcmHashFinal aad ct (tlsAes128Enc a (replicate 16 0)) (replicate 16 0))

theorem gcmText_length (key nonce text : List UInt8) :
    (gcmText key nonce text).length = text.length :=
  mask_length _ _ _

theorem gcmText_gcmText (key nonce text : List UInt8) :
    gcmText key nonce (gcmText key nonce text) = text :=
  mask_mask _ _ _

theorem gcmTag_length (key nonce aad ct : List UInt8) : (gcmTag key nonce aad ct).length = 16 :=
  tagBytes_length _ _ _

/-- The buffers of a call of `tls_gcm_seal`, those read apart from the ciphertext. -/
structure SealCall where
  key : Ptr
  nonce : Ptr
  aad : Ptr
  aadlen : ℕ
  pt : Ptr
  ptlen : ℕ
  ct : Ptr
  pt_ct : pt.Apart ptlen ct ptlen
  aad_ct : ct.Apart ptlen aad aadlen

namespace SealCall

variable (c : SealCall) (h : Heap)

def run : Heap := tlsGcmSeal h c.key c.nonce c.aad c.aadlen c.pt c.ptlen c.ct

def output : List UInt8 := (c.run h).load c.ct (c.ptlen + 16)

def text : List UInt8 :=
  gcmText (h.load c.key 16) (h.load c.nonce 12) (h.load c.pt c.ptlen)

theorem text_length : (c.text h).length = c.ptlen := by
  rw [text, gcmText_length, Heap.load_length]

theorem run_eq :
    c.run h = h.write c.ct (c.text h ++
      gcmTag (h.load c.key 16) (h.load c.nonce 12) (h.load c.aad c.aadlen) (c.text h)) := by
  have hgctr := gcmGctr_eq (tlsAes128Setkey (h.load c.key 16))
    (gcmInc32 (gcmJ0 (h.load c.nonce 12)))
    h c.pt_ct
  rw [← gcmText, ← text] at hgctr
  have haad : (h.write c.ct (c.text h)).load c.aad c.aadlen = h.load c.aad c.aadlen :=
    Heap.load_write_apart (by rw [text_length]; exact c.aad_ct)
  have hct : (h.write c.ct (c.text h)).load c.ct c.ptlen = c.text h :=
    Heap.load_write_of_length (c.text_length h)
  rw [Heap.write_append, text_length]
  simp only [run, tlsGcmSeal, hgctr, haad, hct, gcmTag]

theorem output_eq :
    c.output h = gcmText (h.load c.key 16) (h.load c.nonce 12) (h.load c.pt c.ptlen) ++
        gcmTag (h.load c.key 16) (h.load c.nonce 12) (h.load c.aad c.aadlen)
          (gcmText (h.load c.key 16) (h.load c.nonce 12) (h.load c.pt c.ptlen)) := by
  rw [output, run_eq]
  exact Heap.load_write_of_length (by rw [length_append, text_length, gcmTag_length])

end SealCall

theorem foldl_or_eq_zero (f : ℕ → UInt8) (l : List ℕ) (b : UInt8) :
    l.foldl (fun bad i => bad ||| f i) b = 0 ↔ b = 0 ∧ ∀ i ∈ l, f i = 0 := by
  induction l generalizing b with
  | nil => simp
  | cons i l ih => simp [ih, and_assoc]

theorem tagDiff_eq_zero_iff (h : Heap) {T : Block} (hT : T.length = 16) (p : Ptr) :
    tagDiff h T p = 0 ↔ h.load p 16 = T := by
  rw [tagDiff, foldl_or_eq_zero (fun i => T.getD i 0 ^^^ h.bytes (p.add i))]
  constructor
  · rintro ⟨-, hall⟩
    apply ext_getElem (by rw [Heap.load_length, hT])
    intro i _ hi
    have heq := hall i (mem_range.mpr (hT ▸ hi))
    rw [UInt8.xor_eq_zero_iff, getD_eq_getElem _ _ hi] at heq
    simp only [Heap.load, getElem_map, getElem_range, heq]
  · intro heq
    refine ⟨rfl, fun i hi => ?_⟩
    have hi' : i < (h.load p 16).length := by rw [Heap.load_length]; exact mem_range.mp hi
    rw [← heq, getD_eq_getElem _ _ hi']
    simp [Heap.load]

structure OpenCall where
  key : Ptr
  nonce : Ptr
  aad : Ptr
  aadlen : ℕ
  ct : Ptr
  ctlen : ℕ
  pt : Ptr
  tag : Option Ptr
  ct_pt : ct.Apart ctlen pt (ctlen - 16)
  aad_pt : pt.Apart (ctlen - 16) aad aadlen

namespace OpenCall

variable (c : OpenCall) (h : Heap)

def run : Bool × Heap := tlsGcmOpen h c.key c.nonce c.aad c.aadlen c.ct c.ctlen c.pt c.tag

def text : List UInt8 :=
  gcmText (h.load c.key 16) (h.load c.nonce 12) (h.load c.ct (c.ctlen - 16))

def mac : Block :=
  gcmTag (h.load c.key 16) (h.load c.nonce 12) (h.load c.aad c.aadlen)
    (h.load c.ct (c.ctlen - 16))

def opened : Heap := storeTag (h.write c.pt (c.text h)) (c.mac h) c.tag

theorem text_length : (c.text h).length = c.ctlen - 16 := by
  rw [text, gcmText_length, Heap.load_length]

theorem mac_length : (c.mac h).length = 16 := gcmTag_length _ _ _ _

theorem run_eq (hlen : 16 ≤ c.ctlen) :
    c.run h = if (c.opened h).load (c.ct.add (c.ctlen - 16)) 16 = c.mac h then (true, c.opened h)
      else (false, (c.opened h).write c.pt (replicate (c.ctlen - 16) 0)) := by
  have hgctr := gcmGctr_eq (tlsAes128Setkey (h.load c.key 16))
    (gcmInc32 (gcmJ0 (h.load c.nonce 12)))
    h (c.ct_pt.mono (Nat.sub_le _ 16) le_rfl)
  rw [← gcmText, ← text] at hgctr
  have haad : (h.write c.pt (c.text h)).load c.aad c.aadlen = h.load c.aad c.aadlen :=
    Heap.load_write_apart (by rw [text_length]; exact c.aad_pt)
  have hct : (h.write c.pt (c.text h)).load c.ct (c.ctlen - 16) = h.load c.ct (c.ctlen - 16) :=
    Heap.load_write_apart (by rw [text_length]; exact (c.ct_pt.mono (Nat.sub_le _ 16) le_rfl).symm)
  have hmac : tagBytes (tlsAes128Setkey (h.load c.key 16)) (gcmJ0 (h.load c.nonce 12))
      (gcmHashFinal ((h.write c.pt (c.text h)).load c.aad c.aadlen)
        ((h.write c.pt (c.text h)).load c.ct (c.ctlen - 16))
        (tlsAes128Enc (tlsAes128Setkey (h.load c.key 16)) (replicate 16 0))
        (replicate 16 0)) = c.mac h := by
    rw [haad, hct]
    rfl
  rw [run, tlsGcmOpen, if_neg (by omega)]
  dsimp only
  rw [hgctr, hmac, ← opened]
  by_cases heq : (c.opened h).load (c.ct.add (c.ctlen - 16)) 16 = c.mac h
  · rw [if_pos heq, if_neg (not_not.mpr ((tagDiff_eq_zero_iff _ (c.mac_length h) _).mpr heq))]
  · rw [if_neg heq, if_pos (mt (tagDiff_eq_zero_iff _ (c.mac_length h) _).mp heq)]

theorem accepts_iff :
    (c.run h).1 = true ↔
      16 ≤ c.ctlen ∧ (c.opened h).load (c.ct.add (c.ctlen - 16)) 16 = c.mac h := by
  rcases lt_or_ge c.ctlen 16 with hlt | hle
  · rw [run, tlsGcmOpen, if_pos hlt]
    simp only [Bool.false_eq_true, false_iff]
    omega
  · rw [run_eq c h hle]
    split_ifs with heq <;> simp [heq, hle]

theorem rejects_zero (hrej : (c.run h).1 = false) :
    (c.run h).2.load c.pt (c.ctlen - 16) = replicate (c.ctlen - 16) 0 := by
  rcases lt_or_ge c.ctlen 16 with hlt | hle
  · rw [Nat.sub_eq_zero_of_le hlt.le]
    rfl
  · rw [run_eq c h hle] at hrej ⊢
    split_ifs at hrej ⊢ with heq
    exact Heap.load_write_of_length length_replicate

/-- The received tag is compared and the plaintext stays. -/
structure TagApart : Prop where
  ct : ∀ p ∈ c.tag, p.Apart 16 c.ct c.ctlen
  pt : ∀ p ∈ c.tag, p.Apart 16 c.pt (c.ctlen - 16)

variable {c}

theorem TagApart.opened_tag (hap : c.TagApart) (hlen : 16 ≤ c.ctlen) :
    (c.opened h).load (c.ct.add (c.ctlen - 16)) 16 = h.load (c.ct.add (c.ctlen - 16)) 16 := by
  have hsplit : c.ctlen - 16 + 16 = c.ctlen := Nat.sub_add_cancel hlen
  have hpt : (h.write c.pt (c.text h)).load (c.ct.add (c.ctlen - 16)) 16 =
      h.load (c.ct.add (c.ctlen - 16)) 16 := by
    apply Heap.load_write_apart
    rw [text_length]
    exact (Ptr.Apart.shift (by rw [hsplit]; exact c.ct_pt)).symm
  rw [← hpt, opened]
  cases htag : c.tag with
  | none => rfl
  | some p =>
    apply Heap.load_write_apart
    exact (Ptr.Apart.shift (by rw [hsplit]; exact (hap.ct p htag).symm)).symm

theorem TagApart.opened_text (hap : c.TagApart) :
    (c.opened h).load c.pt (c.ctlen - 16) = c.text h := by
  have hpt : (h.write c.pt (c.text h)).load c.pt (c.ctlen - 16) = c.text h :=
    Heap.load_write_of_length (text_length c h)
  rw [opened]
  cases htag : c.tag with
  | none => exact hpt
  | some p => rw [storeTag, Heap.load_write_apart (by rw [mac_length]; exact hap.pt p htag), hpt]

theorem TagApart.accepts (hap : c.TagApart) :
    (c.run h).1 = true ↔ 16 ≤ c.ctlen ∧ h.load (c.ct.add (c.ctlen - 16)) 16 = c.mac h := by
  rw [accepts_iff]
  exact and_congr_right fun hlen => by rw [hap.opened_tag h hlen]

theorem TagApart.returns (hap : c.TagApart) (hacc : (c.run h).1 = true) :
    (c.run h).2.load c.pt (c.ctlen - 16) = c.text h := by
  obtain ⟨hlen, heq⟩ := (accepts_iff c h).mp hacc
  rw [run_eq c h hlen, if_pos heq, hap.opened_text]

end OpenCall

section

variable {s : SealCall} {o : OpenCall} {h g : Heap}

theorem input_eq_output_iff (hkey : g.load o.key 16 = h.load s.key 16)
    (hnonce : g.load o.nonce 12 = h.load s.nonce 12)
    (haad : g.load o.aad o.aadlen = h.load s.aad s.aadlen) :
    g.load o.ct o.ctlen = s.output h ↔
      16 ≤ o.ctlen ∧ g.load (o.ct.add (o.ctlen - 16)) 16 = o.mac g ∧
        o.text g = h.load s.pt s.ptlen := by
  rcases lt_or_ge o.ctlen 16 with hlt | hle
  · constructor
    · intro heq
      have hlen := congrArg length heq
      rw [SealCall.output, Heap.load_length, Heap.load_length] at hlen
      omega
    · intro hright
      omega
  have hsplit : g.load o.ct o.ctlen = g.load o.ct (o.ctlen - 16) ++
      g.load (o.ct.add (o.ctlen - 16)) 16 := by
    rw [← Heap.load_add, Nat.sub_add_cancel hle]
  have htext : o.text g = h.load s.pt s.ptlen ↔ g.load o.ct (o.ctlen - 16) =
        gcmText (h.load s.key 16) (h.load s.nonce 12) (h.load s.pt s.ptlen) := by
    rw [OpenCall.text, hkey, hnonce]
    constructor
    · intro heq
      rw [← heq, gcmText_gcmText]
    · intro heq
      rw [heq, gcmText_gcmText]
  rw [hsplit, SealCall.output_eq, htext, OpenCall.mac, hkey, hnonce, haad]
  constructor
  · intro heq
    obtain ⟨hct, htag⟩ := append_inj' heq (by rw [Heap.load_length, gcmTag_length])
    exact ⟨hle, by rw [htag, hct], hct⟩
  · rintro ⟨-, htag, hct⟩
    rw [htag, hct]

/-- What was sealed opens to its plaintext; what is accepted is what sealing gives for the plaintext
returned; what is rejected leaves zeros. -/
theorem gcm_open_seal (hkey : g.load o.key 16 = h.load s.key 16)
    (hnonce : g.load o.nonce 12 = h.load s.nonce 12)
    (haad : g.load o.aad o.aadlen = h.load s.aad s.aadlen) (hap : o.TagApart) :
    (g.load o.ct o.ctlen = s.output h →
      (o.run g).1 = true ∧ (o.run g).2.load o.pt (o.ctlen - 16) = h.load s.pt s.ptlen) ∧
    ((o.run g).1 = true → (o.run g).2.load o.pt (o.ctlen - 16) = h.load s.pt s.ptlen →
      g.load o.ct o.ctlen = s.output h) ∧
    ((o.run g).1 = false → (o.run g).2.load o.pt (o.ctlen - 16) = replicate (o.ctlen - 16) 0) := by
  refine ⟨fun heq => ?_, fun hacc hret => ?_, o.rejects_zero g⟩
  · obtain ⟨hlen, htag, htext⟩ := (input_eq_output_iff hkey hnonce haad).mp heq
    have hacc := (hap.accepts g).mpr ⟨hlen, htag⟩
    exact ⟨hacc, by rw [hap.returns g hacc, htext]⟩
  · obtain ⟨hlen, htag⟩ := (hap.accepts g).mp hacc
    rw [hap.returns g hacc] at hret
    exact (input_eq_output_iff hkey hnonce haad).mpr ⟨hlen, htag, hret⟩

end

section

def sampleSeal : SealCall where
  key := ⟨0, 0⟩
  nonce := ⟨1, 0⟩
  aad := ⟨2, 0⟩
  aadlen := 13
  pt := ⟨3, 0⟩
  ptlen := 20
  ct := ⟨4, 0⟩
  pt_ct := Ptr.apart_of_obj (by decide) _ _
  aad_ct := Ptr.apart_of_obj (by decide) _ _

def sampleOpen : OpenCall where
  key := ⟨0, 0⟩
  nonce := ⟨1, 0⟩
  aad := ⟨2, 0⟩
  aadlen := 13
  ct := ⟨4, 0⟩
  ctlen := 36
  pt := ⟨5, 0⟩
  tag := some ⟨6, 0⟩
  ct_pt := Ptr.apart_of_obj (by decide) _ _
  aad_pt := Ptr.apart_of_obj (by decide) _ _

theorem sampleOpen_tagApart : sampleOpen.TagApart where
  ct p hp := by
    obtain rfl : (⟨6, 0⟩ : Ptr) = p := Option.some.inj hp
    exact Ptr.apart_of_obj (by decide) _ _
  pt p hp := by
    obtain rfl : (⟨6, 0⟩ : Ptr) = p := Option.some.inj hp
    exact Ptr.apart_of_obj (by decide) _ _

def sampleHeap : Heap := ⟨fun p => UInt8.ofNat (p.obj + p.off), []⟩

def sealedHeap : Heap := sampleHeap.write ⟨4, 0⟩ (sampleSeal.output sampleHeap)

theorem sealedHeap_load {p : Ptr} (hp : 4 ≠ p.obj) (n : ℕ) :
    sealedHeap.load p n = sampleHeap.load p n :=
  Heap.load_write_apart (Ptr.apart_of_obj hp _ _)

theorem gcm_open_seal_sample :
    (sampleOpen.run sealedHeap).1 = true ∧
      (sampleOpen.run sealedHeap).2.load ⟨5, 0⟩ 20 = sampleHeap.load ⟨3, 0⟩ 20 :=
  (gcm_open_seal (s := sampleSeal) (o := sampleOpen) (sealedHeap_load (by decide) 16)
    (sealedHeap_load (by decide) 12) (sealedHeap_load (by decide) 13) sampleOpen_tagApart).1
    (Heap.load_write_of_length (Heap.load_length _ _ _))

end

end Vnu.Tls
