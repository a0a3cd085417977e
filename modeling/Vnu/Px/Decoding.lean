import Vnu.Px.Trees

/-!
The decompressor on streams of RFC 1951: what the grammar writes is read back, piece by piece.
-/
namespace Vnu.Px

open Lib Lib.Canonical Rfc1951 List Nat

variable {s total v ext turns pos : ℕ} {all all' all₁ : List ℕ} {out out' data : List UInt8}
  {cbits pad bbits sbits : List Bool}

variable {src : List UInt8} {b : PxBit} {bits : List Bool}

def setAll (ccode : List ℕ) (entries : List (ℕ × ℕ)) : List ℕ :=
  entries.foldl (fun c e => c.set e.1 e.2) ccode

theorem readCcode_eq (cl order ccode : List ℕ) {b : PxBit} (hlength : order.length = cl.length)
    (hlt : ∀ l ∈ cl, l < 2 ^ 3) (h : At src b (cl.flatMap (word 3) ++ bits)) :
    ∃ b', readCcode src order ccode b = .ok (setAll ccode (order.zip cl), b') ∧ At src b' bits := by
  induction cl generalizing order ccode b with
  | nil =>
    rw [length_nil, length_eq_zero_iff] at hlength
    subst hlength
    exact ⟨b, rfl, h⟩
  | cons v cl ih =>
    match order with
    | s :: order =>
      obtain ⟨hv, hrest⟩ := forall_mem_cons.mp hlt
      obtain ⟨b₁, hget, hat, -⟩ := h.get hv
      obtain ⟨b', hread, hat'⟩ := ih order (ccode.set s v) (Nat.succ.inj hlength) hrest hat
      refine ⟨b', ?_, hat'⟩
      simp only [readCcode, hget]
      exact hread

theorem setAll_length (ccode : List ℕ) (entries : List (ℕ × ℕ)) :
    (setAll ccode entries).length = ccode.length := by
  induction entries generalizing ccode with
  | nil => rfl
  | cons e entries ih =>
    exact (ih (ccode.set e.1 e.2)).trans length_set

theorem setAll_getD_of_notMem (ccode order cl : List ℕ) (hs : s ∉ order) :
    (setAll ccode (order.zip cl)).getD s 0 = ccode.getD s 0 := by
  induction order generalizing ccode cl with
  | nil => rfl
  | cons o order ih =>
    match cl with
    | [] => rfl
    | v :: cl =>
      have hne : s ≠ o := fun heq => hs (heq ▸ mem_cons_self)
      have hrest : s ∉ order := fun hmem => hs (mem_cons_of_mem o hmem)
      refine (ih (ccode.set o v) cl hrest).trans ?_
      rw [getD_eq_getElem?_getD, getD_eq_getElem?_getD, getElem?_set_ne (Ne.symm hne)]

theorem setAll_getD (ccode order cl : List ℕ) (hnodup : order.Nodup) (hs : s ∈ order)
    (hlength : order.length = cl.length) (hlt : s < ccode.length) :
    (setAll ccode (order.zip cl)).getD s 0 = cl.getD (order.idxOf s) 0 := by
  induction order generalizing ccode cl with
  | nil => exact absurd hs not_mem_nil
  | cons o order ih =>
    match cl with
    | v :: cl =>
      obtain ⟨hfresh, hrest⟩ := nodup_cons.mp hnodup
      by_cases hso : o = s
      · subst hso
        refine (setAll_getD_of_notMem (ccode.set o v) order cl hfresh).trans ?_
        simp [hlt]
      · have hmem : s ∈ order := (mem_cons.mp hs).resolve_left (Ne.symm hso)
        refine (ih (ccode.set o v) cl hrest hmem (Nat.succ.inj hlength)
          (by rwa [length_set])).trans ?_
        rw [idxOf_cons_ne _ hso, getD_cons_succ]

theorem setAll_clLens (cl : List ℕ) (hlength : cl.length ≤ 19) :
    setAll (replicate 19 0) ((defClorder.take cl.length).zip cl) = clLens cl := by
  have hnodup : (defClorder.take cl.length).Nodup :=
    (by decide : defClorder.Nodup).sublist (take_sublist _ _)
  have htake : (defClorder.take cl.length).length = cl.length := by
    rw [length_take]
    exact min_eq_left hlength
  have hsplit := take_append_drop cl.length defClorder
  have hlens : (setAll (replicate 19 0) ((defClorder.take cl.length).zip cl)).length = 19 := by
    rw [setAll_length, length_replicate]
  apply ext_getElem (hlens.trans (by simp [clLens]))
  intro s hs hs'
  have hvalue : (clLens cl)[s] = cl.getD (defClorder.idxOf s) 0 := by
    simp only [clLens, getElem_map, getElem_range]
    rfl
  rw [hvalue, ← getD_eq_getElem _ 0]
  by_cases hmem : s ∈ defClorder.take cl.length
  · rw [setAll_getD _ _ _ hnodup hmem htake (by rwa [length_replicate])]
    conv_rhs => rw [← hsplit, idxOf_append_of_mem hmem]
  · -- a length that is not written
    rw [setAll_getD_of_notMem _ _ _ hmem, getD_replicate_zero]
    conv_rhs => rw [← hsplit, idxOf_append_of_notMem hmem, htake]
    rw [getD_eq_default _ _ (le_add_right _ _)]

theorem repeatLen_eq (total v k : ℕ) (all : List ℕ) (h : all.length + k ≤ total) :
    repeatLen total v k all = .ok (all ++ replicate k v) := by
  induction k generalizing all with
  | zero => simp [repeatLen]
  | succ k ih =>
    rw [repeatLen, if_neg (by omega), ih (all ++ [v]) (by simp; omega)]
    simp [replicate_succ]

theorem lengths_length_le {cl : List ℕ} {bits : List Bool} (h : Lengths cl all bits all') :
    all.length ≤ all'.length := by
  induction h with
  | done all => exact le_rfl
  | single l hl hcode rest ih | again v ext hv hcode hext rest ih | zeros ext hcode hext rest ih
  | manyZeros ext hcode hext rest ih =>
    exact (by simp : _ ≤ _).trans ih

theorem repeatField_eq {nbits least : ℕ} (hext : ext < 2 ^ nbits)
    (hfits : (all ++ replicate (ext + least) v).length ≤ total)
    (h : At src b (word nbits ext ++ bits)) :
    ∃ b', repeatField src total v nbits least all b =
      .ok (all ++ replicate (ext + least) v, b') ∧ At src b' bits := by
  obtain ⟨b', hget, hat, -⟩ := h.get hext
  refine ⟨b', ?_, hat⟩
  rw [length_append, length_replicate] at hfits
  simp only [repeatField, hget]
  rw [ok_bind]
  simp only [repeatLen_eq total v (ext + least) all hfits]
  rfl

section Lens

variable {cl : List ℕ} {dcl : Trie ℕ}

theorem lensLoop_step {b b₁ b₂ : PxBit}
    (hmore : all.length < total) (hhuff : defHuff src dcl b = .ok (s, b₁))
    (hturn : lensTurn src total s all b₁ = .ok (all₁, b₂)) :
    lensLoop src dcl total (turns + 1) all b = lensLoop src dcl total turns all₁ b₂ := by
  conv_lhs => unfold lensLoop
  rw [if_neg (Nat.not_le.mpr hmore)]
  simp only [hhuff]
  rw [ok_bind]
  simp only [hturn]
  rw [ok_bind]

theorem lensLoop_symbol (hkraft : Kraft cl 7) (hdcl : Holds cl cl.length dcl)
    {tail next : List Bool} {P : List ℕ × PxBit → Prop} {b : PxBit}
    (hcode : len cl s ≠ 0) (hgrow : all.length < all₁.length) (hle : all₁.length ≤ total)
    (hturns : total ≤ all.length + turns) (hat : At src b (code cl s ++ tail))
    (hturn : ∀ b₁, At src b₁ tail →
      ∃ b₂, lensTurn src total s all b₁ = .ok (all₁, b₂) ∧ At src b₂ next)
    (hrest : ∀ turns b₂, total ≤ all₁.length + turns → At src b₂ next →
      ∃ r, lensLoop src dcl total turns all₁ b₂ = .ok r ∧ P r) :
    ∃ r, lensLoop src dcl total turns all b = .ok r ∧ P r := by
  obtain ⟨turns, rfl⟩ : ∃ k, turns = k + 1 := Nat.exists_eq_add_one_of_ne_zero (by omega)
  obtain ⟨b₁, hhuff, hat₁, -⟩ := defHuff_eq hkraft (by norm_num) hdcl hcode hat
  obtain ⟨b₂, hstep, hat₂⟩ := hturn b₁ hat₁
  obtain ⟨r, hloop, hr⟩ := hrest turns b₂ (by omega) hat₂
  refine ⟨r, ?_, hr⟩
  rw [lensLoop_step (hgrow.trans_le hle) hhuff hstep, hloop]

/-- The run-length coded lengths, where a repetition may cross from one code to the other. -/
theorem lensLoop_eq (hkraft : Kraft cl 7) (hdcl : Holds cl cl.length dcl)
    {lbits : List Bool} (h : Lengths cl all lbits all') (turns : ℕ) {b : PxBit}
    (hturns : all'.length ≤ all.length + turns) (hat : At src b (lbits ++ bits)) :
    ∃ r, lensLoop src dcl all'.length turns all b = .ok r ∧ r.1 = all' ∧ At src r.2 bits := by
  induction h generalizing turns b with
  | done all =>
    refine ⟨(all, b), ?_, rfl, hat⟩
    unfold lensLoop
    rw [if_pos le_rfl]
  | single l hl hcode rest ih =>
    rw [append_assoc] at hat
    refine lensLoop_symbol hkraft hdcl hcode (by simp) (lengths_length_le rest) hturns hat ?_
      fun turns b₂ hle hat₂ => ih turns hle hat₂
    intro b₁ hat₁
    exact ⟨b₁, if_pos hl, hat₁⟩
  | again v ext hv hcode hext rest ih =>
    have hle := lengths_length_le rest
    rw [append_assoc] at hat
    refine lensLoop_symbol hkraft hdcl hcode (by simp) hle hturns hat ?_
      fun turns b₂ hle hat₂ => ih turns hle hat₂
    intro b₁ hat₁
    simp only [lensTurn, hv]
    exact repeatField_eq hext hle hat₁
  | zeros ext hcode hext rest ih | manyZeros ext hcode hext rest ih =>
    have hle := lengths_length_le rest
    rw [append_assoc] at hat
    refine lensLoop_symbol hkraft hdcl hcode (by simp) hle hturns hat ?_
      fun turns b₂ hle hat₂ => ih turns hle hat₂
    intro b₁ hat₁
    exact repeatField_eq hext hle hat₁

end Lens

theorem readTrees_eq {lit dist cl : List ℕ} {lens : List Bool} (h : Header lit dist cl lens)
    (hat : At src b (word 5 (lit.length - 257) ++ (word 5 (dist.length - 1) ++
      (word 4 (cl.length - 4) ++ (cl.flatMap (word 3) ++ (lens ++ bits)))))) :
    ∃ dlit ddist b', readTrees src b = .ok (dlit, ddist, b') ∧ Holds lit lit.length dlit ∧
      Holds dist dist.length ddist ∧ At src b' bits := by
  obtain ⟨hlit, hlit'⟩ := h.lit_length
  obtain ⟨hdist, hdist'⟩ := h.dist_length
  obtain ⟨hcl, hcl'⟩ := h.cl_length
  obtain ⟨b₁, hget₁, hat₁, -⟩ := hat.get (by omega)
  obtain ⟨b₂, hget₂, hat₂, -⟩ := hat₁.get (by omega)
  obtain ⟨b₃, hget₃, hat₃, -⟩ := hat₂.get (by omega)
  have hncl : cl.length - 4 + 4 = cl.length := by omega
  have hnlit : lit.length - 257 + 257 = lit.length := by omega
  have hndist : dist.length - 1 + 1 = dist.length := by omega
  have hnall : (lit ++ dist).length = lit.length + dist.length := length_append
  obtain ⟨b₄, hccode, hat₄⟩ := readCcode_eq cl (defClorder.take cl.length) (replicate 19 0)
    (by rw [length_take]; exact min_eq_left hcl') h.cl_lt hat₃
  rw [setAll_clLens cl hcl'] at hccode
  obtain ⟨dcl, hdcl, hholds⟩ := defBuild_holds h.cl_kraft (by norm_num) (by simp [clLens])
  obtain ⟨⟨all, b₅⟩, hlens, hall, hat₅⟩ := lensLoop_eq h.cl_kraft hholds h.lengths
    (lit ++ dist).length (by simp) hat₄
  obtain ⟨dlit, hbuild, hlitHolds⟩ := defBuild_holds h.lit_kraft le_rfl hlit'
  obtain ⟨ddist, hbuild', hdistHolds⟩ := defBuild_holds h.dist_kraft le_rfl (by omega)
  refine ⟨dlit, ddist, b₅, ?_, hlitHolds, hdistHolds, hat₅⟩
  rw [hnall] at hlens
  subst hall
  simp only [readTrees, hget₁, ok_bind, hget₂, hget₃, hncl, hccode, hdcl, hnlit, hndist, hlens,
    take_left, hbuild, drop_left, take_length, hbuild']
  rfl

theorem emit_eq {dcap : ℕ} (v : UInt8) (h : out.length < dcap) :
    emit dcap out v = .ok (out ++ [v]) := if_pos h

theorem repeated_succ (out : List UInt8) (dist k : ℕ) :
    repeated out dist (k + 1) =
      repeated out dist k ++ [out.getD (out.length - dist + k % dist) 0] := by
  simp [repeated, range_succ]

@[simp] theorem repeated_length (out : List UInt8) (dist k : ℕ) :
    (repeated out dist k).length = k := by simp [repeated]

theorem repeated_get {dist : ℕ} (k : ℕ) (hpos : 0 < dist) (hback : dist ≤ out.length) :
    (out ++ repeated out dist k)[out.length - dist + k]? =
      some (out.getD (out.length - dist + k % dist) 0) := by
  by_cases hk : k < dist
  · have hlt : out.length - dist + k < out.length := by omega
    rw [getElem?_append_left hlt, Nat.mod_eq_of_lt hk, getElem?_eq_getElem hlt,
      getD_eq_getElem _ 0 hlt]
  · -- the copy has run into itself
    have hplace : out.length - dist + k = out.length + (k - dist) := by omega
    rw [hplace]
    have hlt : k - dist < k := by omega
    simp [repeated, hlt, ← Nat.mod_eq_sub_mod (Nat.not_lt.mp hk)]

theorem copyBack_eq {dcap dist : ℕ} (hpos : 0 < dist) (hback : dist ≤ out.length)
    (n k : ℕ) (hfits : out.length + k + n ≤ dcap) :
    copyBack dcap n (out.length - dist + k) (out ++ repeated out dist k) =
      .ok (out ++ repeated out dist (k + n)) := by
  induction n generalizing k with
  | zero => rfl
  | succ n ih =>
    have hroom : (out ++ repeated out dist k).length < dcap := by
      rw [length_append, repeated_length]
      omega
    simp only [copyBack, repeated_get k hpos hback, emit_eq _ hroom]
    rw [append_assoc, ← repeated_succ]
    have hnext := ih (k + 1) (by omega)
    rwa [← add_assoc, add_right_comm k 1 n] at hnext

theorem tables_eq :
    (∀ k < 29, defLext.getD k 0 = lengthExtra (257 + k) ∧ defLbase.getD k 0 =
      lengthBase (257 + k)) ∧
      ∀ d < 30, defDext.getD d 0 = distanceExtra d ∧ defDbase.getD d 0 = distanceBase d := by
  decide

theorem distanceBase_pos (d : ℕ) : 0 < distanceBase d := by
  induction d with
  | zero => decide
  | succ d ih => exact lt_of_lt_of_le ih (le_add_right _ _)

section Data

variable {lit dist : List ℕ} {dlit ddist : Trie ℕ} {dcap : ℕ}

theorem defMatch_eq (hkraft : Kraft dist 15) (hddist : Holds dist dist.length ddist)
    {c d dext : ℕ} (hc : 257 ≤ c ∧ c ≤ 285) (hext : ext < 2 ^ lengthExtra c)
    (hd : d < 30) (hdcode : len dist d ≠ 0) (hdext : dext < 2 ^ distanceExtra d)
    (hback : distanceBase d + dext ≤ out.length) (hfits : out.length + (lengthBase c + ext) ≤ dcap)
    (hat : At src b (word (lengthExtra c) ext ++ (code dist d ++
      (word (distanceExtra d) dext ++ bits)))) :
    ∃ b', defMatch src dcap ddist c b out =
      .ok (b', out ++ repeated out (distanceBase d + dext) (lengthBase c + ext)) ∧
        At src b' bits := by
  obtain ⟨hlext, hlbase⟩ := tables_eq.1 (c - 257) (by omega)
  obtain ⟨hdx, hdbase⟩ := tables_eq.2 d hd
  rw [Nat.add_sub_cancel' hc.1] at hlext hlbase
  obtain ⟨b₁, hget, hat₁, -⟩ := hat.get hext
  obtain ⟨b₂, hhuff, hat₂, -⟩ := defHuff_eq hkraft le_rfl hddist hdcode hat₁
  obtain ⟨b₃, hget', hat₃, -⟩ := hat₂.get hdext
  have hpos := distanceBase_pos d
  have hcopy : copyBack dcap (lengthBase c + ext) (out.length - (distanceBase d + dext)) out =
      .ok (out ++ repeated out (distanceBase d + dext) (lengthBase c + ext)) := by
    have hfrom := copyBack_eq (by omega) hback (lengthBase c + ext) 0 (by omega)
    simpa [repeated] using hfrom
  refine ⟨b₃, ?_, hat₃⟩
  have hsym : ¬ 29 ≤ c - 257 := by omega
  have hgood : ¬ (distanceBase d + dext = 0 ∨ out.length < distanceBase d + dext ∨
      dcap - out.length < lengthBase c + ext) := by omega
  simp only [defMatch, if_neg hsym, hlext, hget, ok_bind, hhuff, if_neg (Nat.not_le.mpr hd), hdx,
    hget', hlbase, hdbase, if_neg hgood, hcopy]
  rfl

theorem coded_length_le (h : Coded lit dist out cbits out') : out.length ≤ out'.length := by
  induction h with
  | done out hcode => exact le_rfl
  | literal b hcode rest ih | copy c ext d dext hc hcode hext hd hdcode hdext hback rest ih =>
    exact (by simp : _ ≤ _).trans ih

/-- The symbols of a block, as many turns as it has bits being enough. -/
theorem codesLoop_eq (hlit : Kraft lit 15) (hdlit : Holds lit lit.length dlit)
    (hdist : Kraft dist 15) (hddist : Holds dist dist.length ddist)
    (h : Coded lit dist out cbits out') (turns : ℕ) {b : PxBit} (hturns : cbits.length ≤ turns)
    (hfits : out'.length ≤ dcap) (hat : At src b (cbits ++ bits)) :
    ∃ b', codesLoop src dcap dlit ddist turns b out = .ok (b', out') ∧ At src b' bits := by
  induction h generalizing turns b with
  | done out hcode =>
    rw [code_length] at hturns
    obtain ⟨turns, rfl⟩ : ∃ k, turns = k + 1 := Nat.exists_eq_add_one_of_ne_zero (by omega)
    obtain ⟨b₁, hhuff, hat₁, -⟩ := defHuff_eq hlit le_rfl hdlit hcode hat
    refine ⟨b₁, ?_, hat₁⟩
    simp only [codesLoop, hhuff, ok_bind, if_true]
  | @literal out out' cbits v hcode rest ih =>
    rw [length_append, code_length] at hturns
    rw [append_assoc] at hat
    obtain ⟨turns, rfl⟩ : ∃ k, turns = k + 1 := Nat.exists_eq_add_one_of_ne_zero (by omega)
    obtain ⟨b₁, hhuff, hat₁, -⟩ := defHuff_eq hlit le_rfl hdlit hcode hat
    obtain ⟨b', hloop, hat'⟩ := ih turns (by omega) hfits hat₁
    refine ⟨b', ?_, hat'⟩
    have hroom : out.length < dcap := by
      have hle := coded_length_le rest
      rw [length_append, length_singleton] at hle
      omega
    have hv := v.toNat_lt
    have hne : v.toNat ≠ 256 := by omega
    simp only [codesLoop, hhuff, ok_bind, if_neg hne, if_pos hv, if_neg (Nat.not_le.mpr hroom),
      UInt8.ofNat_toNat, emit_eq v hroom, hloop]
  | @copy out out' cbits c ext d dext hc hcode hext hd hdcode hdext hback rest ih =>
    rw [length_append, code_length, length_append, length_append, length_append] at hturns
    simp only [append_assoc] at hat
    obtain ⟨turns, rfl⟩ : ∃ k, turns = k + 1 := Nat.exists_eq_add_one_of_ne_zero (by omega)
    obtain ⟨b₁, hhuff, hat₁, -⟩ := defHuff_eq hlit le_rfl hdlit hcode hat
    have hroom : out.length + (lengthBase c + ext) ≤ dcap := by
      have hle := coded_length_le rest
      rw [length_append, repeated_length] at hle
      omega
    obtain ⟨b₂, hmatch, hat₂⟩ := defMatch_eq hdist hddist hc hext hd hdcode hdext hback hroom hat₁
    obtain ⟨b', hloop, hat'⟩ := ih turns (by omega) hfits hat₂
    refine ⟨b', ?_, hat'⟩
    have hne : c ≠ 256 := by omega
    have hge : ¬ c < 256 := by omega
    simp only [codesLoop, hhuff, ok_bind, if_neg hne, if_neg hge, hmatch, hloop]

theorem codes_eq (hlit : Kraft lit 15) (hdlit : Holds lit lit.length dlit) (hdist : Kraft dist 15)
    (hddist : Holds dist dist.length ddist)
    (h : Coded lit dist out cbits out') (hfits : out'.length ≤ dcap)
    (hat : At src b (cbits ++ bits)) :
    ∃ b', codes src dcap dlit ddist b out = .ok (b', out') ∧ At src b' bits := by
  have hlength := hat.length
  rw [length_append] at hlength
  exact codesLoop_eq hlit hdlit hdist hddist h _ (by omega) hfits hat

end Data

theorem octets_drop_eight (data : List UInt8) : (octets data).drop 8 = octets (data.drop 1) := by
  cases data with
  | nil => rfl
  | cons b rest =>
    rfl

theorem At.align (h : At src b (pad ++ bits)) (hpad : pad.length < 8)
    (halign : (b.index + pad.length) % 8 = 0) : At src ⟨b.aligned, 0⟩ bits := by
  have hlength := h.length
  have hbit := h.bit_lt
  have heq := h.eq
  unfold PxBit.index at halign hlength
  unfold PxBit.aligned
  by_cases hzero : b.bitpos = 0
  · have hnone : pad.length = 0 := by omega
    rw [length_eq_zero_iff] at hnone
    rw [if_pos hzero]
    rw [hzero, hnone] at heq
    exact ⟨by norm_num, by unfold PxBit.index; simp only; omega, heq⟩
  · have hfill : pad.length = 8 - b.bitpos := by omega
    rw [if_neg hzero]
    refine ⟨by norm_num, by unfold PxBit.index; simp only; omega, ?_⟩
    have hdrop := congrArg (drop pad.length) heq
    rw [drop_left, drop_drop, hfill, Nat.add_sub_cancel' hbit.le, octets_drop_eight,
      drop_drop] at hdrop
    exact hdrop

theorem word_eight_inj {x y : UInt8} (h : word 8 x.toNat = word 8 y.toNat) : x = y := by
  apply UInt8.toNat_inj.mp
  apply Nat.eq_of_testBit_eq
  intro i
  by_cases hi : i < 8
  · have hget := congrArg (fun bits => bits[i]?) h
    simpa [word, hi] using hget
  · have hpow : 2 ^ 8 ≤ 2 ^ i := Nat.pow_le_pow_right (by norm_num) (Nat.not_lt.mp hi)
    rw [Nat.testBit_lt_two_pow (x.toNat_lt.trans_le hpow),
      Nat.testBit_lt_two_pow (y.toNat_lt.trans_le hpow)]

/-- Bytes are determined by their bits. -/
theorem octets_prefix {known : List UInt8} (h : octets data = octets known ++ bits) :
    ∃ rest, data = known ++ rest ∧ octets rest = bits := by
  induction known generalizing data with
  | nil => exact ⟨data, rfl, h⟩
  | cons k known ih =>
    cases data with
    | nil =>
      have hlength := congrArg length h
      rw [length_append, octets_length, octets_length, length_cons] at hlength
      simp only [length_nil] at hlength
      omega
    | cons x data =>
      have hx : word 8 x.toNat ++ octets data = word 8 k.toNat ++ (octets known ++ bits) := h
      obtain ⟨hword, hrest⟩ := append_inj hx (by simp)
      obtain ⟨rest, hdata, hbits⟩ := ih hrest
      exact ⟨rest, by rw [word_eight_inj hword, hdata, cons_append], hbits⟩

theorem word_sixteen (v : ℕ) : word 16 v = octets [UInt8.ofNat v, UInt8.ofNat (v / 2 ^ 8)] := by
  have hlow : ∀ i < 8, (UInt8.ofNat v).toNat.testBit i = v.testBit i := by
    intro i hi
    rw [UInt8.toNat_ofNat', Nat.testBit_mod_two_pow]
    simp [hi]
  have hhigh : ∀ i < 8, (UInt8.ofNat (v / 2 ^ 8)).toNat.testBit i = v.testBit (i + 8) := by
    intro i hi
    rw [UInt8.toNat_ofNat', Nat.testBit_mod_two_pow, Nat.testBit_div_two_pow]
    simp [hi]
  have hsplit : range 16 = range 8 ++ (range 8).map (· + 8) := by decide
  simp only [word]
  rw [hsplit, map_append]
  congr 1
  · exact map_congr_left fun i hi => (hlow i (mem_range.mp hi)).symm
  · exact map_congr_left fun i hi => (hhigh i (mem_range.mp hi)).symm

theorem join_bytes (hv : v < 2 ^ 16) :
    (UInt8.ofNat v).toNat ||| (UInt8.ofNat (v / 2 ^ 8)).toNat <<< 8 = v := by
  rw [UInt8.toNat_ofNat', UInt8.toNat_ofNat', Nat.or_comm,
    ← Nat.shiftLeft_add_eq_or_of_lt (Nat.mod_lt _ (by norm_num))]
  omega

theorem xor_ones (hv : v < 2 ^ 16) : v ^^^ 0xFFFF = 2 ^ 16 - 1 - v := by
  apply Nat.eq_of_testBit_eq
  intro i
  have hsub : 2 ^ 16 - 1 - v = 2 ^ 16 - (v + 1) := by omega
  have hones : (0xFFFF : ℕ) = 2 ^ 16 - 1 := rfl
  rw [hsub, Nat.testBit_two_pow_sub_succ hv, Nat.testBit_xor, hones, Nat.testBit_two_pow_sub_one]
  by_cases hi : i < 16
  · simp [hi]
  · have hpow : 2 ^ 16 ≤ 2 ^ i := Nat.pow_le_pow_right (by norm_num) (Nat.not_lt.mp hi)
    simp [Nat.testBit_lt_two_pow (hv.trans_le hpow)]

theorem byteAt_eq {i : ℕ} {v : UInt8} (h : src[i]? = some v) : byteAt src i = .ok v.toNat := by
  rw [byteAt, h]

theorem wrap32_eq {n : ℕ} (h : n < 2 ^ 32) : wrap32 n = n := Nat.mod_eq_of_lt h

theorem copyStored_eq {dcap : ℕ} (hsmall : src.length < 2 ^ 32) (data rest : List UInt8) (i : ℕ)
    (out : List UInt8) (hdata : src.drop i = data ++ rest)
    (hfits : out.length + data.length ≤ dcap) :
    copyStored src dcap data.length i out = .ok (out ++ data) := by
  induction data generalizing i out with
  | nil => simp [copyStored]
  | cons v data ih =>
    have hget : src[i]? = some v := by
      rw [← head?_drop, hdata]
      rfl
    have hi : i < src.length := (List.getElem?_eq_some_iff.mp hget).1
    have hnext : src.drop (i + 1) = data ++ rest := by
      rw [← tail_drop, hdata]
      rfl
    rw [length_cons] at hfits
    simp only [length_cons, copyStored, wrap32_eq (hi.trans hsmall), byteAt_eq hget, ok_bind,
      UInt8.ofNat_toNat, emit_eq v (show out.length < dcap by omega)]
    rw [ih (i + 1) (out ++ [v]) hnext (by simp; omega), append_assoc]
    rfl

/-- The bits up to the next byte are skipped, and the length stands twice. -/
theorem stored_eq {dcap : ℕ} (hsmall : src.length < 2 ^ 32)
    (hpad : pad.length < 8) (halign : (b.index + pad.length) % 8 = 0) (hlen : data.length < 2 ^ 16)
    (hfits : out.length + data.length ≤ dcap)
    (hat : At src b (pad ++ (word 16 data.length ++ (word 16 (2 ^ 16 - 1 - data.length) ++
      (octets data ++ bits))))) :
    ∃ b', stored src dcap b out = .ok (b', out ++ data) ∧ At src b' bits := by
  have haligned := hat.align hpad halign
  have hstart : octets (src.drop b.aligned) = octets ([UInt8.ofNat data.length,
      UInt8.ofNat (data.length / 2 ^ 8), UInt8.ofNat (2 ^ 16 - 1 - data.length),
      UInt8.ofNat ((2 ^ 16 - 1 - data.length) / 2 ^ 8)] ++ data) ++ bits := by
    have heq := haligned.eq
    rw [drop_zero, word_sixteen, word_sixteen] at heq
    rw [heq]
    simp [octets]
  obtain ⟨rest, hdrop, hrest⟩ := octets_prefix hstart
  have hlength := congrArg length hdrop
  simp only [length_drop, length_append, length_cons] at hlength
  have hget : ∀ (i : ℕ) (v : UInt8), (src.drop b.aligned)[i]? = some v →
      byteAt src (wrap32 (b.aligned + i)) = .ok v.toNat := by
    intro i v hv
    rw [getElem?_drop] at hv
    have hlt := (List.getElem?_eq_some_iff.mp hv).1
    rw [wrap32_eq (hlt.trans hsmall)]
    exact byteAt_eq hv
  have hget0 := hget 0 _ (by rw [hdrop]; rfl)
  rw [add_zero] at hget0
  have hget1 := hget 1 _ (by rw [hdrop]; rfl)
  have hget2 := hget 2 _ (by rw [hdrop]; rfl)
  have hget3 := hget 3 _ (by rw [hdrop]; rfl)
  have hheader : ¬ src.length < wrap32 (b.aligned + 4) := by
    rw [wrap32_eq (by omega)]
    omega
  have hend : wrap32 (b.aligned + 4 + data.length) = b.aligned + 4 + data.length :=
    wrap32_eq (by omega)
  have hbody : ¬ src.length < b.aligned + 4 + data.length := by omega
  have hgood : ¬ (data.length ^^^ 0xFFFF ≠ 2 ^ 16 - 1 - data.length ∨
      dcap - out.length < data.length) := by
    rw [xor_ones hlen]
    omega
  have hcopy := copyStored_eq hsmall data rest (b.aligned + 4) out
    (by rw [← drop_drop, hdrop]; rfl) hfits
  refine ⟨⟨b.aligned + 4 + data.length, 0⟩, ?_, by norm_num, ?_, ?_⟩
  · simp only [stored, if_neg hheader, hget0, hget1, hget2, hget3, ok_bind, join_bytes hlen,
      join_bytes (show 2 ^ 16 - 1 - data.length < 2 ^ 16 by omega), if_neg hgood, if_neg hbody,
      hcopy, hend]
    rfl
  · unfold PxBit.index
    simp only
    omega
  · rw [add_assoc, ← drop_drop, hdrop, ← hrest]
    refine congrArg octets (drop_left' ?_)
    simp only [length_append, length_cons, length_nil]

theorem defFixedLit_eq : defFixedLit = fixedLit := by decide +kernel

theorem fixedLit_kraft : Kraft fixedLit 15 := ⟨by decide +kernel, by decide +kernel⟩

theorem fixedDist_kraft : Kraft fixedDist 15 := ⟨by decide, by decide +kernel⟩

theorem block_length_le (h : Block pos out bbits out') : out.length ≤ out'.length := by
  cases h with
  | stored data pad hpad halign hlen => simp
  | fixed data | dynamic lit dist cl header data => exact coded_length_le data

theorem stream_length_le (h : Stream pos out sbits out') : out.length ≤ out'.length := by
  induction h with
  | last block => exact block_length_le block
  | more block blocks ih => exact (block_length_le block).trans ih

/-- A block in front of the reader, with the bit that says whether it is the last. -/
theorem block_eq {dcap : ℕ} (hsmall : src.length < 2 ^ 32) (fin : Bool)
    (h : Block (b.index + 1) out bbits out') (hfits : out'.length ≤ dcap)
    (hat : At src b (fin :: (bbits ++ bits))) :
    ∃ b', block src dcap b out = .ok (fin, b', out') ∧ At src b' bits := by
  have hinside : ¬ src.length ≤ b.pos := by
    have hlength := hat.length
    rw [length_cons, PxBit.index] at hlength
    omega
  have hfin : fin.toNat.testBit 0 = fin := by cases fin <;> rfl
  have hfield : At src b (word 1 fin.toNat ++ (bbits ++ bits)) := by
    cases fin <;> exact hat
  obtain ⟨b₁, hget, hat₁, hindex⟩ := hfield.get (by cases fin <;> decide)
  cases h with
  | stored data pad hpad halign hlen =>
    rw [append_assoc] at hat₁
    obtain ⟨b₂, htype, hat₂, hindex₂⟩ := hat₁.get (by norm_num)
    rw [length_append] at hfits
    simp only [append_assoc] at hat₂
    obtain ⟨b₃, hstored, hat₃⟩ := stored_eq hsmall hpad (by rw [hindex₂, hindex]; exact halign) hlen
      hfits hat₂
    refine ⟨b₃, ?_, hat₃⟩
    simp only [block, if_neg hinside, hget, ok_bind, htype, hstored, hfin]
    rfl
  | fixed data =>
    rw [append_assoc] at hat₁
    obtain ⟨b₂, htype, hat₂, -⟩ := hat₁.get (by norm_num)
    obtain ⟨dlit, hdlit, hlit⟩ := defBuild_holds fixedLit_kraft le_rfl (by simp [fixedLit])
    obtain ⟨ddist, hddist, hdist⟩ := defBuild_holds fixedDist_kraft le_rfl (by simp [fixedDist])
    obtain ⟨b₃, hcodes, hat₃⟩ := codes_eq fixedLit_kraft hlit fixedDist_kraft hdist data hfits hat₂
    refine ⟨b₃, ?_, hat₃⟩
    rw [← defFixedLit_eq] at hdlit
    simp only [block, if_neg hinside, hget, ok_bind, htype, hdlit, show defBuild defFixedDst =
      .ok ddist from hddist, hcodes, hfin]
    rfl
  | dynamic lit dist cl header data =>
    rw [append_assoc] at hat₁
    obtain ⟨b₂, htype, hat₂, -⟩ := hat₁.get (by norm_num)
    simp only [append_assoc] at hat₂
    obtain ⟨dlit, ddist, b₃, htrees, hlit, hdist, hat₃⟩ := readTrees_eq header hat₂
    obtain ⟨b₄, hcodes, hat₄⟩ :=
      codes_eq header.lit_kraft hlit header.dist_kraft hdist data hfits hat₃
    refine ⟨b₄, ?_, hat₄⟩
    simp only [block, if_neg hinside, hget, ok_bind, htype, htrees, hcodes, hfin]
    rfl

/-- One turn for each block is enough, and a block has a bit at least. -/
theorem blocksLoop_eq {dcap : ℕ} (hsmall : src.length < 2 ^ 32) (h : Stream pos out sbits out')
    (turns : ℕ) {b : PxBit} (hpos : b.index = pos)
    (hturns : sbits.length ≤ turns) (hfits : out'.length ≤ dcap) (hat : At src b (sbits ++ bits)) :
    blocksLoop src dcap turns b out = .ok out' := by
  induction h generalizing turns b with
  | last hblock =>
    rw [length_cons] at hturns
    obtain ⟨turns, rfl⟩ : ∃ k, turns = k + 1 := Nat.exists_eq_add_one_of_ne_zero (by omega)
    subst hpos
    obtain ⟨b', hstep, -⟩ := block_eq hsmall true hblock hfits hat
    simp only [blocksLoop, hstep, ok_bind, if_true]
  | @more pos out out₁ out' bbits rest hblock blocks ih =>
    rw [length_cons, length_append] at hturns
    obtain ⟨turns, rfl⟩ : ∃ k, turns = k + 1 := Nat.exists_eq_add_one_of_ne_zero (by omega)
    subst hpos
    rw [cons_append, append_assoc] at hat
    obtain ⟨b', hstep, hat'⟩ := block_eq hsmall false hblock
      ((stream_length_le blocks).trans hfits) hat
    have hindex : b'.index = b.index + 1 + bbits.length := by
      have hbefore := hat.length
      have hafter := hat'.length
      rw [length_cons, length_append] at hbefore
      omega
    simp only [blocksLoop, hstep]
    exact ih turns hindex (by omega) hfits hat'

theorem defInflate_valid {dcap : ℕ} (hsmall : src.length < 2 ^ 32)
    (h : Valid src data) (hfits : data.length ≤ dcap) (hturns : 8 * src.length ≤ turns) :
    defInflate turns src dcap = .ok data := by
  obtain ⟨sbits, rest, hsplit, hstream⟩ := h
  have hat := At.start src
  have hlength := octets_length src
  rw [hsplit, length_append] at hlength
  rw [hsplit] at hat
  exact blocksLoop_eq hsmall hstream turns rfl (by omega) hfits hat

end Vnu.Px
