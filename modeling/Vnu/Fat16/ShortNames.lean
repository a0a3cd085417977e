import Mathlib.Data.List.TakeWhile
import Vnu.Fat16.Edits

/-!
Every short name the driver stores is upper case and printable. A name that fits 8.3 with one case
per part is read back as it was, but for a dot at its end.
-/
namespace Vnu.Fat16

open List

variable {cs : List UInt8} {s : Short}

def SfnByte (c : UInt8) : Prop := 0x20 ≤ c ∧ c < 0x80 ∧ isLower c = false

instance (c : UInt8) : Decidable (SfnByte c) := inferInstanceAs (Decidable (_ ∧ _))

theorem sfnByte_space : SfnByte 0x20 := ⟨by decide, by decide, by decide⟩

theorem sfnByte_upper (c : UInt8) : SfnByte (upper (if sfnCharOk c then c else 0x5F)) := by
  grind [SfnByte, upper, isLower, sfnCharOk]

theorem shortPart_length (width : ℕ) (cs : List UInt8) : (shortPart width cs).length = width := by
  rw [shortPart, length_rightpad, length_take]
  omega

theorem rightpad_bytes {n : ℕ} (h : ∀ c ∈ cs, SfnByte c) : ∀ c ∈ cs.rightpad n 0x20, SfnByte c := by
  intro c hc
  rw [rightpad, mem_append] at hc
  obtain hc | hc := hc
  · exact h c hc
  · rw [eq_of_mem_replicate hc]
    exact sfnByte_space

theorem shortPart_bytes (width : ℕ) (cs : List UInt8) : ∀ c ∈ shortPart width cs, SfnByte c := by
  apply rightpad_bytes
  intro c hc
  obtain ⟨b, -, rfl⟩ := mem_map.mp (mem_of_mem_take hc)
  exact sfnByte_upper b

theorem decimal_bytes (fuel m : ℕ) : ∀ c ∈ decimal fuel m, SfnByte c := by
  induction fuel generalizing m with
  | zero => simp [decimal]
  | succ fuel ih =>
    intro c hc
    rw [decimal, mem_append, mem_singleton] at hc
    obtain hc | rfl := hc
    · split at hc
      · cases hc
      · exact ih _ c hc
    · have hdigit : ∀ k < 10, SfnByte (UInt8.ofNat (48 + k)) := by decide
      exact hdigit (m % 10) (Nat.mod_lt _ (by decide))

theorem candidate_length (h : s.ext.length = 3) (n : ℕ) : (candidate s n).length = 11 := by
  simp only [candidate, length_append, length_rightpad, length_take]
  omega

theorem candidate_bytes (hbase : ∀ c ∈ s.base, SfnByte c)
    (hext : ∀ c ∈ s.ext, SfnByte c) (n : ℕ) : ∀ c ∈ candidate s n, SfnByte c := by
  intro c hc
  rw [candidate, mem_append] at hc
  obtain hc | hc := hc
  · refine rightpad_bytes ?_ c hc
    intro b hb
    have hb := mem_of_mem_take hb
    rw [mem_append, mem_cons] at hb
    obtain hb | rfl | hb := hb
    · split at hb
      · rw [mem_singleton] at hb
        rw [hb]
        decide
      · exact hbase b (takeWhile_subset _ (mem_of_mem_take hb))
    · decide
    · exact decimal_bytes _ _ b hb
  · exact hext c hc

theorem uniqueLoop_cases (fs : Fs) (dir : ℕ) (s : Short) (d : Disk) (fuel n : ℕ) :
    uniqueLoop fs dir s d fuel n = s.base ++ s.ext ∨
      ∃ m, n ≤ m ∧ m < n + fuel ∧ uniqueLoop fs dir s d fuel n = candidate s m ∧
        dirHasSfn fs dir (candidate s m) d = false := by
  induction fuel generalizing n with
  | zero => exact Or.inl rfl
  | succ fuel ih =>
    rw [uniqueLoop]
    split
    · obtain heq | ⟨m, hlo, hhi, heq, hfree⟩ := ih (n + 1)
      · exact Or.inl heq
      · exact Or.inr ⟨m, by omega, by omega, heq, hfree⟩
    · rename_i hno
      exact Or.inr ⟨n, le_rfl, by omega, rfl, by simpa using hno⟩

section

variable (fs : Fs) (dir : ℕ) (name : List UInt8) (d : Disk)

theorem newSfn_cases : newSfn fs dir name d = (buildShort name).base ++ (buildShort name).ext ∨
    ∃ n, newSfn fs dir name d = candidate (buildShort name) n := by
  rw [newSfn]
  split
  · exact Or.inl rfl
  · obtain h | ⟨n, -, -, h, -⟩ := uniqueLoop_cases fs dir (buildShort name) d 999999 1
    · exact Or.inl h
    · exact Or.inr ⟨n, h⟩

theorem newSfn_length : (newSfn fs dir name d).length = 11 := by
  obtain h | ⟨n, h⟩ := newSfn_cases fs dir name d
  · rw [h, length_append]
    simp only [buildShort, shortPart_length]
  · rw [h]
    exact candidate_length (by simp only [buildShort, shortPart_length]) n

theorem newSfn_bytes : ∀ c ∈ newSfn fs dir name d, SfnByte c := by
  have hbase : ∀ c ∈ (buildShort name).base, SfnByte c := by
    simpa [buildShort] using shortPart_bytes 8 _
  have hext : ∀ c ∈ (buildShort name).ext, SfnByte c := by
    simpa [buildShort] using shortPart_bytes 3 _
  obtain h | ⟨n, h⟩ := newSfn_cases fs dir name d
  · rw [h]
    intro c hc
    obtain hc | hc := mem_append.mp hc
    · exact hbase c hc
    · exact hext c hc
  · rw [h]
    exact candidate_bytes hbase hext n

end

section

variable {sfn : List UInt8} (hlen : sfn.length = 11) (attr nt : UInt8) (cluster size : ℕ)

include hlen in
theorem shortSlot_bytes : (shortSlot sfn attr nt cluster size).bytes 0 11 = sfn := by
  apply ext_getElem
  · simp [Slot.bytes, hlen]
  intro i h1 h2
  simp only [Slot.bytes, getElem_map, getElem_range, Nat.zero_add]
  have hlt : Fin.ofNat 32 i < 11 := by
    rw [Fin.lt_def]
    simp only [Fin.val_ofNat]
    omega
  have hval : (Fin.ofNat 32 i).val = i := by
    simp only [Fin.val_ofNat]
    omega
  rw [shortSlot, if_pos hlt, hval]
  simp [h2]

theorem shortSlot_cluster : (shortSlot sfn attr nt cluster size).cluster = cluster % 65536 := by
  simp only [Slot.cluster, shortSlot]
  simp
  omega

theorem shortSlot_size : (shortSlot sfn attr nt cluster size).size = size % 2 ^ 32 := by
  simp only [Slot.size, shortSlot]
  simp
  omega

end

theorem lastDot_none {name : List UInt8} (h : lastDot name = none) : 0x2E ∉ name := by
  induction name with
  | nil => simp
  | cons c cs ih =>
    rw [lastDot] at h
    cases hcs : lastDot cs with
    | some i => simp [hcs] at h
    | none =>
      simp only [hcs, ite_eq_right_iff, reduceCtorEq] at h
      rw [mem_cons, not_or]
      exact ⟨fun hc => h hc.symm, ih hcs⟩

theorem lastDot_some {name : List UInt8} {i : ℕ} (h : lastDot name = some i) :
    name = name.take i ++ 0x2E :: name.drop (i + 1) ∧ 0x2E ∉ name.drop (i + 1) := by
  induction name generalizing i with
  | nil => cases h
  | cons c cs ih =>
    rw [lastDot] at h
    cases hcs : lastDot cs with
    | some j =>
      simp only [hcs, Option.some.injEq] at h
      subst h
      simpa using ih hcs
    | none =>
      simp only [hcs] at h
      split at h
      · rename_i hc
        cases h
        simpa [hc] using lastDot_none hcs
      · cases h

def nativeName (name : List UInt8) : List UInt8 :=
  (splitName name).1 ++ if (splitName name).2 = [] then [] else 0x2E :: (splitName name).2

theorem nativeName_parts (base : List UInt8) {ext : List UInt8} (hno : 0x2E ∉ ext) :
    (base ++ if ext = [] then [] else 0x2E :: ext) =
      if (base ++ 0x2E :: ext).getLast? = some 0x2E then (base ++ 0x2E :: ext).dropLast
      else base ++ 0x2E :: ext := by
  by_cases hext : ext = []
  · simp [hext]
  have hlast : (base ++ 0x2E :: ext).getLast? ≠ some 0x2E := by
    rw [getLast?_append_cons, getLast?_cons, getLast?_eq_some_getLast hext]
    intro heq
    exact hno (Option.some.inj heq ▸ getLast_mem hext)
  rw [if_neg hext, if_neg hlast]

theorem nativeName_eq (name : List UInt8) :
    nativeName name = if name.getLast? = some 0x2E then name.dropLast else name := by
  rw [nativeName, splitName]
  cases hdot : lastDot name with
  | none =>
    have hno := lastDot_none hdot
    have hlast : name.getLast? ≠ some 0x2E := fun h => hno (mem_of_getLast? h)
    simp [hlast]
  | some i =>
    obtain ⟨hname, hno⟩ := lastDot_some hdot
    have hparts := nativeName_parts (name.take i) hno
    rwa [← hname] at hparts

theorem sfnPart_shortPart {width : ℕ} (hfits : partFits width cs = true)
    (hcase : mixedCase cs = false) : sfnPart (shortPart width cs) (onlyLower cs) = cs := by
  rw [partFits, Bool.and_eq_true, all_eq_true] at hfits
  obtain ⟨hok, hlen⟩ := hfits
  have hpart : shortPart width cs = cs.map upper ++ replicate (width - cs.length) 0x20 := by
    have hmap : cs.map (fun c => upper (if sfnCharOk c then c else 0x5F)) = cs.map upper :=
      map_congr_left fun c hc => by rw [if_pos (hok c hc)]
    rw [shortPart, hmap, take_of_length_le (by simpa using hlen), rightpad, length_map]
  have hstop : (cs.map upper ++ replicate (width - cs.length) 0x20).takeWhile
      (fun c => c != 0x20) = cs.map upper := by
    rw [takeWhile_append_of_pos]
    · simp
    · intro c hc
      grind [upper, isLower, sfnCharOk]
  rw [sfnPart, hpart, hstop, map_map]
  refine (map_congr_left fun c hc => ?_).trans (map_id cs)
  -- Either no character is in upper case and the bit is set, or none is in lower case.
  simp only [mixedCase, onlyLower] at hcase ⊢
  grind [upper, isLower, isUpper]

theorem cstr_eq (h : 0 ∉ cs) : cstr cs = cs := by
  rw [cstr, takeWhile_eq_self_iff]
  intro c hc
  have hne : c ≠ 0 := fun h0 => h (h0 ▸ hc)
  simpa using hne

/-- The stored 8.3 form of a native name gives back the name, but for a dot at its end. -/
theorem buildSfnName_native {name : List UInt8} (h : isNative name = true) (attr : UInt8)
    (cluster size : ℕ) :
    buildSfnName (shortSlot ((buildShort name).base ++ (buildShort name).ext) attr
      (buildShort name).nt cluster size) = nativeName name := by
  obtain ⟨base, ext, hsplit⟩ : ∃ base ext, splitName name = (base, ext) := ⟨_, _, rfl⟩
  simp only [isNative, buildShort, hsplit, Bool.and_eq_true, Bool.not_eq_true'] at h
  obtain ⟨⟨⟨hbase, -⟩, hext⟩, hcase, hcase'⟩ := h
  have hlen : (shortPart 8 base ++ shortPart 3 ext).length = 11 := by
    rw [length_append, shortPart_length, shortPart_length]
  simp only [buildShort, nativeName, hsplit]
  generalize hnt : (if onlyLower base then (0x08 : UInt8) else 0) |||
    (if onlyLower ext then 0x10 else 0) = nt
  generalize he : shortSlot (shortPart 8 base ++ shortPart 3 ext) attr nt cluster size = e
  have hbytes : (e 0 :: e.bytes 1 7) ++ e.bytes 8 3 = shortPart 8 base ++ shortPart 3 ext := by
    rw [← he]
    exact shortSlot_bytes hlen attr nt cluster size
  obtain ⟨hcols, hcols'⟩ := append_inj hbytes (by
    rw [shortPart_length]
    rfl)
  have hfirst : e 0 ≠ 0x05 := by
    have hb : SfnByte (e 0) := shortPart_bytes 8 base _ (hcols ▸ mem_cons_self)
    intro h5
    rw [h5] at hb
    revert hb
    decide
  have hlow : (e 12 &&& 0x08 != 0) = onlyLower base ∧ (e 12 &&& 0x10 != 0) = onlyLower ext := by
    have h12 : e 12 = nt := by
      rw [← he]
      rfl
    rw [h12, ← hnt]
    cases onlyLower base <;> cases onlyLower ext <;> decide
  rw [buildSfnName, if_neg hfirst, hcols, hcols', hlow.1, hlow.2, sfnPart_shortPart hbase hcase,
    sfnPart_shortPart hext hcase']
  apply cstr_eq
  have hok : ∀ width cs, partFits width cs = true → (0 : UInt8) ∉ cs := by
    intro width cs hfits h0
    rw [partFits, Bool.and_eq_true, all_eq_true] at hfits
    exact absurd (hfits.1 0 h0) (by decide)
  split
  · simpa using hok 8 base hbase
  · simpa using ⟨hok 8 base hbase, hok 3 ext hext⟩

end Vnu.Fat16
