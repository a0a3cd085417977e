import Vnu.Fat16.Listing

/-!
Appending to a directory. Room for all new slots is secured first; then they are stored behind the
used ones, and the slot after them is marked as never used.
-/
namespace Vnu.Fat16

open Lib Lib.Links Lib.Blocks List Act Nat

structure Extended (fs : Fs) (v v' : View) (dir : ℕ) (bl ext : List ℕ) : Prop where
  area : Area fs v'.fat dir (bl ++ ext)
  fresh : ∀ x ∈ ext, fs.InRange x ∧ v.fat x = 0
  fat : ∀ x, x ∉ bl ++ ext → v'.fat x = v.fat x
  dat : ∀ x, x ∉ bl ++ ext → v'.dat x = v.dat x
  zero : v'.fat 0 = v.fat 0

section

variable {fs : Fs} {v v' : View} {dir : ℕ} {bl ext : List ℕ}

theorem Extended.refl (h : Area fs v.fat dir bl) : Extended fs v v dir bl [] :=
  ⟨by simpa using h, by simp, fun _ _ => rfl, fun _ _ => rfl, rfl⟩

theorem Extended.edit {v'' : View} (h : Extended fs v v' dir bl ext)
    (h' : Within v' v'' (bl ++ ext)) : Extended fs v v'' dir bl ext := by
  refine ⟨h.area.congr fun x _ => by rw [h'.fat], h.fresh, ?_, ?_, ?_⟩
  · intro x hx
    rw [h'.fat, h.fat x hx]
  · intro x hx
    rw [h'.dat x hx, h.dat x hx]
  · rw [h'.fat, h.zero]

theorem Grown.extended (hdir : dir ≠ 0) (hbl : ∀ x ∈ bl, fs.InRange x) (hhead : dir = bl.headD 0)
    (hne : bl ≠ []) (h : Grown fs v v' bl ext) : Extended fs v v' dir bl ext := by
  have hchain := h.chain hbl
  have hhead' : (bl ++ ext).headD 0 = dir := by
    rw [hhead]
    cases bl with
    | nil => exact absurd rfl hne
    | cons a bl => rfl
  rw [hhead'] at hchain
  have hzero : ∀ x ∈ bl ++ ext, x ≠ 0 := by
    intro x hx
    have := (hchain.range x hx).1
    omega
  have hfat : ∀ x, x ∉ bl ++ ext → v'.fat x = v.fat x := by
    intro x hx
    simp only [mem_append, not_or] at hx
    exact h.fat x hx.2 fun hlast => hx.1 (mem_of_getLast? hlast)
  refine ⟨Or.inr ⟨hdir, hchain⟩, h.fresh, hfat, ?_, ?_⟩
  · intro x hx
    simp only [mem_append, not_or] at hx
    exact h.dat x hx.2
  · exact hfat 0 fun hmem => hzero 0 hmem rfl

theorem Grown.slots (hg : Geometry fs) (h : Grown fs v v' bl ext) (hused : ∀ x ∈ bl, v.fat x ≠ 0) :
    v'.slots fs dir (bl ++ ext) = v.slots fs dir bl ++
      replicate (ext.length * fs.regionSectors dir * 16) fun _ => 0 := by
  have hsame : ∀ x ∈ bl, v'.dat x = v.dat x := by
    intro x hx
    exact h.dat x fun hx' => hused x hx (h.fresh x hx').2
  have hpos := regionSectors_pos hg dir
  have hbytes : 0 < fs.regionBytes dir := by
    rw [Fs.regionBytes]
    omega
  apply ext_getElem
  · rw [length_append, length_replicate, slots_length, slots_length, length_append]
    rw [add_mul, add_mul]
  intro k h1 h2
  funext j
  rw [slots_getElem]
  rw [slots_length, length_append] at h1
  by_cases hk : k < (v.slots fs dir bl).length
  · rw [getElem_append_left hk, slots_getElem]
    have hlt : 32 * k + j < bl.length * fs.regionBytes dir := by
      rw [slots_length] at hk
      rw [area_bytes]
      omega
    rw [flat_append_left hlt, flat_congr hsame hlt]
  rw [getElem_append_right (by omega), getElem_replicate]
  rw [slots_length] at hk
  obtain ⟨i, hi⟩ : ∃ i, 32 * k + j = bl.length * fs.regionBytes dir + i := by
    refine ⟨32 * k + j - bl.length * fs.regionBytes dir, ?_⟩
    rw [area_bytes]
    omega
  have hilt : i < ext.length * fs.regionBytes dir := by
    rw [area_bytes] at hi ⊢
    rw [add_mul] at h1
    omega
  rw [hi, flat_append_right hbytes, flat_eq hilt, h.zero _ (get_mem ext _)]

end

section

variable {fs : Fs} (hg : Geometry fs)
include hg

theorem extendLoop_ends (d : Disk) {dir : ℕ} {bl : List ℕ} (hdir : dir ≠ 0)
    (hc : Chain fs (view fs d).fat dir bl) (want fuel : ℕ) {d₁ : Disk} {ext : List ℕ}
    (h : Grown fs (view fs d) (view fs d₁) bl ext)
    (hfuel : want ≤ (bl ++ ext).length * fs.regionBytes dir + 512 * fuel) :
    (extendLoop fs dir want (fuel + 1) ((bl ++ ext).length * fs.regionBytes dir)).Ends d₁
      (fun total d' => ∃ ext', Grown fs (view fs d) (view fs d') bl ext' ∧
        total = (bl ++ ext').length * fs.regionBytes dir ∧ want ≤ total)
      (fun d' => ∃ ext', Grown fs (view fs d) (view fs d') bl ext' ∧
        bl.length * fs.regionBytes dir < want ∧ (view fs d').Full fs) := by
  have hbytes : fs.regionBytes dir = fs.spc * 512 := by
    simp [Fs.regionBytes, Fs.regionSectors, hdir]
  have hspc := hg.spc_pos
  induction fuel generalizing d₁ ext with
  | zero =>
    unfold extendLoop
    have hno : ¬ (bl ++ ext).length * fs.regionBytes dir < want := by omega
    rw [if_neg hno]
    exact ⟨ext, h, rfl, by omega⟩
  | succ fuel ih =>
    unfold extendLoop
    split
    · rename_i hshort
      have hchain := h.chain hc.range
      have hne : bl ++ ext ≠ [] := fun hnil => hc.ne_nil hdir (append_eq_nil_iff.mp hnil).1
      have hhead : (bl ++ ext).headD 0 = dir := by
        rw [hc.head]
        cases bl with
        | nil => exact absurd rfl (hc.ne_nil hdir)
        | cons a bl => rfl
      rw [hhead] at hchain
      have hlen : (bl ++ ext).length ≠ 0 := fun h0 => hne (eq_nil_of_length_eq_zero h0)
      have hpos : (bl ++ ext).length - 1 < (bl ++ ext).length := by omega
      have hlast : (bl ++ ext).get ⟨(bl ++ ext).length - 1, hpos⟩ = (bl ++ ext).getLastD 0 := by
        rw [getLastD_of_ne_nil hne, get_eq_getElem, getLast_eq_getElem]
      simp only [if_false, ends_bind, ends_query_some (chainLen_eq hg d₁ hchain hne),
        hlen, ends_query_some (chainAt_eq hg d₁ hchain hpos)]
      rw [hlast]
      refine (clusterAlloc_ends hg d₁ (h.last_le hc.range)).mono ?_ ?_
      · rintro c d₂ ⟨hcr, hfree, hview⟩
        have hgrown := h.snoc hg hc.range hcr hfree
        rw [← hview] at hgrown
        have hcount : (bl ++ (ext ++ [c])).length * fs.regionBytes dir =
            (bl ++ ext).length * fs.regionBytes dir + fs.spc * 512 := by
          rw [← append_assoc, length_append, length_singleton, add_mul, one_mul, hbytes]
        have hrec := ih hgrown (by omega)
        rw [hcount] at hrec
        exact hrec
      · rintro d' ⟨rfl, hfull⟩
        refine ⟨ext, h, ?_, hfull⟩
        rw [length_append, add_mul] at hshort
        omega
    · rename_i hno
      exact ⟨ext, h, rfl, by omega⟩

/-- A directory grows by zeroed slots, and fails to only as the root or on a full volume. -/
theorem extendLoop_room (d : Disk) {dir : ℕ} {bl : List ℕ} (h : Area fs (view fs d).fat dir bl)
    (want fuel : ℕ) (hfuel : want ≤ bl.length * fs.regionBytes dir + 512 * fuel) :
    (extendLoop fs dir want (fuel + 1) (bl.length * fs.regionBytes dir)).Ends d
      (fun total d' => ∃ ext z, Extended fs (view fs d) (view fs d') dir bl ext ∧
        (view fs d').slots fs dir (bl ++ ext) =
          (view fs d).slots fs dir bl ++ replicate z (fun _ => 0) ∧
        total = 32 * ((view fs d').slots fs dir (bl ++ ext)).length ∧ want ≤ total)
      (fun d' => ∃ ext z, Extended fs (view fs d) (view fs d') dir bl ext ∧
        (view fs d').slots fs dir (bl ++ ext) =
          (view fs d).slots fs dir bl ++ replicate z (fun _ => 0) ∧
        bl.length * fs.regionBytes dir < want ∧ (dir = 0 ∨ (view fs d').Full fs)) := by
  have hlen : ∀ (v : View) (l : List ℕ),
      l.length * fs.regionBytes dir = 32 * (v.slots fs dir l).length := by
    intro v l
    rw [slots_length, area_bytes]
    omega
  have hnil : (view fs d).slots fs dir (bl ++ []) =
      (view fs d).slots fs dir bl ++ replicate 0 (fun _ => 0) := by
    simp
  by_cases hdir : dir = 0
  · unfold extendLoop
    split
    · rename_i hshort
      exact ⟨[], 0, Extended.refl h, hnil, hshort, Or.inl hdir⟩
    · rename_i hno
      refine ⟨[], 0, Extended.refl h, hnil, ?_, by omega⟩
      rw [append_nil]
      exact hlen _ _
  obtain ⟨h0, -⟩ | ⟨-, hc⟩ := h
  · exact absurd h0 hdir
  have hgrown : ∀ d' ext, Grown fs (view fs d) (view fs d') bl ext →
      Extended fs (view fs d) (view fs d') dir bl ext ∧
      (view fs d').slots fs dir (bl ++ ext) = (view fs d).slots fs dir bl ++
        replicate (ext.length * fs.regionSectors dir * 16) (fun _ => 0) := by
    intro d' ext hgr
    exact ⟨hgr.extended hdir hc.range hc.head (hc.ne_nil hdir), hgr.slots hg fun x hx => hc.used hx⟩
  have hstart : Grown fs (view fs d) (view fs d) bl [] := Grown.refl hc.links
  have hloop := extendLoop_ends hg d hdir hc want fuel hstart (by simpa using hfuel)
  rw [append_nil] at hloop
  refine hloop.mono ?_ ?_
  · rintro total d' ⟨ext, hgr, rfl, hwant⟩
    obtain ⟨hext, hs⟩ := hgrown d' ext hgr
    exact ⟨ext, _, hext, hs, hlen _ _, hwant⟩
  · rintro d' ⟨ext, hgr, hshort, hfull⟩
    obtain ⟨hext, hs⟩ := hgrown d' ext hgr
    exact ⟨ext, _, hext, hs, hshort, Or.inr hfull⟩

theorem writeEntries_ends {dir : ℕ} {bl : List ℕ} (es : List Slot) (d : Disk) (k : ℕ)
    (h : Area fs (view fs d).fat dir bl)
    (hk : k + es.length ≤ ((view fs d).slots fs dir bl).length) :
    (writeEntries fs dir (32 * k) es).Ends d
      (fun _ d' => Within (view fs d) (view fs d') bl ∧ (view fs d').slots fs dir bl =
        ((view fs d).slots fs dir bl).take k ++ es ++
          ((view fs d).slots fs dir bl).drop (k + es.length))
      fun _ => False := by
  induction es generalizing d k with
  | nil =>
    refine Ends.of_eq_some rfl ⟨Within.refl _ _, ?_⟩
    simp
  | cons e es ih =>
    simp only [length_cons] at hk
    simp only [writeEntries, ends_bind]
    refine (editSlot_ends hg d h (by omega) fun _ => e).imp ?_
    rintro _ d₁ ⟨hw, hs⟩
    have h₁ : Area fs (view fs d₁).fat dir bl := h.congr fun x _ => by rw [hw.fat]
    refine (ih d₁ (k + 1) h₁ ?_).imp ?_
    · rw [hs, length_set]
      omega
    rintro _ d₂ ⟨hw₂, hs₂⟩
    refine ⟨hw.trans hw₂, ?_⟩
    rw [hs₂, hs, take_set, drop_set_of_lt (by omega), take_succ_eq_append_getElem
      (by omega)]
    have hset : ((((view fs d).slots fs dir bl).take k) ++
        [((view fs d).slots fs dir bl)[k]]).set k e =
        (((view fs d).slots fs dir bl).take k) ++ [e] := by
      rw [set_append_right _ _ (by simp)]
      simp [show min k ((view fs d).slots fs dir bl).length = k by omega]
    rw [hset]
    have hidx : k + 1 + es.length = k + (e :: es).length := by
      simp only [length_cons]
      omega
    rw [hidx]
    simp

/-- The slots land behind the used ones, and an end mark behind them where there is room. -/
theorem writeTail_ends (d : Disk) {dir : ℕ} {bl : List ℕ} {used room es : List Slot}
    (h : Area fs (view fs d).fat dir bl) (hslots : (view fs d).slots fs dir bl = used ++ room)
    (hroom : es.length ≤ room.length) :
    (do
      writeEntries fs dir (32 * used.length) es
      if 32 * used.length + es.length * 32 + 32 ≤ 32 * ((view fs d).slots fs dir bl).length then
        editSlot fs dir (32 * used.length + es.length * 32) Slot.ended
      else pure () : Act Disk Unit).Ends d
      (fun _ d' => ∃ rest, Within (view fs d) (view fs d') bl ∧
        (view fs d').slots fs dir bl = used ++ es ++ rest ∧ Ended rest)
      fun _ => False := by
  have hlen : ((view fs d).slots fs dir bl).length = used.length + room.length := by
    rw [hslots, length_append]
  rw [ends_bind]
  refine (writeEntries_ends hg es d used.length h (by omega)).imp ?_
  rintro _ d₁ ⟨hw, hs⟩
  have hs' : (view fs d₁).slots fs dir bl = used ++ es ++ room.drop es.length := by
    rw [hs, hslots]
    simp
  split
  · rename_i hfit
    have hpos : 32 * used.length + es.length * 32 = 32 * (used.length + es.length) := by omega
    have hk : used.length + es.length < ((view fs d₁).slots fs dir bl).length := by
      rw [hs', length_append, length_append, length_drop]
      omega
    have h₁ : Area fs (view fs d₁).fat dir bl := h.congr fun x _ => by rw [hw.fat]
    rw [hpos]
    refine (editSlot_ends hg d₁ h₁ hk Slot.ended).imp ?_
    rintro _ d₂ ⟨hw₂, hs₂⟩
    obtain ⟨e, rest, hrest⟩ : ∃ e rest, room.drop es.length = e :: rest := by
      apply exists_cons_of_length_pos
      rw [length_drop]
      omega
    refine ⟨e.ended :: rest, hw.trans hw₂, ?_, ?_⟩
    · simp only [hs₂, hs', hrest]
      simp
    · intro x hx
      simp only [head?_cons, Option.mem_def, Option.some.injEq] at hx
      subst hx
      rfl
  · refine ⟨room.drop es.length, hw, hs', ?_⟩
    have hnil : room.drop es.length = [] := drop_eq_nil_of_le (by omega)
    rw [hnil]
    intro x hx
    cases hx

omit hg in
theorem ended_append {tail : List Slot} (h : Ended tail) (z : ℕ) :
    Ended (tail ++ replicate z fun _ => 0) := by
  intro e he
  cases tail with
  | nil =>
    have := mem_of_mem_head? he
    rw [eq_of_mem_replicate this]
  | cons a tail => exact h e he

/-- On success the slots stand behind the used ones. It fails only when they do not fit and the
directory cannot grow. -/
theorem dirAppend_ends (d : Disk) {dir : ℕ} {bl : List ℕ} {used tail es : List Slot}
    (h : Area fs (view fs d).fat dir bl) (hslots : (view fs d).slots fs dir bl = used ++ tail)
    (hused : ∀ e ∈ used, e 0 ≠ 0) (htail : Ended tail) :
    (dirAppend fs dir es).Ends d
      (fun _ d' => ∃ ext rest, Extended fs (view fs d) (view fs d') dir bl ext ∧
        (view fs d').slots fs dir (bl ++ ext) = used ++ es ++ rest ∧ Ended rest)
      (fun d' => ∃ ext rest, Extended fs (view fs d) (view fs d') dir bl ext ∧
        (view fs d').slots fs dir (bl ++ ext) = used ++ rest ∧ Ended rest ∧
        tail.length < es.length ∧ (dir = 0 ∨ (view fs d').Full fs)) := by
  have htotal := dirTotalBytes_slots hg d h
  have hne : dirTotalBytes fs dir d ≠ 0 := by
    have hpos := regionSectors_pos hg dir
    have hbl : 0 < bl.length := length_pos_iff.mpr h.ne_nil
    have := Nat.mul_pos hbl hpos
    rw [htotal, slots_length]
    omega
  have hend : endLoop fs dir (dirTotalBytes fs dir d) d (dirTotalBytes fs dir d / 32 + 1) 0 =
      some (32 * used.length) := by
    refine endLoop_eq hg d h hslots hused htail _ 0 (zero_le _) ?_
    rw [htotal, hslots, length_append]
    omega
  have hbytes : dirTotalBytes fs dir d = bl.length * fs.regionBytes dir := dirTotalBytes_eq hg d h
  rw [hbytes] at hne hend
  simp only [dirAppend, ends_bind, ends_query_total, hbytes, hne, if_false,
    ends_query_some (f := fun d => endLoop fs dir (bl.length * fs.regionBytes dir) d _ 0) hend]
  refine (extendLoop_room hg d h _ _ ?_).mono ?_ ?_
  · rw [← hbytes, htotal, hslots, length_append]
    omega
  · rintro total d₁ ⟨ext, z, hext, hs, rfl, hwant⟩
    rw [hslots, append_assoc] at hs
    have hroom : es.length ≤ (tail ++ replicate z fun _ =>
      (0 : UInt8) : List Slot).length := by
      rw [hs, length_append] at hwant
      omega
    refine ends_bind.mp ((writeTail_ends hg d₁ hext.area hs hroom).imp ?_)
    rintro _ d₂ ⟨rest, hw, hs₂, hrest⟩
    exact ⟨ext, rest, hext.edit hw, hs₂, hrest⟩
  · rintro d₁ ⟨ext, z, hext, hs, hshort, hwhy⟩
    rw [hslots, append_assoc] at hs
    refine ⟨ext, _, hext, hs, ended_append htail z, ?_, hwhy⟩
    rw [← hbytes, htotal, hslots, length_append] at hshort
    omega

end

end Vnu.Fat16
