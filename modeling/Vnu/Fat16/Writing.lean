import Vnu.Fat16.Staging

/-!
`write` on a volume that holds a layout. It fails when the volume is full, and when its end is
within a cluster of 4 GiB, where the number of clusters wraps to zero.
-/
namespace Vnu.Fat16

open Lib Lib.Blocks Lib.Overlay List Act Nat

variable {n off first : ℕ} {buf name : List UInt8} {ev : Entry}

section

variable {fs : Fs} {v v' : View} {l : List ℕ}

theorem bytes_length (v : View) (fs : Fs) (l : List ℕ) (n : ℕ) : (v.bytes fs l n).length = n := by
  rw [View.bytes, length_map, length_range]

theorem bytes_getElem? {v : View} {fs : Fs} {l : List ℕ} {i : ℕ} (hi : i < n) :
    (v.bytes fs l n)[i]? = some (flat v.dat fs.cb l i) := by
  rw [View.bytes, getElem?_map, getElem?_range hi]
  rfl

theorem Grown.bytes {new : List ℕ} (h : Grown fs v v' l new) (hcb : 0 < fs.cb)
    (hused : ∀ x ∈ l, v.fat x ≠ 0) :
    v'.bytes fs (l ++ new) ((l ++ new).length * fs.cb) =
      v.bytes fs l (l.length * fs.cb) ++ replicate (new.length * fs.cb) 0 := by
  have hsame : ∀ x ∈ l, v'.dat x = v.dat x := by
    intro x hx
    exact h.dat x fun hx' => hused x hx (h.fresh x hx').2
  have hlen : (l ++ new).length * fs.cb = l.length * fs.cb + new.length * fs.cb := by
    rw [length_append, add_mul]
  apply ext_getElem?
  intro i
  by_cases hi : i < l.length * fs.cb
  · rw [getElem?_append_left (by rwa [bytes_length]), bytes_getElem? hi,
      bytes_getElem? (by omega), flat_append_left hi, flat_congr hsame hi]
  rw [getElem?_append_right (by rw [bytes_length]; omega), bytes_length]
  by_cases hi' : i < (l ++ new).length * fs.cb
  · obtain ⟨k, rfl⟩ : ∃ k, i = l.length * fs.cb + k := ⟨i - l.length * fs.cb, by omega⟩
    have hk : k < new.length * fs.cb := by omega
    rw [bytes_getElem? hi', flat_append_right hcb, flat_eq hk, h.zero _ (get_mem new _),
      Nat.add_sub_cancel_left, getElem?_replicate_of_lt hk]
  · rw [getElem?_eq_none (by rw [bytes_length]; omega), getElem?_eq_none
      (by rw [length_replicate]; omega)]

theorem Stored.bytes {len : ℕ} {src : Buf} (h : Stored fs.cb v v' l off len src)
    (hroom : off + len ≤ l.length * fs.cb) :
    v'.bytes fs l (l.length * fs.cb) =
      overlay (v.bytes fs l (l.length * fs.cb)) off ((range len).map src) := by
  have hlen : ((range len).map src).length = len := by
    rw [length_map, length_range]
  apply ext_getElem?
  intro i
  rw [overlay_getElem? (by rwa [hlen, bytes_length]), hlen]
  by_cases hi : i < l.length * fs.cb
  · rw [bytes_getElem? hi, bytes_getElem? hi, h.byte i hi]
    split
    · rw [getElem?_map, getElem?_range (by omega)]
      rfl
    · rfl
  · rw [getElem?_eq_none (by rw [bytes_length]; omega), if_neg (by omega),
      getElem?_eq_none (by rw [bytes_length]; omega)]

end

section

variable {fs : Fs} (hg : Geometry fs)
include hg

theorem Chain.bytes_lt {f : ℕ → ℕ} {l : List ℕ} (h : Chain fs f first l) :
    l.length * fs.cb + fs.cb < 2 ^ 32 := by
  have h1 := h.length_le hg
  have h2 := hg.max_le
  have h3 := hg.cb_le
  calc l.length * fs.cb + fs.cb = (l.length + 1) * fs.cb := by rw [add_mul, one_mul]
    _ ≤ 0xFFF3 * 65536 := Nat.mul_le_mul (by omega) h3
    _ < 2 ^ 32 := by decide

theorem le_clustersFor (h : n + fs.cb ≤ 2 ^ 32) : n ≤ fs.clustersFor n * fs.cb := by
  have hcb := hg.cb_pos
  rw [Fs.clustersFor, Nat.mod_eq_of_lt (by omega)]
  have hdiv := Nat.div_add_mod' (n + fs.cb - 1) fs.cb
  have hmod := Nat.mod_lt (n + fs.cb - 1) hcb
  omega

omit hg in
theorem clustersFor_wrap (h : 2 ^ 32 < n + fs.cb) (hn : n < 2 ^ 32) : fs.clustersFor n = 0 := by
  apply Nat.div_eq_of_lt
  omega

theorem store_ends (d : Disk) {size : ℕ} {l : List ℕ}
    (hbuf : buf ≠ []) (hchain : Chain fs (view fs d).fat first l)
    (hzero : (view fs d).fat 0 = 0xFFF8) :
    (do
      zeroGap fs first size off
      rangeWrite fs first off (fun i => buf.getD i 0) buf.length : Act Disk Unit).Ends d
      (fun _ d' => off + buf.length ≤ l.length * fs.cb ∧ Within (view fs d) (view fs d') l ∧
        (view fs d').bytes fs l (l.length * fs.cb) =
          overlay (fill 0 ((view fs d).bytes fs l (l.length * fs.cb)) size off) off buf)
      (fun d' => l.length * fs.cb < off + buf.length ∧ Within (view fs d) (view fs d') l) := by
  have hpos : 0 < buf.length := length_pos_iff.mpr hbuf
  have hgap : (zeroGap fs first size off).Ends d
      (fun _ d' => Within (view fs d) (view fs d') l ∧ (off ≤ l.length * fs.cb →
        (view fs d').bytes fs l (l.length * fs.cb) =
          fill 0 ((view fs d).bytes fs l (l.length * fs.cb)) size off))
      (fun d' => l.length * fs.cb < off ∧ Within (view fs d) (view fs d') l) := by
    unfold zeroGap fill
    split
    · refine (rangeWrite_ends hg d _ hchain hzero (by omega)).mono ?_ ?_
      · rintro _ d' ⟨hroom, hst⟩
        refine ⟨hst.within, fun _ => ?_⟩
        rw [hst.bytes hroom]
        congr 1
        rw [map_const', length_range]
      · rintro d' ⟨hshort, hw⟩
        exact ⟨by omega, hw⟩
    · exact ⟨Within.refl _ _, fun _ => rfl⟩
  rw [ends_bind]
  refine hgap.mono ?_ ?_
  · rintro _ d₁ ⟨hw, hfill⟩
    have hchain₁ : Chain fs (view fs d₁).fat first l := hchain.congr fun x _ => by rw [hw.fat]
    refine (rangeWrite_ends hg d₁ _ hchain₁ (by rwa [hw.fat]) hpos).mono ?_ ?_
    · rintro _ d' ⟨hroom, hst⟩
      refine ⟨hroom, hw.trans hst.within, ?_⟩
      have hsrc : (range buf.length).map (fun i => buf.getD i 0) = buf := by
        apply ext_getElem
        · simp
        · intro i h1 h2
          simp [h2]
      rw [hst.bytes hroom, hsrc, hfill (by omega)]
    · rintro d' ⟨hshort, hw'⟩
      exact ⟨hshort, hw.trans hw'⟩
  · rintro d' ⟨hshort, hw⟩
    exact ⟨by omega, hw⟩

end

def Layout.Written (fs : Fs) (L L' : Layout) (q : ℕ) (ev : Entry) (off : ℕ) (buf : List UInt8) :
    Prop :=
  ∃ front g back new nf, L.items q = front ++ .live g :: back ∧
    ev = g.entry (32 * (itemSlots front).length) ∧
    off + buf.length ≤ (L.regions (.file q ev.pos) ++ new).length * fs.cb ∧
    L' = L.edit q (front ++ .live (g.located nf (max ev.size (off + buf.length))) :: back) ev.pos
      (L.regions (.file q ev.pos) ++ new)
      (overlay (fill 0 (L.data (.file q ev.pos) ++ replicate (new.length * fs.cb) 0)
        ev.size off) off buf)

/-- A chain that could not be grown to `need` clusters, because the volume is full. -/
structure Starved (fs : Fs) (v v' : View) (l l' : List ℕ) (need : ℕ) : Prop where
  grown : ∃ new, l' = l ++ new ∧ Grown fs v v' l new
  short : l'.length < need
  full : v'.Full fs

section

variable {fs : Fs} (hg : Geometry fs) {d : Disk} {L : Layout} (h : Holds fs (view fs d) L) {q : ℕ}
  (hq : q ∈ L.dirs)
include hg h hq

theorem Holds.find_file (hfind : findEntry fs q name d = some ev)
    (hdir : ev.isDir = false) : ev ∈ L.kids q := by
  refine (h.find_cases hg hq hfind).resolve_right fun hdots => ?_
  rw [hdir] at hdots
  exact absurd hdots.2.1 (by decide)

theorem Holds.ensureChain_ends (hev : ev ∈ L.kids q) (hdir : ev.isDir = false) (need : ℕ) :
    (ensureChain fs ev.cluster need).Ends d
      (fun nf d' => ∃ new, Staged fs (view fs d') L q ev (L.regions (.file q ev.pos) ++ new) ∧
        Chain fs (view fs d').fat nf (L.regions (.file q ev.pos) ++ new) ∧
        need ≤ (L.regions (.file q ev.pos) ++ new).length ∧
        (need ≤ (L.regions (.file q ev.pos)).length → new = []) ∧
        (view fs d').bytes fs (L.regions (.file q ev.pos) ++ new)
            ((L.regions (.file q ev.pos) ++ new).length * fs.cb) =
          L.data (.file q ev.pos) ++ replicate (new.length * fs.cb) 0)
      (fun d' => ∃ l, Staged fs (view fs d') L q ev l ∧
        Starved fs (view fs d) (view fs d') (L.regions (.file q ev.pos)) l need) := by
  have hchain := (h.dir q hq).file ev hev hdir
  refine (Fat16.ensureChain_ends hg d hchain).mono ?_ ?_
  · rintro nf d' ⟨new, hgr, rfl, hneed, hnone⟩
    refine ⟨new, h.grown hq hev hdir hgr, hgr.chain hchain.range, hneed, hnone, ?_⟩
    rw [hgr.bytes hg.cb_pos fun x hx => h.taken hx, h.data]
  · rintro d' ⟨new, hgr, hshort, hfull⟩
    exact ⟨_, h.grown hq hev hdir hgr, ⟨new, rfl, hgr⟩, hshort, hfull⟩

/-- A write that fails has stored nothing that a reader sees. -/
theorem write_found_ends (hfind : findEntry fs q name d = some ev) (hbuf : buf.length < 2 ^ 32) :
    (write fs q name off buf).Ends d
      (fun n d' => n = buf.length ∧ ev.isDir = false ∧ ev ∈ L.kids q ∧
        ((buf = [] ∧ d' = d) ∨ (buf ≠ [] ∧ off + buf.length + fs.cb ≤ 2 ^ 32 ∧
          ∃ L', L.Written fs L' q ev off buf ∧ Holds fs (view fs d') L')))
      (fun d' => (d' = d ∧ (ev.isDir = true ∨ 2 ^ 32 ≤ off + buf.length)) ∨
        (ev.isDir = false ∧ ev ∈ L.kids q ∧ ∃ l, Staged fs (view fs d') L q ev l ∧
          ((2 ^ 32 < off + buf.length + fs.cb ∧ off + buf.length < 2 ^ 32 ∧
              l = L.regions (.file q ev.pos)) ∨
            Starved fs (view fs d) (view fs d') (L.regions (.file q ev.pos)) l
              (fs.clustersFor (off + buf.length))))) := by
  have hfound : (findOrCreate fs q name).Ends d (fun e d' => e = ev ∧ d' = d) fun _ => False := by
    simp only [findOrCreate, ends_bind, ends_query_total, hfind]
    exact ⟨rfl, rfl⟩
  rw [write, ends_bind]
  refine hfound.imp ?_
  rintro e d₀ ⟨he, hd⟩
  rw [he, hd]
  by_cases hdir : ev.isDir = true
  · rw [if_pos hdir]
    exact Or.inl ⟨rfl, Or.inl hdir⟩
  have hfile : ev.isDir = false := by simpa using hdir
  have hev := h.find_file hg hq hfind hfile
  rw [if_neg hdir]
  by_cases hempty : buf.length = 0
  · rw [if_pos hempty]
    exact ⟨hempty.symm, hfile, hev, Or.inl ⟨eq_nil_of_length_eq_zero hempty, rfl⟩⟩
  rw [if_neg hempty]
  have hne : buf ≠ [] := fun hnil => hempty (by rw [hnil]; rfl)
  split_ifs with hover
  · exact Or.inl ⟨rfl, Or.inr (by omega)⟩
  rw [ends_bind]
  have hlast : (if ev.size < off + buf.length then off + buf.length else ev.size) =
      max ev.size (off + buf.length) := by
    split <;> omega
  refine (h.ensureChain_ends hg hq hev hfile _).mono ?_ ?_
  · rintro nf d₁ ⟨new, hst, hchain, hneed, hnone, hbytes⟩
    generalize hl : L.regions (.file q ev.pos) ++ new = l at hst hchain hneed hbytes
    simp only [ends_bind]
    refine ends_bind.mp ((store_ends hg d₁ hne hchain hst.reserved).mono ?_ ?_)
    · rintro _ d₂ ⟨hroom, hw, hover⟩
      have hfit := hchain.bytes_lt hg
      have hst₂ := hst.store hq hev hfile hw
      have hchain₂ : Chain fs (view fs d₂).fat nf l := hchain.congr fun x _ => by rw [hw.fat]
      obtain ⟨front, g, back, hitems, rfl, -⟩ := Layout.kid_group hev
      rw [hlast]
      refine (hst₂.updateEntry_ends hg hq hitems hev hfile hchain₂).imp ?_
      intro _ d' hd
      refine ⟨rfl, hfile, hev, Or.inr ⟨hne, by omega, _, ?_, hd⟩⟩
      refine ⟨front, g, back, new, nf, hitems, rfl, ?_, ?_⟩
      · rwa [hl]
      · rw [hl, hover, hbytes]
    · rintro d₂ ⟨hshort, hw⟩
      -- The chain is too short for the bytes only when the number of clusters wrapped.
      have hwrap : 2 ^ 32 < off + buf.length + fs.cb := by
        by_contra hno
        have hle := le_clustersFor hg (Nat.le_of_not_lt hno)
        have := Nat.mul_le_mul_right fs.cb hneed
        omega
      have hnew : new = [] := by
        apply hnone
        rw [clustersFor_wrap hwrap (by omega)]
        exact zero_le _
      rw [hnew, append_nil] at hl
      exact Or.inr ⟨hfile, hev, l, hst.store hq hev hfile hw, Or.inl ⟨hwrap, by omega, hl.symm⟩⟩
  · rintro d' ⟨l, hst, hstarved⟩
    exact Or.inr ⟨hfile, hev, l, hst, Or.inr hstarved⟩

omit hg h hq in
theorem write_missing_ends {Q : ℕ → Disk → Prop}
    {E : Disk → Prop} (hfind : findEntry fs q name d = none)
    (hcreate : (create fs q name).Ends d (fun _ d₁ => (findEntry fs q name d₁ = none → E d₁) ∧
      ∀ ev, findEntry fs q name d₁ = some ev → (write fs q name off buf).Ends d₁ Q E) E) :
    (write fs q name off buf).Ends d Q E := by
  rw [write]
  simp only [findOrCreate, ends_bind, ends_query_total, hfind]
  refine hcreate.mono ?_ fun _ he => he
  rintro _ d₁ ⟨hnone, hsome⟩
  cases hfound : findEntry fs q name d₁ with
  | none =>
    rw [ends_query_none hfound]
    exact hnone hfound
  | some ev =>
    have hwrite := hsome ev hfound
    rw [write] at hwrite
    simp only [findOrCreate, ends_bind, ends_query_total, hfound] at hwrite
    rw [ends_query_some hfound]
    exact hwrite

end

end Vnu.Fat16
