import Vnu.Fat16.Allocation

/-!
Bytes of a file: the range of a chain's clusters, which `range_write` stores into and `read` copies
from. A store that leaves the range fails and has touched clusters of the chain only.
-/
namespace Vnu.Fat16

open Lib Lib.Links Lib.Blocks List Act Nat

variable {n off len chunk first : ℕ} {v v₁ v₂ : View} {l : List ℕ} {src : Buf}

def View.byte (v : View) (fs : Fs) (l : List ℕ) (i : ℕ) : UInt8 := flat v.dat fs.cb l i

structure Stored (n : ℕ) (v v' : View) (l : List ℕ) (off len : ℕ) (src : Buf) : Prop where
  fat : v'.fat = v.fat
  dat : ∀ r, r ∉ l → v'.dat r = v.dat r
  byte : ∀ i, i < l.length * n → flat v'.dat n l i =
    if off ≤ i ∧ i < off + len then src (i - off) else flat v.dat n l i

structure Within (v v' : View) (l : List ℕ) : Prop where
  fat : v'.fat = v.fat
  dat : ∀ r, r ∉ l → v'.dat r = v.dat r

theorem Within.refl (v : View) (l : List ℕ) : Within v v l := ⟨rfl, fun _ _ => rfl⟩

theorem Stored.within {v' : View}
    (h : Stored n v v' l off len src) : Within v v' l := ⟨h.fat, h.dat⟩

theorem Within.trans (h : Within v v₁ l) (h' : Within v₁ v₂ l) : Within v v₂ l :=
  ⟨h'.fat.trans h.fat, fun r hr => (h'.dat r hr).trans (h.dat r hr)⟩

theorem Stored.trans {a b : ℕ} {src' : Buf}
    (h : Stored n v v₁ l off a src) (h' : Stored n v₁ v₂ l (off + a) b src')
    (hsrc : ∀ i, src' i = src (a + i)) : Stored n v v₂ l off (a + b) src := by
  refine ⟨h'.fat.trans h.fat, fun r hr => (h'.dat r hr).trans (h.dat r hr), ?_⟩
  intro i hi
  rw [h'.byte i hi, h.byte i hi]
  by_cases h2 : off + a ≤ i ∧ i < off + a + b
  · have hsub : a + (i - (off + a)) = i - off := by omega
    have hall : off ≤ i ∧ i < off + (a + b) := by omega
    rw [if_pos h2, if_pos hall, hsrc, hsub]
  rw [if_neg h2]
  by_cases h1 : off ≤ i ∧ i < off + a
  · have hall : off ≤ i ∧ i < off + (a + b) := by omega
    rw [if_pos h1, if_pos hall]
  · have hall : ¬ (off ≤ i ∧ i < off + (a + b)) := by omega
    rw [if_neg h1, if_neg hall]

theorem Stored.empty (n : ℕ) (v : View) (l : List ℕ) (off : ℕ) (src : Buf) :
    Stored n v v l off 0 src := by
  refine ⟨rfl, fun _ _ => rfl, fun i _ => ?_⟩
  have hno : ¬ (off ≤ i ∧ i < off + 0) := by omega
  rw [if_neg hno]

section

variable {fs : Fs} (hg : Geometry fs)
include hg

theorem storeChunk_ends (d : Disk) (src : Buf) (done : ℕ) {c within : ℕ}
    (hc : fs.InRange c) (hw : within < fs.cb) (hchunk : chunk ≤ 512 - within % 512) :
    (storeChunk fs src done (clusterToSector fs c + within / 512) (within % 512) chunk).Ends d
      (fun _ d' => view fs d' = (view fs d).patch c within chunk fun i => src (done + i))
      fun _ => False := by
  have hk := sector_lt (regionBytes_cluster hc ▸ hw)
  have hreg := region_of_inRange hc
  rw [← regionStart_cluster hg hc]
  unfold storeChunk
  split
  · rename_i hfull
    have hwithin : within / 512 * 512 = within := by omega
    apply devWrite_ends hg
    rw [view_store_region hg d hreg hk, hfull.2, hwithin]
  simp only [ends_bind, ends_query_some (devRead_eq hg d _)]
  have hwithin : within / 512 * 512 + within % 512 = within := by omega
  apply devWrite_ends hg
  have hedit := view_edit_region hg d hreg hk (show within % 512 + chunk ≤ 512 by omega)
    (fun i => src (done + i)) (fun j _ => rfl)
  rw [hwithin] at hedit
  exact hedit

omit hg in
theorem patch_stored (hnd : l.Nodup) {k within : ℕ}
    (hk : k < l.length) (hfit : within + chunk ≤ n) (src : Buf) :
    Stored n v (v.patch (l.get ⟨k, hk⟩) within chunk src) l (k * n + within) chunk src := by
  refine ⟨rfl, ?_, ?_⟩
  · intro r hr
    apply patch_dat_other
    rintro rfl
    exact hr (get_mem l _)
  intro i hi
  have hsplit := Nat.div_add_mod' i n
  rw [flat_store hnd hk (fun b hb => patch_dat_other v _ _ _ hb) hi]
  by_cases hblock : i / n = k
  · subst hblock
    rw [if_pos rfl]
    simp only [View.patch, true_and]
    by_cases hin : within ≤ i % n ∧ i % n < within + chunk
    · have hin' : i / n * n + within ≤ i ∧ i < i / n * n + within + chunk := by omega
      have hsub : i % n - within = i - (i / n * n + within) := by omega
      rw [if_pos hin, if_pos hin', hsub]
    · have hin' : ¬ (i / n * n + within ≤ i ∧ i < i / n * n + within + chunk) := by omega
      rw [if_neg hin, if_neg hin', flat_eq hi]
  · rw [if_neg hblock, if_neg]
    rintro ⟨hlo, hhi⟩
    apply hblock
    -- The patched positions all lie in block k.
    apply Nat.div_eq_of_lt_le
    · omega
    · rw [add_mul]
      omega

/-- The loop invariant: what is done so far stands in the chain, and nothing else changed. -/
theorem rangeWriteLoop_ends (d : Disk) (src : Buf) (len : ℕ)
    (h : Chain fs (view fs d).fat first l) (fuel done within k : ℕ) (hk : k < l.length)
    (hfuel : len - done ≤ fuel) (hw : within ≤ fs.cb) (hw' : done < len → within < fs.cb) :
    (rangeWriteLoop fs src len fuel done within (l.get ⟨k, hk⟩)).Ends d
      (fun _ d' => k * fs.cb + within + (len - done) ≤ l.length * fs.cb ∧
        Stored fs.cb (view fs d) (view fs d') l (k * fs.cb + within) (len - done)
          fun i => src (done + i))
      (fun d' => l.length * fs.cb < k * fs.cb + within + (len - done) ∧
        Within (view fs d) (view fs d') l) := by
  induction fuel generalizing d done within k with
  | zero =>
    have hcap := block_le hk fs.cb
    have hzero : len - done = 0 := by omega
    simp only [hzero]
    exact ⟨by omega, Stored.empty fs.cb _ l _ _⟩
  | succ fuel ih =>
    have hcap := block_le hk fs.cb
    unfold rangeWriteLoop
    split_ifs with hdone
    · have hlt := hw' hdone
      have hc := h.range _ (get_mem l ⟨k, hk⟩)
      obtain ⟨chunk, hchunk⟩ : ∃ c, min (512 - within % 512) (len - done) = c := ⟨_, rfl⟩
      have hfit : within + chunk ≤ fs.cb := by
        simp only [Fs.cb] at hlt ⊢
        omega
      simp only [hchunk, ends_bind]
      refine (storeChunk_ends hg d src done hc hlt (by omega)).imp ?_
      intro _ d₁ hd₁
      have hst : Stored fs.cb (view fs d) (view fs d₁) l (k * fs.cb + within) chunk
          fun i => src (done + i) := by
        rw [hd₁]
        exact patch_stored (h.nodup hg) hk hfit _
      have h₁ : Chain fs (view fs d₁).fat first l := h.congr fun x _ => by rw [hst.fat]
      -- What the rest of the loop stores is appended to this chunk.
      have hjoin : ∀ {d' : Disk}, Stored fs.cb (view fs d₁) (view fs d') l
          (k * fs.cb + within + chunk) (len - (done + chunk)) (fun i => src (done + chunk + i)) →
          Stored fs.cb (view fs d) (view fs d') l (k * fs.cb + within) (len - done)
            fun i => src (done + i) := by
        intro d' hrest
        have hlen : len - done = chunk + (len - (done + chunk)) := by omega
        rw [hlen]
        exact hst.trans hrest fun i => by rw [add_assoc]
      split_ifs with hnext
      · simp only [ends_bind, ends_query_some (fatNext_eq hg d₁ hc.2), h₁.next hg hk]
        by_cases hmore : k + 1 < l.length
        · have hpos : (k + 1) * fs.cb = k * fs.cb + within + chunk := by
            rw [add_mul]
            omega
          have hzero : within + chunk - fs.cb = 0 := by omega
          have hcb := hg.cb_pos
          rw [if_neg (h.getD_ne_zero hmore), getD_eq_getElem _ _ hmore, hzero]
          have hrec := ih d₁ h₁ (done + chunk) 0 (k + 1) hmore (by omega) (by omega) fun _ => hcb
          simp only [hpos] at hrec
          refine hrec.mono ?_ ?_
          · rintro _ d' ⟨hle, hrest⟩
            exact ⟨by omega, hjoin hrest⟩
          · rintro d' ⟨hgt, hrest⟩
            exact ⟨by omega, hst.within.trans hrest⟩
        · rw [getD_eq_default _ _ (by omega)]
          have hlen : l.length = k + 1 := by omega
          refine ⟨?_, hst.within⟩
          rw [hlen, add_mul]
          omega
      · refine (ih d₁ h₁ (done + chunk) (within + chunk) k hk (by omega) hfit (by omega)).mono ?_ ?_
        · rintro _ d' ⟨hle, hrest⟩
          rw [← add_assoc] at hrest
          exact ⟨by omega, hjoin hrest⟩
        · rintro d' ⟨hgt, hrest⟩
          exact ⟨by omega, hst.within.trans hrest⟩
    · have hzero : len - done = 0 := by omega
      simp only [hzero]
      exact ⟨by omega, Stored.empty fs.cb _ l _ _⟩

theorem rangeWrite_ends (d : Disk) (src : Buf)
    (h : Chain fs (view fs d).fat first l) (hzero : (view fs d).fat 0 = 0xFFF8) (hlen : 0 < len) :
    (rangeWrite fs first off src len).Ends d
      (fun _ d' => off + len ≤ l.length * fs.cb ∧
        Stored fs.cb (view fs d) (view fs d') l off len src)
      (fun d' => l.length * fs.cb < off + len ∧ Within (view fs d) (view fs d') l) := by
  have hcb := hg.cb_pos
  have hsplit := Nat.div_add_mod' off fs.cb
  have hmod := Nat.mod_lt off hcb
  unfold rangeWrite
  simp only [ends_bind]
  by_cases hin : off / fs.cb < l.length
  · rw [ends_query_some (chainAt_eq hg d h hin)]
    have hloop := rangeWriteLoop_ends hg d src len h len 0 (off % fs.cb) (off / fs.cb) hin
      (by omega) (by omega) (fun _ => hmod)
    simp only [hsplit, zero_add] at hloop
    exact hloop
  · rw [ends_query_none (chainAt_none hg d h hzero (by omega))]
    have hcap : l.length * fs.cb ≤ off / fs.cb * fs.cb := Nat.mul_le_mul_right _ (by omega)
    exact ⟨by omega, Within.refl _ _⟩

def View.bytes (v : View) (fs : Fs) (l : List ℕ) (size : ℕ) : List UInt8 :=
  (range size).map (v.byte fs l)

/-- A range that lies inside the chain is read across its clusters. -/
theorem readLoop_eq (d : Disk) (len : ℕ)
    (h : Chain fs (view fs d).fat first l) (fuel done within k : ℕ) (hk : k < l.length)
    (hfuel : len - done ≤ fuel) (hw : within ≤ fs.cb) (hw' : done < len → within < fs.cb)
    (hfit : k * fs.cb + within + (len - done) ≤ l.length * fs.cb) :
    readLoop fs d len fuel done within (l.get ⟨k, hk⟩) = some ((range (len - done)).map fun i =>
        (view fs d).byte fs l (k * fs.cb + within + i)) := by
  induction fuel generalizing done within k with
  | zero =>
    have hzero : len - done = 0 := by omega
    simp [readLoop, hzero]
  | succ fuel ih =>
    unfold readLoop
    split_ifs with hdone
    · have hlt := hw' hdone
      have hc := h.range _ (get_mem l ⟨k, hk⟩)
      obtain ⟨chunk, hchunk⟩ : ∃ c, min (512 - within % 512) (len - done) = c := ⟨_, rfl⟩
      have hend : within + chunk ≤ fs.cb := by
        simp only [Fs.cb] at hlt ⊢
        omega
      -- The bytes of this chunk, as bytes of the chain.
      have hgot : ((range chunk).map fun i =>
          d (fs.lba (clusterToSector fs (l.get ⟨k, hk⟩) + within / 512)) (within % 512 + i)) =
          (range chunk).map fun i => (view fs d).byte fs l (k * fs.cb + within + i) := by
        apply map_congr_left
        intro i hi
        have hi := mem_range.mp hi
        rw [← regionStart_cluster hg hc, sector_dat d (region_of_inRange hc)
          (sector_lt (regionBytes_cluster hc ▸ hlt)) (by omega), View.byte, add_assoc (k * _),
          flat_at hk (by omega)]
        congr 1
        omega
      have hjoin : ∀ rest : List UInt8, rest = (range (len - (done + chunk))).map (fun i =>
            (view fs d).byte fs l (k * fs.cb + within + chunk + i)) →
          ((range chunk).map fun i => (view fs d).byte fs l (k * fs.cb + within + i)) ++ rest =
            (range (len - done)).map fun i =>
              (view fs d).byte fs l (k * fs.cb + within + i) := by
        rintro rest rfl
        have hlen : len - done = chunk + (len - (done + chunk)) := by omega
        rw [hlen, range_add, map_append, map_map]
        congr 1
        apply map_congr_left
        intro i _
        simp [add_assoc]
      simp only [devRead_eq hg, hchunk, hgot]
      split_ifs with hnext
      · have hmore : k + 1 < l.length := by
          by_contra hno
          have hlen : l.length = k + 1 := by omega
          rw [hlen, add_mul] at hfit
          omega
        have hpos : (k + 1) * fs.cb = k * fs.cb + within + chunk := by
          rw [add_mul]
          omega
        have hzero : within + chunk - fs.cb = 0 := by omega
        have hcb := hg.cb_pos
        simp only [fatNext_eq hg d hc.2, h.next hg hk, if_neg (h.getD_ne_zero hmore)]
        have hrec := ih (done + chunk) 0 (k + 1) hmore (by omega) (by omega) (fun _ => hcb)
          (by omega)
        simp only [get_eq_getElem, add_zero, hpos] at hrec
        rw [hzero, getD_eq_getElem _ _ hmore, hrec, Option.map_some, hjoin _ rfl]
      · have hrec := ih (done + chunk) (within + chunk) k hk (by omega) hend (by omega) (by omega)
        rw [← add_assoc] at hrec
        rw [hrec, Option.map_some, hjoin _ rfl]
    · have hzero : len - done = 0 := by omega
      simp [hzero]

theorem read_eq (d : Disk) {dir : ℕ} {name : List UInt8} {ev : Entry}
    (hfind : findEntry fs dir name d = some ev) (hdir : ev.isDir = false)
    (h : Chain fs (view fs d).fat ev.cluster l) (hsize : ev.size ≤ l.length * fs.cb) (off len : ℕ) :
    read fs dir name off len d = some ((((view fs d).bytes fs l ev.size).drop off).take len) := by
  have hpart : (((view fs d).bytes fs l ev.size).drop off).take len =
      (range (min len (ev.size - off))).map fun i => (view fs d).byte fs l (off + i) := by
    apply ext_getElem
    · simp [View.bytes]
    · intro i h1 h2
      simp [View.bytes]
  have hcb := hg.cb_pos
  have hsplit := Nat.div_add_mod' off fs.cb
  have hmod := Nat.mod_lt off hcb
  rw [hpart]
  simp only [read, hfind, hdir, Bool.false_eq_true, if_false]
  split
  · rename_i hoff
    have hzero : min len (ev.size - off) = 0 := by omega
    rw [hzero]
    rfl
  rename_i hoff
  have hin : off / fs.cb < l.length := by
    apply Nat.div_lt_of_lt_mul
    rw [mul_comm]
    omega
  rw [chainAt_eq hg d h hin]
  have hloop := readLoop_eq hg d (min len (ev.size - off)) h _ 0 (off % fs.cb)
    (off / fs.cb) hin (le_refl _) (by omega) (fun _ => hmod) (by omega)
  simp only [hsplit] at hloop
  exact hloop

end

end Vnu.Fat16
