import Mathlib.Data.List.Perm.Subperm
import Vnu.Lib.BlockRun
import Vnu.Malloc.Allocator

/-!
The shape of the heap: its blocks tile it from BRK_MIN to the break. No step touches the size or the
mark of a block that is not free.
-/
namespace Vnu.Malloc

open Lib.BlockRun List Function

variable {b a e fuel : ℕ}

abbrev Tiled (mem : Mem) (a : ℕ) (l : List ℕ) (e : ℕ) : Prop :=
  Run blockSize (fun b => (mem b).size) (fun b => (mem b).next) a l e

structure Shape (h : Heap) (l : List ℕ) : Prop where
  tiled : Tiled h.mem brkMin l h.kern.brk
  start_eq : h.start = l.headD 0
  top : h.kern.brk ≤ brkMax

def Keeps (mem mem' : Mem) (l l' : List ℕ) : Prop :=
  ∀ b ∈ l, (mem b).free = false → b ∈ l' ∧ (mem' b).free = false ∧ (mem' b).size = (mem b).size

theorem Keeps.refl (mem : Mem) (l : List ℕ) : Keeps mem mem l l := fun _ hb hu => ⟨hb, hu, rfl⟩

theorem Keeps.trans {m₁ m₂ m₃ : Mem} {l₁ l₂ l₃ : List ℕ}
    (h : Keeps m₁ m₂ l₁ l₂) (h' : Keeps m₂ m₃ l₂ l₃) : Keeps m₁ m₃ l₁ l₃ := by
  intro b hb hu
  obtain ⟨hb₂, hu₂, hs₂⟩ := h b hb hu
  obtain ⟨hb₃, hu₃, hs₃⟩ := h' b hb₂ hu₂
  exact ⟨hb₃, hu₃, hs₃.trans hs₂⟩

theorem blockSize_pos : 0 < blockSize := by decide

namespace Shape

variable {h : Heap} {l : List ℕ}

theorem mem_bounds (hs : Shape h l) (hb : b ∈ l) :
    brkMin ≤ b ∧ b + blockSize + (h.mem b).size ≤ brkMax := by
  have hin := run_mem_bounds hs.tiled hb
  have htop := hs.top
  exact ⟨hin.1, by omega⟩

theorem zero_notMem (hs : Shape h l) : 0 ∉ l := by
  intro hmem
  have hin := (hs.mem_bounds hmem).1
  simp only [brkMin] at hin
  omega

theorem size_lt (hs : Shape h l) (hb : b ∈ l) : (h.mem b).size < 0x00800000 := by
  have hin := hs.mem_bounds hb
  simp only [brkMin, brkMax, blockSize] at hin
  omega

theorem brk_ge (hs : Shape h l) : brkMin ≤ h.kern.brk := run_le hs.tiled

theorem brk_notMem (hs : Shape h l) : h.kern.brk ∉ l := by
  intro hmem
  have hin := (run_mem_bounds hs.tiled hmem).2
  simp only [blockSize] at hin
  omega

end Shape

theorem shape_fresh (mem : Mem) : Shape (Heap.fresh mem) [] :=
  ⟨rfl, rfl, by simp [Heap.fresh, brkMin, brkMax]⟩

def Fits (mem : Mem) (size b : ℕ) : Prop := (mem b).free = true ∧ size ≤ (mem b).size

theorem findFrom_spec (mem : Mem) (size : ℕ) {l : List ℕ} (hr : Tiled mem a l e) (h0 : 0 ∉ l)
    (hf : l.length < fuel) :
    ∃ r, findFrom mem size fuel (l.headD 0) = some r ∧
      ((r = 0 ∧ ∀ b ∈ l, ¬ Fits mem size b) ∨ (r ∈ l ∧ Fits mem size r)) := by
  obtain ⟨f, rfl⟩ : ∃ f, fuel = f + 1 := ⟨fuel - 1, by omega⟩
  induction l generalizing a f with
  | nil => exact ⟨0, by simp [findFrom], Or.inl ⟨rfl, by simp⟩⟩
  | cons b l ih =>
    obtain ⟨f, rfl⟩ : ∃ g, f = g + 1 := ⟨f - 1, by rw [length_cons] at hf; omega⟩
    obtain ⟨rfl, hnext, hrest⟩ := hr
    obtain ⟨hb0, hl0⟩ := not_or.mp fun h => h0 (mem_cons.mpr h)
    by_cases hfit : Fits mem size b
    · refine ⟨b, ?_, Or.inr ⟨mem_cons_self .., hfit⟩⟩
      simp [findFrom, Ne.symm hb0, hfit.1, hfit.2]
    obtain ⟨r, heq, hres⟩ := ih hrest hl0 f (Nat.lt_of_succ_lt_succ hf)
    have hskip : ((mem b).free && decide (size ≤ (mem b).size)) = false := by
      by_contra hne
      exact hfit (by simpa [Fits] using hne)
    refine ⟨r, ?_, hres.imp (fun ⟨hr0, hno⟩ => ⟨hr0, ?_⟩) fun ⟨hmem, hfit'⟩ =>
      ⟨mem_cons_of_mem _ hmem, hfit'⟩⟩
    · rw [headD_cons, findFrom, if_neg (Ne.symm hb0), hskip, show (mem b).next = _ from hnext]
      exact heq
    · exact forall_mem_cons.mpr ⟨hfit, hno⟩

theorem findBlock_spec {h : Heap} {l : List ℕ} (hs : Shape h l) (size : ℕ) (hf : l.length < fuel) :
    ∃ r, findBlock fuel size h = some r ∧
      ((r = 0 ∧ ∀ b ∈ l, ¬ Fits h.mem size b) ∨ (r ∈ l ∧ Fits h.mem size r)) := by
  simpa only [findBlock, hs.start_eq] using findFrom_spec h.mem size hs.tiled hs.zero_notMem hf

theorem mergeNext_other (mem : Mem) {c : ℕ} (hne : c ≠ b) : mergeNext mem b c = mem c := by
  simp [mergeNext, hne]

/-- Blocks in use are not merged, so pointers to them stay good. -/
theorem coalesceFrom_spec (mem : Mem) {l : List ℕ} (hr : Tiled mem a l e) (h0 : 0 ∉ l)
    (he : e < 2 ^ 32) (hf : l.length < fuel) :
    ∃ mem' l', coalesceFrom fuel (l.headD 0) mem = some mem' ∧ Tiled mem' a l' e ∧
      l'.headD 0 = l.headD 0 ∧ l' ⊆ l ∧ Keeps mem mem' l l' ∧ ∀ x, x ∉ l → mem' x = mem x := by
  -- Each turn either drops the second block or moves past the first.
  induction fuel generalizing mem a l with
  | zero => exact absurd hf (Nat.not_lt_zero _)
  | succ f ih =>
    match l, hr, h0, hf with
    | [], hr, _, _ =>
      exact ⟨mem, [], by simp [coalesceFrom], hr, rfl, List.Subset.refl _, Keeps.refl _ _,
        fun _ _ => rfl⟩
    | [b], hr, _, _ =>
      obtain ⟨rfl, hnext, hrest⟩ := hr
      exact ⟨mem, [b], by simp [coalesceFrom, hnext], ⟨rfl, hnext, hrest⟩, rfl,
        List.Subset.refl _, Keeps.refl _ _, fun _ _ => rfl⟩
    | b :: c :: l, hr, h0, hf =>
      have hnd := run_nodup blockSize_pos hr
      have hrun := hr
      obtain ⟨rfl, hnext, hc, hnext', hrest⟩ := hr
      simp only [headD_cons] at hnext hnext' hc
      have hb0 : b ≠ 0 := fun heq => h0 (by simp [heq])
      have hc0 : c ≠ 0 := fun heq => h0 (by simp [heq])
      have hf' : l.length + 1 < f := Nat.lt_of_succ_lt_succ hf
      by_cases hfree : ((mem b).free && (mem c).free) = true
      · have hsum : (mem b).size + (blockSize + (mem c).size) < 2 ^ 32 := by
          have hin := (run_mem_bounds hrun (b := c) (by simp)).2
          omega
        have hother : ∀ d, d ≠ b → mergeNext mem b d = mem d := fun d => mergeNext_other mem
        have hrun' : Tiled (mergeNext mem b) b (b :: l) e := by
          refine run_merge hrun _ _ ?_ (by simp [mergeNext, hnext]) fun d hd => ?_
          · simp only [mergeNext, hnext, update_self, Nat.mod_eq_of_lt hsum]
          · rw [hother d (by rintro rfl; simp [hd] at hnd)]
            exact ⟨rfl, rfl⟩
        obtain ⟨mem', l', heq, ht, hhead, hsub, hkeep, hout⟩ := ih (mergeNext mem b) hrun'
          (fun hm => h0 (by simp only [mem_cons] at hm ⊢; tauto)) hf'
        refine ⟨mem', l', ?_, ht, hhead, fun x hx => ?_, fun d hd hu => ?_, fun x hx => ?_⟩
        · simp only [coalesceFrom, headD_cons, hb0, hnext, hc0, hfree]
          exact heq
        · have hmem := hsub hx
          simp only [mem_cons] at hmem ⊢
          tauto
        · have hdb : d ≠ b := by
            rintro rfl
            simp [hu] at hfree
          have hdc : d ≠ c := by
            rintro rfl
            simp [hu] at hfree
          have hdl : d ∈ b :: l := by
            simp only [mem_cons] at hd ⊢
            tauto
          have hk := hkeep d hdl
          rw [hother d hdb] at hk
          exact hk hu
        · simp only [mem_cons, not_or] at hx
          rw [hout x (by simp only [mem_cons]; tauto), hother x hx.1]
      · obtain ⟨mem', l', heq, ht, hhead, hsub, hkeep, hout⟩ :=
          ih mem (a := b + blockSize + (mem b).size) (l := c :: l) ⟨hc, hnext', hrest⟩
            (fun hm => h0 (mem_cons_of_mem _ hm)) hf'
        have hbout : mem' b = mem b := hout b (nodup_cons.mp hnd).1
        refine ⟨mem', b :: l', ?_, ⟨rfl, ?_, ?_⟩, rfl, cons_subset_cons _ hsub,
          fun d hd hu => ?_, fun x hx => hout x fun hm => hx (mem_cons_of_mem _ hm)⟩
        · simp only [coalesceFrom, headD_cons, hb0, hnext, hc0, hfree]
          exact heq
        · simp only [hbout, hnext, hhead, headD_cons]
        · simp only [hbout]
          exact ht
        · rcases mem_cons.mp hd with rfl | hd
          · exact ⟨by simp, by rw [hbout]; exact hu, by rw [hbout]⟩
          · obtain ⟨hm, hrest'⟩ := hkeep d hd hu
            exact ⟨mem_cons_of_mem _ hm, hrest'⟩

theorem coalesce_spec {h : Heap} {l : List ℕ} (hs : Shape h l) (hf : l.length < fuel) :
    ∃ h' l', coalesce fuel h = some h' ∧ Shape h' l' ∧ l'.length ≤ l.length ∧
      h'.kern = h.kern ∧ Keeps h.mem h'.mem l l' := by
  have htop := hs.top
  obtain ⟨mem', l', heq, ht, hhead, hsub, hkeep, -⟩ :=
    coalesceFrom_spec h.mem hs.tiled hs.zero_notMem (by simp only [brkMax] at htop; omega) hf
  refine ⟨{ h with mem := mem' }, l', ?_, ⟨ht, ?_, hs.top⟩, ?_, rfl, hkeep⟩
  · simp only [coalesce, hs.start_eq, heq, Option.map_some]
  · simp only [hs.start_eq, hhead]
  · exact (subperm_of_subset (run_nodup blockSize_pos ht) hsub).length_le

/-- Only the mark of a block changes. -/
theorem mark_links (mem : Mem) (b c : ℕ) (mark : Bool) :
    (update mem b { mem b with free := mark } c).size = (mem c).size ∧
      (update mem b { mem b with free := mark } c).next = (mem c).next := by
  by_cases hcb : c = b
  · subst hcb
    simp
  · simp [hcb]

/-- A block that is taken may be split; the blocks still tile the heap. -/
theorem take_spec {h : Heap} {l : List ℕ} (hs : Shape h l) {size : ℕ} (hb : b ∈ l)
    (hfit : Fits h.mem size b) :
    ∃ l', Shape (take b size h).2 l' ∧ (take b size h).1 = b + blockSize ∧
      Keeps h.mem (take b size h).2.mem l l' ∧ b ∈ l' ∧
      ((take b size h).2.mem b).free = false ∧ size ≤ ((take b size h).2.mem b).size := by
  have hin := hs.mem_bounds hb
  have hsize := hfit.2
  simp only [brkMax] at hin
  have hptr : (take b size h).1 = b + blockSize := by
    simp only [take, blockSize]
    omega
  have hmod : (size + blockSize + minAlloc) % 2 ^ 32 = size + blockSize + minAlloc := by
    simp only [blockSize, minAlloc]
    omega
  have hused : ∀ c, (h.mem c).free = false → c ≠ b := by
    rintro c hu rfl
    simp [hfit.1] at hu
  by_cases hsplit : size + blockSize + minAlloc < (h.mem b).size
  · have hrest : (b + blockSize + size) % 2 ^ 32 = b + blockSize + size := by omega
    have hnb : b + blockSize + size ≠ b := by
      simp only [blockSize]
      omega
    have hmem : takeMem h.mem b size = update (update h.mem (b + blockSize + size)
          ⟨(h.mem b).size - size - blockSize, (h.mem b).next, true⟩) b
          ⟨size, b + blockSize + size, false⟩ := by
      have htail : ((h.mem b).size + 2 ^ 32 - size - blockSize) % 2 ^ 32 =
          (h.mem b).size - size - blockSize := by omega
      simp only [takeMem, hmod, hsplit, if_true, splitBlock, hrest, htail, update_self, update_idem]
    -- The remainder lies strictly inside the old block, so it is no listed block.
    have hold : ∀ c ∈ l, c ≠ b → takeMem h.mem b size c = h.mem c := by
      intro c hc hcb
      have hsep := run_separate hs.tiled hb hc
      rw [hmem, update_of_ne hcb, update_of_ne (by omega)]
    obtain ⟨l', hrun, hhead, hl'⟩ := run_split (s := size) blockSize_pos hs.tiled hb
      (by simp only [blockSize] at hsplit ⊢; omega)
      (fun c => (takeMem h.mem b size c).size) (fun c => (takeMem h.mem b size c).next)
      (by simp [hmem]) (by simp [hmem]) (by simp [hmem, hnb]) (by simp [hmem, hnb])
      (fun c hc hcb => by simp only [hold c hc hcb, and_self])
    refine ⟨l', ⟨hrun, ?_, hs.top⟩, hptr, fun c hc hu => ⟨(hl' c).mpr (Or.inl hc), ?_⟩,
      (hl' b).mpr (Or.inl hb), ?_, ?_⟩
    · simp only [take, hs.start_eq, hhead]
    · simp only [take, hold c hc (hused c hu), hu, and_self]
    · simp [take, hmem]
    · simp [take, hmem]
  · have hmem : takeMem h.mem b size = update h.mem b { h.mem b with free := false } := by
      simp only [takeMem, hmod, hsplit, if_false]
    refine ⟨l, ⟨?_, hs.start_eq, hs.top⟩, hptr, fun c hc hu => ⟨hc, ?_⟩, hb, ?_, ?_⟩
    · refine run_congr hs.tiled fun c _ => ?_
      simp only [take, hmem]
      exact mark_links h.mem b c false
    · simp [take, hmem, hused c hu, hu]
    · simp [take, hmem]
    · simpa [take, hmem] using hsize

theorem lastBlock_spec (mem : Mem) {l : List ℕ} (hr : Tiled mem a l e) (h0 : 0 ∉ l) (hl : l ≠ [])
    (hf : l.length < fuel) : lastBlock mem fuel (l.headD 0) = some (l.getLast hl) := by
  induction l generalizing a fuel with
  | nil => exact absurd rfl hl
  | cons b l ih =>
    obtain ⟨f, rfl⟩ : ∃ f, fuel = f + 1 := ⟨fuel - 1, by omega⟩
    obtain ⟨rfl, hnext, hrest⟩ := hr
    cases l with
    | nil => simp [lastBlock, hnext]
    | cons c l =>
      have hc0 : c ≠ 0 := fun heq => h0 (by simp [heq])
      have htail := ih hrest (fun hm => h0 (mem_cons_of_mem _ hm)) (cons_ne_nil _ _)
        (Nat.lt_of_succ_lt_succ hf)
      simp only [headD_cons] at htail
      simp only [lastBlock, headD_cons, hnext, hc0, if_false, htail, getLast_cons (cons_ne_nil c l)]

theorem setNext_rest (mem : Mem) (c n b : ℕ) :
    (setNext mem c n b).size = (mem b).size ∧ (setNext mem c n b).free = (mem b).free := by
  by_cases hbc : b = c
  · subst hbc
    simp [setNext]
  · simp [setNext, hbc]

theorem appendLump_spec {h : Heap} {l : List ℕ} (hs : Shape h l) {grow : ℕ}
    (hlow : blockSize ≤ grow) (hhigh : h.kern.brk + grow ≤ brkMax)
    (hf : l.length < fuel) (kn : Kernel) (hkn : kn.brk = h.kern.brk + grow) :
    ∃ h', appendLump fuel h.kern.brk grow { h with kern := kn } = some h' ∧
      Shape h' (l ++ [h.kern.brk]) ∧ h'.kern = kn ∧ Keeps h.mem h'.mem l (l ++ [h.kern.brk]) ∧
      Fits h'.mem (grow - blockSize) h.kern.brk := by
  have hfar : ∀ b ∈ l, b ≠ h.kern.brk := fun b hb heq => hs.brk_notMem (heq ▸ hb)
  have htop : kn.brk ≤ brkMax := hkn ▸ hhigh
  obtain ⟨mem, hmem⟩ : ∃ m, update h.mem h.kern.brk
    ⟨(grow + 2 ^ 32 - blockSize) % 2 ^ 32, 0, true⟩ = m := ⟨_, rfl⟩
  have hlump : mem h.kern.brk = ⟨grow - blockSize, 0, true⟩ := by
    simp only [brkMax] at hlow hhigh
    rw [← hmem, update_self, show (grow + 2 ^ 32 - blockSize) % 2 ^ 32 = grow - blockSize by omega]
  have hold : ∀ b ∈ l, mem b = h.mem b := fun b hb => by rw [← hmem, update_of_ne (hfar b hb)]
  have hend : h.kern.brk + blockSize + (mem h.kern.brk).size = kn.brk := by
    rw [hlump, hkn]
    simp only
    omega
  simp only [appendLump, hmem]
  by_cases hl : l = []
  · subst hl
    have hbrk : brkMin = h.kern.brk := hs.tiled
    refine ⟨_, if_pos hs.start_eq, ⟨⟨hbrk.symm, ?_, ?_⟩, rfl, htop⟩, rfl, by simp [Keeps], ?_⟩
    · simp only [hbrk, hlump]
      rfl
    · simp only [hbrk]
      exact hend
    · simp [Fits, hlump]
  have hstart : h.start ≠ 0 := by
    rw [hs.start_eq, run_headD hs.tiled hl]
    decide
  have hlast : h.kern.brk ≠ l.getLast hl := (hfar _ (getLast_mem hl)).symm
  have hrun : Tiled mem brkMin l h.kern.brk :=
    run_congr hs.tiled fun b hb => by simp only [hold b hb, and_self]
  have hwalk := lastBlock_spec mem hrun hs.zero_notMem hl hf
  rw [← hs.start_eq] at hwalk
  have hrest := setNext_rest mem (l.getLast hl) h.kern.brk
  refine ⟨_, by rw [if_neg hstart, hwalk]; rfl, ⟨?_, ?_, htop⟩, rfl, fun b hb hu => ?_, ?_⟩
  · have happ := run_append_one blockSize_pos hl hrun
      (fun b => (setNext mem (l.getLast hl) h.kern.brk b).size)
      (fun b => (setNext mem (l.getLast hl) h.kern.brk b).next) (by simp [setNext])
      (fun b _ => ⟨(hrest b).1, fun hbl => by simp only [setNext, update_of_ne hbl]⟩)
      (by simp only [setNext, update_of_ne hlast, hlump])
    rwa [(hrest _).1, hend] at happ
  · cases l with
    | nil => exact absurd rfl hl
    | cons b l => exact hs.start_eq
  · simp only [hrest, hold b hb, hu, mem_append_left _ hb, and_self]
  · simp [Fits, hrest, hlump]

end Vnu.Malloc
