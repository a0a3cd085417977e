import Vnu.Malloc.Growth

/-!
Programs that only call malloc and free. Every live pointer is a block in use whose payload covers
the rounded request.
-/
namespace Vnu.Malloc

open Lib.BlockRun Lib.Fuel List Function Option Nat

variable {fuel p n size : ℕ} {coalesced : Bool} {h h' : Heap} {l : List ℕ} {live : List (ℕ × ℕ)}

inductive Listed (h : Heap) : ℕ → Prop
  | start : h.start ≠ 0 → Listed h h.start
  | next {b : ℕ} : Listed h b → (h.mem b).next ≠ 0 → Listed h (h.mem b).next

def Apart (p n q m : ℕ) : Prop := p + n ≤ q ∨ q + m ≤ p

structure Addresses (h : Heap) (p n : ℕ) : Prop where
  low : h.start ≠ 0 ∧ h.start ≤ p
  high : p + n ≤ h.kern.brk
  headers : ∀ b, Listed h b → Apart p n b blockSize

def Safe (h : Heap) (live : List (ℕ × ℕ)) : Prop :=
  (∀ a ∈ live, Addresses h a.1 a.2) ∧ live.Pairwise fun a b => Apart a.1 a.2 b.1 b.2

/-- Runs of malloc and free. A pointer is freed only while it is live. -/
inductive Reach (frames : ℕ → Bool) : Heap → List (ℕ × ℕ) → Prop
  | fresh (mem : Mem) : Reach frames (Heap.fresh mem) []
  | malloc {h h' : Heap} {live : List (ℕ × ℕ)} {fuel n p : ℕ} : Reach frames h live →
      n < 2 ^ 32 → malloc frames fuel n h = some (p, h') → p ≠ 0 → Reach frames h' ((p, n) :: live)
  | mallocNull {h h' : Heap} {live : List (ℕ × ℕ)} {fuel n : ℕ} : Reach frames h live →
      n < 2 ^ 32 → malloc frames fuel n h = some (0, h') → Reach frames h' live
  | free {h : Heap} {live : List (ℕ × ℕ)} {p n : ℕ} : Reach frames h live →
      (p, n) ∈ live → Reach frames (free p h) (live.erase (p, n))
  | freeNull {h : Heap} {live : List (ℕ × ℕ)} : Reach frames h live →
      Reach frames (free 0 h) live

theorem findBlock_sound {r : ℕ} (hs : Shape h l) (hfind : findBlock fuel size h = some r) :
    (r = 0 ∧ ∀ b ∈ l, ¬ Fits h.mem size b) ∨ (r ∈ l ∧ Fits h.mem size r) := by
  obtain ⟨r', hfind', hres⟩ := findBlock_spec hs size (lt_succ_self _)
  rwa [(findBlock_steady size h).unique hfind hfind']

theorem coalesce_sound (hs : Shape h l) (hco : coalesce fuel h = some h') :
    ∃ l', Shape h' l' ∧ Keeps h.mem h'.mem l l' := by
  obtain ⟨h₁, l', hco', hs', -, -, hkeep⟩ := coalesce_spec hs (lt_succ_self _)
  rw [(coalesce_steady h).unique hco hco']
  exact ⟨l', hs', hkeep⟩

theorem moreHeap_sound {frames : ℕ → Bool} {ok : Bool} (hs : Shape h l)
    (hmore : moreHeap frames fuel size h = some (ok, h')) :
    ∃ l', Shape h' l' ∧ Keeps h.mem h'.mem l l' := by
  have hN : slack size ≤ 2 ^ 31 := by
    by_contra hbig
    rw [moreHeap_none frames hs (by omega)] at hmore
    cases hmore
  obtain ⟨ok', h₁, l', hmore', hs', -, hkeep, -⟩ := moreHeap_spec frames hs hN (lt_succ_self _)
  cases (moreHeap_steady frames size h).unique hmore hmore'
  exact ⟨l', hs', hkeep⟩

/-- Blocks in use are kept, and a returned pointer belongs to a block that was not in use. -/
theorem mallocLoop_spec (frames : ℕ → Bool) (size : ℕ) (hs : Shape h l)
    (hr : mallocLoop frames size fuel coalesced h = some (p, h')) :
    ∃ l', Shape h' l' ∧ Keeps h.mem h'.mem l l' ∧
      (p ≠ 0 → ∃ b ∈ l', p = b + blockSize ∧ (h'.mem b).free = false ∧ size ≤ (h'.mem b).size ∧
        ∀ c ∈ l, (h.mem c).free = false → c ≠ b) := by
  induction fuel generalizing coalesced h l with
  | zero => simp [mallocLoop] at hr
  | succ fuel ih =>
    -- the loop goes on from a heap that has kept the blocks in use
    have hagain : ∀ {coalesced h₁ l₁}, Shape h₁ l₁ → Keeps h.mem h₁.mem l l₁ →
        mallocLoop frames size fuel coalesced h₁ = some (p, h') → ∃ l', Shape h' l' ∧
          Keeps h.mem h'.mem l l' ∧ (p ≠ 0 → ∃ b ∈ l', p = b + blockSize ∧
            (h'.mem b).free = false ∧ size ≤ (h'.mem b).size ∧
              ∀ c ∈ l, (h.mem c).free = false → c ≠ b) := by
      intro coalesced h₁ l₁ hs₁ hkeep₁ hr
      obtain ⟨l', hs', hkeep', hnew⟩ := ih hs₁ hr
      refine ⟨l', hs', hkeep₁.trans hkeep', fun hp => ?_⟩
      obtain ⟨b, hb, hptr, hused, hsize, hfresh⟩ := hnew hp
      refine ⟨b, hb, hptr, hused, hsize, fun c hc hu => ?_⟩
      obtain ⟨hc₁, hu₁, -⟩ := hkeep₁ c hc hu
      exact hfresh c hc₁ hu₁
    simp only [mallocLoop] at hr
    obtain ⟨r, hfind, hr⟩ := bind_eq_some_iff.mp hr
    split at hr
    · rename_i hne
      obtain ⟨hmem, hfit⟩ := (findBlock_sound hs hfind).resolve_left fun h0 => hne h0.1
      obtain ⟨l', hs', hptr, hkeep, hbl, hused, hsize⟩ := take_spec hs hmem hfit
      rw [some.inj hr] at hs' hptr hkeep hused hsize
      refine ⟨l', hs', hkeep, fun _ => ⟨r, hbl, hptr, hused, hsize, ?_⟩⟩
      rintro c - hu rfl
      simp [hfit.1] at hu
    · split at hr
      · obtain ⟨h₁, hco, hr⟩ := bind_eq_some_iff.mp hr
        obtain ⟨l₁, hs₁, hkeep₁⟩ := coalesce_sound hs hco
        exact hagain hs₁ hkeep₁ hr
      obtain ⟨⟨ok, h₁⟩, hmore, hr⟩ := bind_eq_some_iff.mp hr
      obtain ⟨l₁, hs₁, hkeep₁⟩ := moreHeap_sound hs hmore
      split at hr
      · exact hagain hs₁ hkeep₁ hr
      · cases hr
        exact ⟨l₁, hs₁, hkeep₁, fun hp => absurd rfl hp⟩

structure Held (h : Heap) (l : List ℕ) (live : List (ℕ × ℕ)) : Prop where
  block : ∀ a ∈ live, a.2 ≠ 0 ∧ a.2 < 2 ^ 32 ∧ ∃ b ∈ l, a.1 = b + blockSize ∧
    (h.mem b).free = false ∧ roundUp8 a.2 ≤ (h.mem b).size
  distinct : live.Pairwise fun a b => a.1 ≠ b.1

theorem Held.keep {l' : List ℕ} (hh : Held h l live)
    (hk : Keeps h.mem h'.mem l l') : Held h' l' live := by
  refine ⟨fun a ha => ?_, hh.distinct⟩
  obtain ⟨hn, hlt, b, hb, hptr, hused, hsize⟩ := hh.block a ha
  obtain ⟨hb', hused', hsize'⟩ := hk b hb hused
  exact ⟨hn, hlt, b, hb', hptr, hused', by rw [hsize']; exact hsize⟩

theorem free_shape (hs : Shape h l) (p : ℕ) : Shape (free p h) l := by
  by_cases hp : p = 0
  · simpa only [free, hp, if_true] using hs
  · simp only [free, hp, if_false]
    generalize (p + 2 ^ 32 - blockSize) % 2 ^ 32 = b
    exact ⟨run_congr hs.tiled fun c _ => mark_links h.mem b c true, hs.start_eq, hs.top⟩

/-- Freeing one pointer leaves the others with their blocks. -/
theorem free_held (hs : Shape h l) (hh : Held h l live) (hp : (p, n) ∈ live) :
    Held (free p h) l (live.erase (p, n)) := by
  refine ⟨fun a ha => ?_, hh.distinct.sublist erase_sublist⟩
  have hne : a.1 ≠ p := by
    have hnd : live.Nodup := hh.distinct.imp (fun hne heq => hne (congrArg Prod.fst heq))
    obtain ⟨hane, hal⟩ := (List.Nodup.mem_erase_iff hnd).mp ha
    have : Std.Symm fun a b : ℕ × ℕ => a.1 ≠ b.1 := ⟨fun _ _ hxy => hxy.symm⟩
    exact hh.distinct.forall hal hp hane
  obtain ⟨hn, hlt, b, hb, hptr, hused, hsize⟩ := hh.block a (mem_of_mem_erase ha)
  obtain ⟨-, -, b', hb', hptr', -, -⟩ := hh.block _ hp
  have hin' := hs.mem_bounds hb'
  have hbb : (p + 2 ^ 32 - blockSize) % 2 ^ 32 = b' := by
    simp only [brkMax] at hin' hptr' ⊢
    omega
  have hbne : b ≠ b' := by
    intro heq
    exact hne (by rw [hptr, heq]; exact hptr'.symm)
  have hp0 : p ≠ 0 := by
    simp only [blockSize] at hptr'
    omega
  refine ⟨hn, hlt, b, hb, hptr, ?_, ?_⟩
  · simp only [free, hp0, if_false, hbb, update_of_ne hbne]
    exact hused
  · simp only [free, hp0, if_false, hbb, update_of_ne hbne]
    exact hsize

/-- In every run the blocks tile the heap and live pointers have blocks of their own. -/
theorem reach_invariant {frames : ℕ → Bool}
    (hr : Reach frames h live) : ∃ l, Shape h l ∧ Held h l live := by
  induction hr with
  | fresh mem => exact ⟨[], shape_fresh mem, ⟨by simp, List.Pairwise.nil⟩⟩
  | @malloc h h' live fuel n p _ hn hm hp ih =>
    obtain ⟨l, hs, hh⟩ := ih
    by_cases h0 : n = 0
    · simp only [malloc, h0, if_true, some.injEq, Prod.mk.injEq] at hm
      exact absurd hm.1.symm hp
    simp only [malloc, h0] at hm
    obtain ⟨l', hs', hkeep, hnew⟩ := mallocLoop_spec frames _ hs hm
    obtain ⟨b, hb, hptr, hused, hsize, hfresh⟩ := hnew hp
    refine ⟨l', hs', ⟨?_, ?_⟩⟩
    · intro a ha
      rcases mem_cons.mp ha with rfl | ha
      · exact ⟨h0, hn, b, hb, hptr, hused, hsize⟩
      · exact (hh.keep hkeep).block a ha
    · refine List.Pairwise.cons ?_ hh.distinct
      intro a ha heq
      obtain ⟨-, -, c, hc, hptr', hu, -⟩ := hh.block a ha
      apply hfresh c hc hu
      omega
  | @mallocNull h h' live fuel n _ hn hm ih =>
    obtain ⟨l, hs, hh⟩ := ih
    by_cases h0 : n = 0
    · simp only [malloc, h0, if_true, some.injEq, Prod.mk.injEq, true_and] at hm
      exact ⟨l, hm ▸ hs, hm ▸ hh⟩
    · simp only [malloc, h0] at hm
      obtain ⟨l', hs', hkeep, -⟩ := mallocLoop_spec frames _ hs hm
      exact ⟨l', hs', hh.keep hkeep⟩
  | @free h live p n _ hp ih =>
    obtain ⟨l, hs, hh⟩ := ih
    exact ⟨l, free_shape hs p, free_held hs hh hp⟩
  | @freeNull h live _ ih =>
    obtain ⟨l, hs, hh⟩ := ih
    exact ⟨l, by simpa [free] using hs, by simpa [free] using hh⟩

theorem listed_mem (hs : Shape h l) {b : ℕ} (hb : Listed h b) : b ∈ l := by
  induction hb with
  | start h0 =>
    cases l with
    | nil => exact absurd hs.start_eq h0
    | cons c l =>
      rw [hs.start_eq]
      simp
  | next _ h0 ih =>
    rcases run_next_mem hs.tiled ih with hz | hmem
    · exact absurd hz h0
    · exact hmem

theorem le_roundUp8 (hn : n ≤ 0xFFFFFFF8) : n ≤ roundUp8 n := by
  simp only [roundUp8]
  omega

/-- In every run the live allocations are safe exactly when none asked for more than 2^32 - 8 bytes.
-/
theorem reach_safe_iff (frames : ℕ → Bool) (h : Heap) (live : List (ℕ × ℕ))
    (hr : Reach frames h live) : Safe h live ↔ ∀ a ∈ live, a.2 ≤ 0xFFFFFFF8 := by
  obtain ⟨l, hs, hh⟩ := reach_invariant hr
  constructor
  · intro hsafe a ha
    have hhigh := (hsafe.1 a ha).high
    have htop := hs.top
    simp only [brkMax] at htop
    omega
  intro hbound
  -- Both parts reduce to two distinct listed blocks being separate.
  have hcover : ∀ a ∈ live, ∃ b ∈ l, a.1 = b + blockSize ∧ a.2 ≤ (h.mem b).size ∧
      b + blockSize + (h.mem b).size ≤ h.kern.brk := by
    intro a ha
    obtain ⟨-, -, b, hb, hptr, -, hsize⟩ := hh.block a ha
    exact ⟨b, hb, hptr, (le_roundUp8 (hbound a ha)).trans hsize, (run_mem_bounds hs.tiled hb).2⟩
  refine ⟨fun a ha => ?_, ?_⟩
  · obtain ⟨b, hb, hptr, hsize, hend⟩ := hcover a ha
    have hstart : h.start = brkMin := by
      rw [hs.start_eq]
      exact run_headD hs.tiled (ne_nil_of_mem hb)
    have hin := (hs.mem_bounds hb).1
    refine ⟨⟨?_, ?_⟩, by omega, ?_⟩
    · rw [hstart]
      decide
    · rw [hstart]
      omega
    · intro c hc
      have hsep := run_separate hs.tiled hb (listed_mem hs hc)
      simp only [Apart]
      omega
  · refine List.Pairwise.imp_of_mem ?_ hh.distinct
    intro a a' ha ha' hne
    obtain ⟨b, hb, hptr, hsize, -⟩ := hcover a ha
    obtain ⟨b', hb', hptr', hsize', -⟩ := hcover a' ha'
    have hsep := run_separate hs.tiled hb hb'
    simp only [Apart]
    omega

/-- `malloc(0xFFFFFFFF)` on a fresh heap returns a pointer to an empty block. -/
theorem malloc_max_unsafe : ∃ h p, Reach (fun _ => true) h [(p, 0xFFFFFFFF)] ∧
    ¬ Safe h [(p, 0xFFFFFFFF)] := by
  let mem : Mem := fun _ => ⟨0, 0, false⟩
  have hrun : (malloc (fun _ => true) 20 0xFFFFFFFF (Heap.fresh mem)).map Prod.fst =
      some (brkMin + blockSize) := by decide
  obtain ⟨⟨p, h⟩, hm, hp⟩ := map_eq_some_iff.mp hrun
  have hreach : Reach (fun _ => true) h [(p, 0xFFFFFFFF)] :=
    Reach.malloc (Reach.fresh mem) (by norm_num) hm (by rw [show p = _ from hp]; decide)
  obtain ⟨l, hs, -⟩ := reach_invariant hreach
  refine ⟨h, p, hreach, fun hsafe => ?_⟩
  have hhigh := (hsafe.1 _ (mem_singleton.mpr rfl)).high
  have htop := hs.top
  simp only [brkMax] at htop
  omega

/-- Three blocks, of which the one in the middle is given back. -/
theorem reach_safe_two_blocks :
    ∃ h p q, Reach (fun _ => true) h [(q, 300), (p, 100)] ∧ Safe h [(q, 300), (p, 100)] := by
  let mem : Mem := fun _ => ⟨0, 0, false⟩
  have hrun : ((malloc (fun _ => true) 20 100 (Heap.fresh mem)).bind fun a =>
      (malloc (fun _ => true) 20 200 a.2).bind fun b =>
        (malloc (fun _ => true) 20 300 b.2).map fun c => (a.1, b.1, c.1)) =
      some (brkMin + 12, brkMin + 128, brkMin + 340) := by decide
  obtain ⟨⟨p, h₁⟩, hp, hrun⟩ := bind_eq_some_iff.mp hrun
  obtain ⟨⟨r, h₂⟩, hr, hrun⟩ := bind_eq_some_iff.mp hrun
  obtain ⟨⟨q, h₃⟩, hq, hrun⟩ := map_eq_some_iff.mp hrun
  simp only [Prod.mk.injEq] at hrun
  obtain ⟨rfl, rfl, rfl⟩ := hrun
  have hreach := ((((Reach.fresh mem).malloc (by norm_num) hp (by decide)).malloc (by norm_num) hr
    (by decide)).malloc (by norm_num) hq (by decide)).free (p := brkMin + 128) (n := 200) (by simp)
  have hlive : [(brkMin + 340, 300), (brkMin + 128, 200), (brkMin + 12, 100)].erase
      (brkMin + 128, 200) = [(brkMin + 340, 300), (brkMin + 12, 100)] := by decide
  rw [hlive] at hreach
  exact ⟨_, _, _, hreach, (reach_safe_iff _ _ _ hreach).mpr (by decide)⟩

theorem mallocLoop_steady (frames : ℕ → Bool) (size : ℕ) (coalesced : Bool) (h : Heap) :
    Steady (mallocLoop frames size · coalesced h) := by
  refine .of_succ fun n => ?_
  induction n generalizing coalesced h with
  | zero => exact .none _
  | succ n ih =>
    refine .bind (findBlock_steady size h (n + 1).le_succ) fun b => .ite (.refl _) (.ite ?_ ?_)
    · exact .bind (coalesce_steady h (n + 1).le_succ) fun h₁ => ih true h₁
    · exact .bind (moreHeap_steady frames size h (n + 1).le_succ)
        fun r => .ite (ih false r.2) (.refl _)

/-- Each lump granted moves the break up by at least 1 MiB towards BRK_MAX. -/
theorem mallocLoop_terminates (frames : ℕ → Bool) (hN : slack size ≤ 2 ^ 31) (hs : Shape h l) :
    ∃ fuel p h', mallocLoop frames size fuel false h = some (p, h') ∧
      (h.kern.refused < h'.kern.refused → p = 0) := by
  obtain ⟨d, hd⟩ : ∃ d, brkMax - h.kern.brk = d := ⟨_, rfl⟩
  induction d using Nat.strong_induction_on generalizing h l with
  | h d ih =>
    obtain ⟨r, hfind, -⟩ := findBlock_spec hs size (lt_succ_self _)
    obtain ⟨h₁, l₁, hco, hs₁, hlen, hkern, -⟩ := coalesce_spec hs (lt_succ_self _)
    obtain ⟨r₁, hfind₁, -⟩ := findBlock_spec hs₁ size (show _ < l.length + 1 by omega)
    obtain ⟨ok, h₂, l₂, hmore, hs₂, -, -, hok⟩ :=
      moreHeap_spec frames hs₁ hN (show _ < l.length + 12 by omega)
    -- Two turns of the loop, with enough fuel for what they call.
    have hstep : ∀ f, mallocLoop frames size (f + (l.length + 12) + 2) false h =
        if r ≠ 0 then some (take r size h) else if r₁ ≠ 0 then some (take r₁ size h₁)
        else if ok then mallocLoop frames size (f + (l.length + 12)) false h₂
        else some (0, h₂) := by
      intro f
      have hfind' : findBlock (f + (l.length + 12) + 2) size h = some r :=
        findBlock_steady size h (by omega) r hfind
      have hco' : coalesce (f + (l.length + 12) + 2) h = some h₁ :=
        coalesce_steady h (by omega) h₁ hco
      have hfind₁' : findBlock (f + (l.length + 12) + 1) size h₁ = some r₁ :=
        findBlock_steady size h₁ (by omega) r₁ hfind₁
      have hmore' : moreHeap frames (f + (l.length + 12) + 1) size h₁ = some (ok, h₂) :=
        moreHeap_steady frames size h₁ (by omega) _ hmore
      rw [mallocLoop, hfind', bind_some]
      refine if_congr Iff.rfl rfl ?_
      rw [if_pos rfl, hco', bind_some, mallocLoop, hfind₁', bind_some]
      refine if_congr Iff.rfl rfl ?_
      rw [if_neg (by decide), hmore', bind_some]
    by_cases hr : r ≠ 0
    · exact ⟨_, (take r size h).1, (take r size h).2, by rw [hstep 0, if_pos hr],
        fun hlt => absurd hlt (lt_irrefl _)⟩
    by_cases hr₁ : r₁ ≠ 0
    · refine ⟨_, (take r₁ size h₁).1, (take r₁ size h₁).2,
        by rw [hstep 0, if_neg hr, if_pos hr₁], fun hlt => ?_⟩
      simp only [take, hkern] at hlt
      omega
    cases ok with
    | false => exact ⟨_, 0, h₂, by rw [hstep 0, if_neg hr, if_neg hr₁]; rfl, fun _ => rfl⟩
    | true =>
      obtain ⟨hbrk, href⟩ := hok rfl
      have htop := hs₂.top
      rw [hkern] at hbrk href
      obtain ⟨fuel, p, h', hrec, hnull⟩ := ih (brkMax - h₂.kern.brk) (by omega) hs₂ rfl
      refine ⟨fuel + (l.length + 12) + 2, p, h', ?_, fun hlt => hnull (by omega)⟩
      rw [hstep fuel, if_neg hr, if_neg hr₁, if_pos rfl]
      exact mallocLoop_steady frames size false h₂ (le_add_right _ _) _ hrec

/-- When the wrapped sum exceeds 2^31 no block can fit and the doubling never ends. -/
theorem mallocLoop_diverges (frames : ℕ → Bool) (hN : 2 ^ 31 < slack size) (hs : Shape h l)
    (fuel : ℕ) (coalesced : Bool) : mallocLoop frames size fuel coalesced h = none := by
  induction fuel generalizing coalesced h l with
  | zero => rfl
  | succ fuel ih =>
    have hbig : 0x00800000 ≤ size := by
      simp only [slack, blockSize, minAlloc] at hN
      omega
    unfold mallocLoop
    cases hfind : findBlock (fuel + 1) size h with
    | none => rfl
    | some r =>
      rcases findBlock_sound hs hfind with ⟨rfl, -⟩ | ⟨hmem, hfit⟩
      · rw [bind_some, if_neg (by simp)]
        split
        · cases hco : coalesce (fuel + 1) h with
          | none => rfl
          | some h₁ =>
            obtain ⟨l₁, hs₁, -⟩ := coalesce_sound hs hco
            exact ih hs₁ true
        · rw [moreHeap_none frames hs hN, bind_none]
      · have hlt := hs.size_lt hmem
        have hsize := hfit.2
        omega

/-- malloc returns exactly when the request is below 2^31 - 31 or above 2^32 - 32. -/
theorem malloc_terminates_iff (frames : ℕ → Bool) (h : Heap) (live : List (ℕ × ℕ))
    (hr : Reach frames h live) (n : ℕ) (hn : n < 2 ^ 32) :
    (∃ fuel p h', malloc frames fuel n h = some (p, h') ∧
      (h.kern.refused < h'.kern.refused → p = 0)) ↔ (n < 2 ^ 31 - 31 ∨ 2 ^ 32 - 32 < n) := by
  obtain ⟨l, hs, -⟩ := reach_invariant hr
  by_cases h0 : n = 0
  · subst h0
    refine ⟨fun _ => Or.inl (by norm_num), fun _ => ⟨0, 0, h, rfl, fun _ => rfl⟩⟩
  have hslack : slack (roundUp8 n) ≤ 2 ^ 31 ↔ (n < 2 ^ 31 - 31 ∨ 2 ^ 32 - 32 < n) := by
    simp only [slack, roundUp8, blockSize, minAlloc]
    omega
  rw [← hslack]
  constructor
  · rintro ⟨fuel, p, h', hm, -⟩
    by_contra hbig
    simp only [malloc, h0] at hm
    rw [mallocLoop_diverges frames (by omega) hs] at hm
    exact absurd hm (by simp)
  · intro hN
    simp only [malloc, h0]
    exact mallocLoop_terminates frames hN hs

/-- `malloc(2^31)` on a fresh heap never returns. -/
theorem malloc_half_range_diverges : ∃ h, Reach (fun _ => true) h [] ∧
    ∀ fuel, malloc (fun _ => true) fuel (2 ^ 31) h = none := by
  let mem : Mem := fun _ => ⟨0, 0, false⟩
  refine ⟨Heap.fresh mem, Reach.fresh mem, fun fuel => ?_⟩
  exact mallocLoop_diverges _ (by decide) (shape_fresh mem) fuel false

theorem malloc_page_terminates : ∃ fuel p h',
    malloc (fun _ => true) fuel 4096 (Heap.fresh fun _ => ⟨0, 0, false⟩) = some (p, h') ∧
      ((Heap.fresh fun _ => ⟨0, 0, false⟩).kern.refused < h'.kern.refused → p = 0) :=
  (malloc_terminates_iff _ _ [] (Reach.fresh _) 4096 (by norm_num)).mpr (Or.inl (by norm_num))

end Vnu.Malloc
