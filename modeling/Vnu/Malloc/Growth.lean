import Vnu.Lib.Fuel
import Vnu.Malloc.Layout

/-!
When malloc stops. Past 2^31 the doubling of the lump size reaches 0 and stays there, so the loop
ends exactly when the wrapped sum is at most 2^31.
-/
namespace Vnu.Malloc

open Lib.BlockRun Lib.Fuel Nat

variable {need fuel : ℕ} {h : Heap} {l : List ℕ}

theorem growTo_steady (need grow : ℕ) : Steady (growTo need · grow) := by
  refine .of_succ fun n => ?_
  induction n generalizing grow with
  | zero => exact .none _
  | succ n ih => exact .ite (ih _) (.refl _)

theorem lastBlock_steady (mem : Mem) (c : ℕ) : Steady (lastBlock mem · c) := by
  refine .of_succ fun n => ?_
  induction n generalizing c with
  | zero => exact .none _
  | succ n ih => exact .ite (.refl _) (ih _)

theorem findBlock_steady (size : ℕ) (h : Heap) : Steady (findBlock · size h) := by
  refine .of_succ fun n => ?_
  unfold findBlock
  generalize h.start = c
  induction n generalizing c with
  | zero => exact .none _
  | succ n ih => exact .ite (.refl _) (.ite (.refl _) (ih _))

theorem coalesce_steady (h : Heap) : Steady (coalesce · h) := by
  refine .of_succ fun n => .map _ ?_
  generalize h.start = b, h.mem = mem
  induction n generalizing b mem with
  | zero => exact .none _
  | succ n ih => exact .ite (.refl _) (.ite (ih _ _) (ih _ _))

def slack (need : ℕ) : ℕ := (need + blockSize + minAlloc) % 2 ^ 32

theorem double_pow {j : ℕ} (hj : j < 31) : 2 ^ (31 - (j + 1)) * 2 % 2 ^ 32 = 2 ^ (31 - j) := by
  rw [← Nat.pow_succ, show (31 - (j + 1)).succ = 31 - j by omega]
  exact Nat.mod_eq_of_lt (Nat.pow_lt_pow_right (by norm_num) (by omega))

theorem growTo_some (hN : slack need ≤ 2 ^ 31) (j : ℕ) (hj : j ≤ 11) (hf : j < fuel) :
    ∃ g, growTo need fuel (2 ^ (31 - j)) = some g ∧ slack need ≤ g ∧ 2 ^ 20 ≤ g ∧ g ≤ 2 ^ 31 := by
  induction j generalizing fuel with
  | zero =>
    obtain ⟨f, rfl⟩ : ∃ f, fuel = f + 1 := ⟨fuel - 1, by omega⟩
    refine ⟨2 ^ 31, ?_, hN, by norm_num, le_refl _⟩
    simp only [growTo]
    rw [if_neg (by simp only [slack] at hN; omega)]
  | succ j ih =>
    obtain ⟨f, rfl⟩ : ∃ f, fuel = f + 1 := ⟨fuel - 1, by omega⟩
    simp only [growTo, double_pow (show j < 31 by omega)]
    split
    · exact ih (by omega) (by omega)
    · rename_i hge
      refine ⟨_, rfl, by simp only [slack]; omega, ?_, ?_⟩
      all_goals exact Nat.pow_le_pow_right (by norm_num) (by omega)

/-- The doubling wraps to 0 before it reaches a lump of more than `2 ^ 31` bytes. -/
theorem growTo_none (hN : 2 ^ 31 < slack need) (fuel : ℕ) : growTo need fuel heapLump = none := by
  have hzero : ∀ f, growTo need f 0 = none := by
    intro f
    induction f with
    | zero => rfl
    | succ f ih =>
      have hlt : 0 < (need + blockSize + minAlloc) % 2 ^ 32 := by
        simp only [slack] at hN
        omega
      simp only [growTo, if_pos hlt]
      exact ih
  have hpow : ∀ f j, j ≤ 11 → growTo need f (2 ^ (31 - j)) = none := by
    intro f
    induction f with
    | zero =>
      intro j _
      rfl
    | succ f ih =>
      intro j hj
      have hle : 2 ^ (31 - j) ≤ 2 ^ 31 := Nat.pow_le_pow_right (by norm_num) (by omega)
      have hlt : 2 ^ (31 - j) < (need + blockSize + minAlloc) % 2 ^ 32 := lt_of_le_of_lt hle hN
      simp only [growTo, if_pos hlt]
      cases j with
      | zero => exact hzero f
      | succ j =>
        rw [double_pow (by omega)]
        exact ih j (by omega)
  exact hpow fuel 11 (le_refl _)

theorem sysBrk_raise (frames : ℕ → Bool) (kn : Kernel) (grow : ℕ)
    (hlow : brkMin ≤ kn.brk) (hhigh : kn.brk ≤ brkMax) (hg : 2 ^ 20 ≤ grow) (hg' : grow ≤ 2 ^ 31) :
    ((sysBrk frames (kn.brk + grow) kn).1 = kn.brk + grow ∧ kn.brk + grow ≤ brkMax ∧
      (sysBrk frames (kn.brk + grow) kn).2.brk = kn.brk + grow ∧
      (sysBrk frames (kn.brk + grow) kn).2.refused = kn.refused) ∨
    ((sysBrk frames (kn.brk + grow) kn).1 ≠ kn.brk + grow ∧
      (sysBrk frames (kn.brk + grow) kn).2.brk = kn.brk ∧
      (sysBrk frames (kn.brk + grow) kn).2.refused = kn.refused + 1) := by
  simp only [brkMin, brkMax] at hlow hhigh
  have hne : kn.brk + grow ≠ 0 := by omega
  have herr : 2 ^ 32 - enomem ≠ kn.brk + grow := by
    simp only [enomem]
    omega
  by_cases hmax : brkMax < kn.brk + grow
  · right
    simp only [sysBrk, hne, if_false, hmax, or_true, if_true, Kernel.refuse]
    exact ⟨herr, trivial, trivial⟩
  have hmin : ¬ kn.brk + grow < brkMin := by
    simp only [brkMin]
    omega
  simp only [sysBrk, hne, if_false, hmin, hmax, or_self, brkSet]
  split
  · split
    · exact Or.inl ⟨rfl, by omega, rfl, rfl⟩
    · exact Or.inr ⟨herr, rfl, rfl⟩
  · exact Or.inl ⟨rfl, by omega, rfl, rfl⟩

/-- Asking for more heap keeps the blocks in use and makes one more at most. -/
theorem moreHeap_spec (frames : ℕ → Bool) (hs : Shape h l)
    (hN : slack need ≤ 2 ^ 31) (hf : l.length + 11 < fuel) :
    ∃ ok h' l', moreHeap frames fuel need h = some (ok, h') ∧ Shape h' l' ∧
      l'.length ≤ l.length + 1 ∧ Keeps h.mem h'.mem l l' ∧
      (ok = true → h.kern.brk + 2 ^ 20 ≤ h'.kern.brk ∧ h'.kern.refused = h.kern.refused) := by
  have hlow := hs.brk_ge
  have htop := hs.top
  obtain ⟨g, hgrow, -, hg, hg'⟩ := growTo_some hN 11 (le_refl _) (show _ < fuel by omega)
  have hlump : heapLump = 2 ^ (31 - 11) := rfl
  have hcur : h.kern.brk ≠ 2 ^ 32 - 1 := by
    simp only [brkMax] at htop
    omega
  have hwant : (h.kern.brk + g) % 2 ^ 32 = h.kern.brk + g := by
    simp only [brkMax] at htop
    omega
  have hask : sysBrk frames 0 h.kern = (h.kern.brk, h.kern) := rfl
  rcases sysBrk_raise frames h.kern g hlow htop hg hg' with ⟨hgot, hfit, hbrk, href⟩ |
    ⟨hgot, hbrk, href⟩
  · obtain ⟨h', happ, hs', hkern, hkeep, -⟩ := appendLump_spec hs
      (show blockSize ≤ g by simp only [blockSize]; omega) hfit (show _ < fuel by omega)
      (sysBrk frames (h.kern.brk + g) h.kern).2 hbrk
    refine ⟨true, h', l ++ [h.kern.brk], ?_, hs', by simp, hkeep, ?_⟩
    · simp only [moreHeap, hask, hcur, if_false, hlump, hgrow, Option.bind_some, hwant, hgot,
        ne_eq, not_true_eq_false, happ, Option.map_some]
    · intro _
      rw [hkern]
      omega
  · refine ⟨false, { h with kern := (sysBrk frames (h.kern.brk + g) h.kern).2 }, l, ?_,
      ⟨?_, hs.start_eq, ?_⟩, by omega, Keeps.refl _ _, by simp⟩
    · simp only [moreHeap, hask, hcur, if_false, hlump, hgrow, Option.bind_some, hwant, hgot,
        ne_eq, not_false_eq_true, if_true]
    · simp only [hbrk]
      exact hs.tiled
    · simp only [hbrk]
      exact htop

theorem moreHeap_none (frames : ℕ → Bool) (hs : Shape h l)
    (hN : 2 ^ 31 < slack need) (fuel : ℕ) : moreHeap frames fuel need h = none := by
  have htop := hs.top
  have hcur : h.kern.brk ≠ 2 ^ 32 - 1 := by
    simp only [brkMax] at htop
    omega
  have hask : sysBrk frames 0 h.kern = (h.kern.brk, h.kern) := rfl
  simp only [moreHeap, hask, hcur, if_false, growTo_none hN, Option.bind_none]

theorem moreHeap_steady (frames : ℕ → Bool) (need : ℕ) (h : Heap) :
    Steady (moreHeap frames · need h) := by
  intro n m hle
  refine .ite (.refl _) (.bind (growTo_steady need _ hle) fun grow => .ite (.refl _) (.map _ ?_))
  exact .ite (.refl _) (.map _ (lastBlock_steady _ _ hle))

end Vnu.Malloc
