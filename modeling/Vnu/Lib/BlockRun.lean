import Mathlib.Data.List.Basic
import Mathlib.Data.List.Nodup
import Mathlib.Data.List.Pairwise
import Mathlib.Logic.Function.Basic

/-!
Blocks laid end to end and threaded by a link field: a header of `k` cells, `size a` payload cells,
and the address `next a` of the block that follows. The addresses tile an interval exactly.
-/
namespace Vnu.Lib.BlockRun

open List

variable {a e b c : ℕ} {l : List ℕ}

/-- The blocks `l` tile the cells from `a` up to `e`, each linked to the next. -/
def Run (k : ℕ) (size next : ℕ → ℕ) : ℕ → List ℕ → ℕ → Prop
  | a, [], e => a = e
  | a, b :: l, e =>
      b = a ∧ next a = l.headD 0 ∧ Run k size next (a + k + size a) l e

variable {k : ℕ} {size next : ℕ → ℕ}

theorem run_congr {size' next' : ℕ → ℕ} (h : Run k size next a l e)
    (hsame : ∀ b ∈ l, size' b = size b ∧ next' b = next b) : Run k size' next' a l e := by
  induction l generalizing a with
  | nil => exact h
  | cons b l ih =>
    obtain ⟨rfl, hnext, hrest⟩ := h
    obtain ⟨hsize, hlink⟩ := hsame b mem_cons_self
    refine ⟨rfl, hlink.trans hnext, ?_⟩
    rw [hsize]
    exact ih hrest fun c hc => hsame c (mem_cons_of_mem _ hc)

theorem run_le (h : Run k size next a l e) : a ≤ e := by
  induction l generalizing a with
  | nil => exact Nat.le_of_eq h
  | cons b l ih =>
    have hrest := ih h.2.2
    omega

theorem run_mem_bounds (h : Run k size next a l e) (hb : b ∈ l) : a ≤ b ∧ b + k + size b ≤ e := by
  induction l generalizing a with
  | nil => simp at hb
  | cons c l ih =>
    obtain ⟨rfl, -, hrest⟩ := h
    rcases mem_cons.mp hb with rfl | hb
    · exact ⟨Nat.le_refl _, run_le hrest⟩
    · have hin := ih hrest hb
      omega

theorem run_separate (h : Run k size next a l e) (hb : b ∈ l) (hc : c ∈ l) :
    b = c ∨ b + k + size b ≤ c ∨ c + k + size c ≤ b := by
  induction l generalizing a with
  | nil => simp at hb
  | cons d l ih =>
    obtain ⟨rfl, -, hrest⟩ := h
    rcases mem_cons.mp hb with rfl | hbl
    · rcases mem_cons.mp hc with rfl | hcl
      · exact Or.inl rfl
      · exact Or.inr (Or.inl (run_mem_bounds hrest hcl).1)
    · rcases mem_cons.mp hc with rfl | hcl
      · exact Or.inr (Or.inr (run_mem_bounds hrest hbl).1)
      · exact ih hrest hbl hcl

theorem run_nodup (hk : 0 < k) (h : Run k size next a l e) : l.Nodup := by
  induction l generalizing a with
  | nil => exact nodup_nil
  | cons b l ih =>
    obtain ⟨rfl, -, hrest⟩ := h
    refine nodup_cons.mpr ⟨?_, ih hrest⟩
    intro hmem
    have hin := (run_mem_bounds hrest hmem).1
    omega

theorem run_headD (h : Run k size next a l e) (hl : l ≠ []) : l.headD 0 = a := by
  cases l with
  | nil => exact absurd rfl hl
  | cons b l => exact h.1

theorem run_next_mem (h : Run k size next a l e) (hb : b ∈ l) : next b = 0 ∨ next b ∈ l := by
  induction l generalizing a with
  | nil => simp at hb
  | cons c l ih =>
    obtain ⟨rfl, hnext, hrest⟩ := h
    rcases mem_cons.mp hb with rfl | hb
    · cases l with
      | nil => exact Or.inl hnext
      | cons d l =>
        refine Or.inr ?_
        rw [hnext]
        simp
    · rcases ih hrest hb with h0 | hmem
      · exact Or.inl h0
      · exact Or.inr (mem_cons_of_mem _ hmem)

theorem run_append_one (hk : 0 < k) (hl : l ≠ []) (h : Run k size next a l e)
    (size' next' : ℕ → ℕ) (hlast : next' (l.getLast hl) = e)
    (hsame : ∀ b ∈ l, size' b = size b ∧ (b ≠ l.getLast hl → next' b = next b))
    (hnew : next' e = 0) : Run k size' next' a (l ++ [e]) (e + k + size' e) := by
  induction l generalizing a with
  | nil => exact absurd rfl hl
  | cons b l ih =>
    have hnd := run_nodup hk h
    obtain ⟨rfl, hnext, hrest⟩ := h
    obtain ⟨hsize, hlink⟩ := hsame b mem_cons_self
    cases l with
    | nil =>
      have he : b + k + size b = e := hrest
      refine ⟨rfl, hlast, ?_⟩
      rw [hsize, he]
      exact ⟨rfl, hnew, rfl⟩
    | cons c l =>
      have hne : c :: l ≠ [] := cons_ne_nil _ _
      have hb : b ≠ (b :: c :: l).getLast hl :=
        fun heq => (nodup_cons.mp hnd).1 (heq ▸ getLast_mem hne)
      refine ⟨rfl, (hlink hb).trans hnext, ?_⟩
      rw [hsize]
      exact ih hne hrest hlast fun d hd => hsame d (mem_cons_of_mem _ hd)

/-- Cutting the block `b` in two: it keeps `s` payload cells. -/
theorem run_split {s : ℕ} (hk : 0 < k) (h : Run k size next a l e) (hb : b ∈ l)
    (hfit : s + k ≤ size b) (size' next' : ℕ → ℕ) (hsb : size' b = s) (hnb : next' b = b + k + s)
    (hsn : size' (b + k + s) = size b - s - k) (hnn : next' (b + k + s) = next b)
    (hsame : ∀ c ∈ l, c ≠ b → size' c = size c ∧ next' c = next c) :
    ∃ l', Run k size' next' a l' e ∧ l'.headD 0 = l.headD 0 ∧
      ∀ c, c ∈ l' ↔ c ∈ l ∨ c = b + k + s := by
  induction l generalizing a with
  | nil => simp at hb
  | cons d l ih =>
    have hnd := run_nodup hk h
    obtain ⟨rfl, hnext, hrest⟩ := h
    have hrestSame : ∀ c ∈ l, c ≠ b → size' c = size c ∧ next' c = next c :=
      fun c hc => hsame c (mem_cons_of_mem _ hc)
    by_cases hbd : b = d
    · subst hbd
      have hfar : ∀ c ∈ l, c ≠ b := fun c hc heq => (nodup_cons.mp hnd).1 (heq ▸ hc)
      refine ⟨b :: (b + k + s) :: l, ⟨rfl, hnb, ?_⟩, rfl, by simp [or_comm, or_left_comm]⟩
      rw [hsb]
      refine ⟨rfl, hnn.trans hnext, ?_⟩
      have hend : b + k + s + k + size' (b + k + s) = b + k + size b := by omega
      rw [hend]
      exact run_congr hrest fun c hc => hrestSame c hc (hfar c hc)
    · obtain ⟨l', hrun, hhead, hmem⟩ := ih hrest ((mem_cons.mp hb).resolve_left hbd) hrestSame
      obtain ⟨hsize, hlink⟩ := hsame d mem_cons_self (Ne.symm hbd)
      refine ⟨d :: l', ⟨rfl, ?_, ?_⟩, rfl, by simp [hmem, or_assoc]⟩
      · rw [hlink, hnext, hhead]
      · rw [hsize]
        exact hrun

theorem run_merge (h : Run k size next a (b :: c :: l) e) (size' next' : ℕ → ℕ)
    (hsb : size' b = size b + (k + size c)) (hnb : next' b = next c)
    (hsame : ∀ d ∈ l, size' d = size d ∧ next' d = next d) : Run k size' next' a (b :: l) e := by
  obtain ⟨rfl, -, rfl, hnext, hrest⟩ := h
  refine ⟨rfl, hnb.trans hnext, ?_⟩
  have hend : b + k + size' b = b + k + size b + k + size (b + k + size b) := by omega
  rw [hend]
  exact run_congr hrest hsame

end Vnu.Lib.BlockRun
