import Mathlib.Data.Finset.Card
import Mathlib.Data.List.GetD
import Mathlib.Order.Interval.Finset.Nat
import Vnu.Fat16.Table
import Vnu.Lib.Links

/-!
Cluster chains as lists, linked through the table and closed by the mark 0xFFFF.
-/
namespace Vnu.Fat16

open Lib Lib.Links List Nat

structure Chain (fs : Fs) (f : ℕ → ℕ) (first : ℕ) (l : List ℕ) : Prop where
  head : first = l.headD 0
  links : Linked f 0xFFFF l
  range : ∀ x ∈ l, fs.InRange x

theorem nextOf_range {fs : Fs} (hg : Geometry fs) {c : ℕ} (hc : fs.InRange c) : nextOf c = c := by
  have h2 := hc.2
  have h3 := hg.max_le
  unfold nextOf
  split
  · omega
  · rfl

section

variable {fs : Fs} (hg : Geometry fs) {f f' : ℕ → ℕ} {first : ℕ} {l : List ℕ}
include hg

theorem mark_notMem (hr : ∀ x ∈ l, fs.InRange x) : 0xFFFF ∉ l := by
  intro hmem
  have h1 := (hr _ hmem).2
  have h2 := hg.max_le
  omega

theorem Chain.nodup (h : Chain fs f first l) : l.Nodup :=
  linked_nodup h.links (mark_notMem hg h.range)

omit hg in
theorem Chain.congr (h : Chain fs f first l) (hf : ∀ x ∈ l, f' x = f x) : Chain fs f' first l :=
  ⟨h.head, linked_congr h.links hf, h.range⟩

omit hg in
theorem Chain.ne_zero (h : Chain fs f first l) (hl : l ≠ []) : first ≠ 0 := by
  cases l with
  | nil => exact absurd rfl hl
  | cons a l =>
    obtain rfl : first = a := h.head
    exact (h.range first mem_cons_self).ne_zero

omit hg in
theorem Chain.eq_nil (h : Chain fs f 0 l) : l = [] := by
  by_contra hl
  exact h.ne_zero hl rfl

omit hg in
theorem Chain.ne_nil (h : Chain fs f first l) (hfirst : first ≠ 0) : l ≠ [] := by
  rintro rfl
  exact hfirst h.head

omit hg in
theorem Chain.first_mem (h : Chain fs f first l) (hfirst : first ≠ 0) : first ∈ l := by
  cases l with
  | nil => exact absurd h.head hfirst
  | cons a l =>
    rw [h.head]
    exact mem_cons_self

theorem Chain.length_le (h : Chain fs f first l) : l.length + 1 ≤ fs.maxCluster := by
  have hsub : l.toFinset ⊆ Finset.Icc 2 fs.maxCluster := by
    intro x hx
    exact Finset.mem_Icc.mpr (h.range x (mem_toFinset.mp hx))
  have hcard := Finset.card_le_card hsub
  rw [toFinset_card_of_nodup (h.nodup hg), Nat.card_Icc] at hcard
  have := hg.max_ge
  omega

omit hg in
theorem Chain.used (h : Chain fs f first l) {x : ℕ} (hx : x ∈ l) : f x ≠ 0 := by
  obtain ⟨i, hi, rfl⟩ := mem_iff_getElem.mp hx
  rw [linked_getElem h.links hi]
  by_cases hnext : i + 1 < l.length
  · rw [getD_eq_getElem _ _ hnext]
    exact (h.range _ (getElem_mem hnext)).ne_zero
  · rw [getD_eq_default _ _ (by omega)]
    omega

omit hg in
theorem Chain.getD_ne_zero (h : Chain fs f first l) {i : ℕ} (hi : i < l.length) :
    l.getD i 0 ≠ 0 := by
  rw [getD_eq_getElem _ _ hi]
  exact (h.range _ (getElem_mem hi)).ne_zero

theorem Chain.next (h : Chain fs f first l) {i : ℕ} (hi : i < l.length) :
    nextOf (f (l.get ⟨i, hi⟩)) = l.getD (i + 1) 0 := by
  rw [get_eq_getElem, linked_getElem h.links hi]
  by_cases hnext : i + 1 < l.length
  · rw [getD_eq_getElem _ _ hnext, getD_eq_getElem _ _ hnext]
    exact nextOf_range hg (h.range _ (getElem_mem hnext))
  · rw [getD_eq_default _ _ (by omega), getD_eq_default _ _ (by omega)]
    rfl

end

section

variable {fs : Fs} (hg : Geometry fs) (d : Disk) {first : ℕ} {l : List ℕ}
include hg

/-- What follows the first cluster is the chain of the next one. -/
theorem Chain.tail {f : ℕ → ℕ} {a : ℕ} (h : Chain fs f first (a :: l)) :
    fs.InRange first ∧ Chain fs f (nextOf (f first)) l := by
  obtain rfl : first = a := h.head
  refine ⟨h.range first mem_cons_self, ?_, h.links.2, fun x hx => h.range x (mem_cons_of_mem _ hx)⟩
  have hnext := h.next hg (i := 0) (Nat.succ_pos _)
  cases l <;> exact hnext

theorem chainLenLoop_eq (k fuel : ℕ) (h : Chain fs (view fs d).fat first l) (hl : l ≠ [])
    (hfuel : l.length < fuel) (hk : k + l.length ≤ fs.maxCluster + 2) :
    chainLenLoop fs d fuel k first = some (k + l.length) := by
  induction l generalizing first k fuel with
  | nil => exact absurd rfl hl
  | cons a l ih =>
    obtain ⟨fuel, rfl⟩ : ∃ m, fuel = m + 1 := ⟨fuel - 1, by omega⟩
    obtain ⟨hr, hrest⟩ := h.tail hg
    simp only [length_cons] at hfuel hk
    have hguard : ¬ k + 1 > fs.maxCluster + 2 := by omega
    simp only [chainLenLoop, hr, if_true, hguard, fatNext_eq hg d hr.2]
    cases l with
    | nil => exact if_pos hrest.head
    | cons b l =>
      have hne := hrest.ne_zero (cons_ne_nil b l)
      simp only [hne, if_false, length_cons] at hfuel hk ⊢
      rw [ih (k + 1) fuel hrest (cons_ne_nil b l) (by simpa using hfuel) (by simp; omega)]
      simp only [length_cons, Option.some.injEq]
      omega

theorem chainLen_eq (h : Chain fs (view fs d).fat first l) (hl : l ≠ []) :
    chainLen fs first d = some l.length := by
  have hlen := h.length_le hg
  rw [chainLen, chainLenLoop_eq hg d 0 _ h hl (by omega) (by omega), zero_add]

theorem fileChainLen_eq (h : Chain fs (view fs d).fat first l) :
    fileChainLen fs first d = some l.length := by
  unfold fileChainLen
  split
  · rename_i hfirst
    subst hfirst
    rw [h.eq_nil]
    rfl
  · rename_i hfirst
    exact chainLen_eq hg d h (h.ne_nil hfirst)

theorem chainAt_eq (h : Chain fs (view fs d).fat first l) {i : ℕ} (hi : i < l.length) :
    chainAt fs first i d = some (l.get ⟨i, hi⟩) := by
  cases l with
  | nil => exact absurd hi (Nat.not_lt_zero i)
  | cons a l =>
    induction i generalizing first a l with
    | zero =>
      rw [chainAt, if_neg (h.ne_zero (cons_ne_nil a l)), h.head]
      rfl
    | succ i ih =>
      obtain ⟨hr, hrest⟩ := h.tail hg
      cases l with
      | nil => simp at hi
      | cons b l =>
        simp only [chainAt, fatNext_eq hg d hr.2, hrest.ne_zero (cons_ne_nil b l)]
        exact ih b l hrest (Nat.lt_of_succ_lt_succ hi)

theorem chainAt_none (h : Chain fs (view fs d).fat first l) (hzero : (view fs d).fat 0 = 0xFFF8)
    {i : ℕ} (hi : l.length ≤ i) : chainAt fs first i d = none := by
  induction i generalizing first l with
  | zero =>
    obtain rfl : l = [] := eq_nil_of_length_eq_zero (by omega)
    obtain rfl : first = 0 := h.head
    rfl
  | succ i ih =>
    cases l with
    | nil =>
      obtain rfl : first = 0 := h.head
      simp only [chainAt, fatNext_eq hg d (zero_le _), hzero]
      rfl
    | cons a l =>
      obtain ⟨hr, hrest⟩ := h.tail hg
      simp only [chainAt, fatNext_eq hg d hr.2]
      split_ifs
      · rfl
      · exact ih hrest (Nat.le_of_succ_le_succ hi)

end

end Vnu.Fat16
