import Mathlib.Data.List.Infix
import Mathlib.Data.List.DropRight

/-!
Walks down and up a tree of names. A walker that remembers `n` names is at the right place in the
end exactly when it comes back to the root after every time it was too deep.
-/
namespace Vnu.Lib

open List Nat

variable {α : Type}

inductive Move (α : Type) where
  | stay
  | up
  | down (a : α)

namespace Move

def go (here : List α) : Move α → List α
  | .stay => here
  | .up => here.dropLast
  | .down a => here ++ [a]

def goWithin (n : ℕ) (here : List α) : Move α → List α
  | .stay => here
  | .up => here.dropLast
  | .down a => if here.length < n then here ++ [a] else here

end Move

def walk (ms : List (Move α)) : List α := ms.foldl Move.go []

def walkWithin (n : ℕ) (ms : List (Move α)) : List α := ms.foldl (Move.goWithin n) []

/-- Whenever the walk is deeper than `n`, it comes back to the root later on. -/
def ComesBack (n : ℕ) (ms : List (Move α)) : Prop :=
  ∀ pre, pre <+: ms → n < (walk pre).length → ∃ more, pre <+: more ∧ more <+: ms ∧ walk more = []

theorem walk_concat (ms : List (Move α)) (m : Move α) : walk (ms ++ [m]) = m.go (walk ms) :=
  foldl_concat ..

theorem walkWithin_concat (n : ℕ) (ms : List (Move α)) (m : Move α) :
    walkWithin n (ms ++ [m]) = m.goWithin n (walkWithin n ms) := foldl_concat ..

theorem length_walkWithin_le (n : ℕ) (ms : List (Move α)) : (walkWithin n ms).length ≤ n := by
  induction ms using reverseRecOn with
  | nil => exact zero_le n
  | append_singleton ms m ih =>
    rw [walkWithin_concat]
    cases m with
    | stay => exact ih
    | up =>
      simp only [Move.goWithin, length_dropLast]
      omega
    | down a =>
      simp only [Move.goWithin]
      split_ifs with h
      · rw [length_append]
        exact h
      · exact ih

/-- The last move ends at the start, or no excursion was open before it and it opens none. -/
theorem comesBack_concat (n : ℕ) (ms : List (Move α)) (m : Move α) :
    ComesBack n (ms ++ [m]) ↔ walk (ms ++ [m]) = [] ∨
      ComesBack n ms ∧ (walk (ms ++ [m])).length ≤ n := by
  constructor
  · intro h
    by_cases hroot : walk (ms ++ [m]) = []
    · exact .inl hroot
    refine .inr ⟨?_, ?_⟩
    · intro pre hpre hdeep
      obtain ⟨more, hle, hmore, hzero⟩ := h pre (hpre.trans (prefix_append ms [m])) hdeep
      rcases prefix_concat_iff.mp hmore with rfl | hmore
      · exact absurd hzero hroot
      · exact ⟨more, hle, hmore, hzero⟩
    · by_contra hdeep
      obtain ⟨more, hle, hmore, hzero⟩ := h _ prefix_rfl (not_le.mp hdeep)
      have heq : more = ms ++ [m] := hmore.eq_of_length (le_antisymm hmore.length_le
        hle.length_le)
      exact hroot (heq ▸ hzero)
  · rintro (hroot | ⟨hback, hle⟩) pre hpre hdeep
    · exact ⟨ms ++ [m], hpre, prefix_rfl, hroot⟩
    · rcases prefix_concat_iff.mp hpre with rfl | hpre
      · omega
      · obtain ⟨more, hpm, hmore, hzero⟩ := hback pre hpre hdeep
        exact ⟨more, hpm, hmore.trans (prefix_append ms [m]), hzero⟩

/-- Either the walker is where the walk is, or it is too close to the root. -/
theorem walkWithin_cases (n : ℕ) (ms : List (Move α)) :
    (ComesBack n ms ∧ walkWithin n ms = walk ms) ∨
      ¬ ComesBack n ms ∧ (walkWithin n ms).length < (walk ms).length := by
  induction ms using reverseRecOn with
  | nil =>
    refine .inl ⟨?_, rfl⟩
    intro pre hpre hdeep
    rw [prefix_nil.mp hpre] at hdeep
    exact absurd hdeep (Nat.not_lt_zero n)
  | append_singleton ms m ih =>
    rw [comesBack_concat, walk_concat, walkWithin_concat]
    have hlen := length_walkWithin_le n ms
    rcases ih with ⟨hback, heq⟩ | ⟨hback, hlt⟩
    · -- in step so far: only a step down from depth `n` parts them
      rw [heq] at hlen ⊢
      cases m with
      | stay => exact .inl ⟨.inr ⟨hback, hlen⟩, rfl⟩
      | up =>
        refine .inl ⟨.inr ⟨hback, ?_⟩, rfl⟩
        simp only [Move.go, length_dropLast]
        omega
      | down a =>
        simp only [Move.go, Move.goWithin, length_append, length_singleton]
        split_ifs with hroom
        · exact .inl ⟨.inr ⟨hback, hroom⟩, rfl⟩
        refine .inr ⟨?_, lt_succ_self _⟩
        rintro (hroot | ⟨-, hle⟩)
        · simp at hroot
        · omega
    -- out of step: they meet again at the root, and nowhere else
    cases m with
    | stay =>
      refine .inr ⟨?_, hlt⟩
      rintro (hroot | ⟨hback', -⟩)
      · simp only [Move.go] at hroot
        rw [hroot] at hlt
        exact absurd hlt (Nat.not_lt_zero _)
      · exact hback hback'
    | up =>
      simp only [Move.go, Move.goWithin, length_dropLast]
      by_cases hone : (walk ms).length = 1
      · have hroot : (walk ms).dropLast = [] := by
          rw [← length_eq_zero_iff, length_dropLast, hone]
        have hnone : walkWithin n ms = [] := by
          rw [← length_eq_zero_iff]
          omega
        rw [hnone, hroot]
        exact .inl ⟨.inl rfl, rfl⟩
      · refine .inr ⟨?_, by omega⟩
        rintro (hroot | ⟨hback', -⟩)
        · have := congrArg length hroot
          simp only [length_dropLast, length_nil] at this
          omega
        · exact hback hback'
    | down a =>
      refine .inr ⟨?_, ?_⟩
      · rintro (hroot | ⟨hback', -⟩)
        · simp [Move.go] at hroot
        · exact hback hback'
      · simp only [Move.go, Move.goWithin]
        split_ifs
        · simpa using hlt
        · simp only [length_append]
          omega

theorem walkWithin_eq_iff (n : ℕ) (ms : List (Move α)) :
    walkWithin n ms = walk ms ↔ ComesBack n ms := by
  rcases walkWithin_cases n ms with ⟨hback, heq⟩ | ⟨hback, hlt⟩
  · exact iff_of_true heq hback
  · refine iff_of_false (fun heq => ?_) hback
    rw [heq] at hlt
    exact lt_irrefl _ hlt

def Move.name : Move α → Option α
  | .down a => some a
  | _ => none

theorem walkWithin_sublist (n : ℕ) (ms : List (Move α)) :
    (walkWithin n ms).Sublist (ms.filterMap Move.name) := by
  induction ms using reverseRecOn with
  | nil => exact Sublist.refl _
  | append_singleton ms m ih =>
    rw [walkWithin_concat, filterMap_append]
    cases m with
    | stay => exact ih.trans (sublist_append_left _ _)
    | up => exact ((dropLast_sublist _).trans ih).trans (sublist_append_left _ _)
    | down a =>
      simp only [Move.goWithin]
      split_ifs
      · exact ih.append (Sublist.refl [a])
      · exact ih.trans (sublist_append_left _ _)

theorem walk_sublist (ms : List (Move α)) : (walk ms).Sublist (ms.filterMap Move.name) := by
  induction ms using reverseRecOn with
  | nil => exact Sublist.refl _
  | append_singleton ms m ih =>
    rw [walk_concat, filterMap_append]
    cases m with
    | stay => exact ih.trans (sublist_append_left _ _)
    | up => exact ((dropLast_sublist _).trans ih).trans (sublist_append_left _ _)
    | down a => exact ih.append (Sublist.refl [a])

theorem walkWithin_append_stay (n k : ℕ) (ms : List (Move α)) :
    walkWithin n (ms ++ replicate k .stay) = walkWithin n ms := by
  induction k with
  | zero => rw [replicate_zero, append_nil]
  | succ k ih =>
    rw [replicate_succ', ← append_assoc, walkWithin_concat, ih]
    rfl

/-- A walk of `n` moves is nowhere deeper than `n`. -/
theorem comesBack_of_length_le {n : ℕ} {ms : List (Move α)} (h : ms.length ≤ n) :
    ComesBack n ms := by
  intro pre hpre hdeep
  have hwalk := (walk_sublist pre).length_le.trans (length_filterMap_le Move.name pre)
  have hlen := hpre.length_le
  omega

theorem walkWithin_down {n : ℕ} {as : List α} (h : as.length ≤ n) :
    walkWithin n (as.map Move.down) = as := by
  induction as using reverseRecOn with
  | nil => rfl
  | append_singleton as a ih =>
    rw [length_append, length_singleton] at h
    rw [map_append, map_singleton, walkWithin_concat, ih (by omega)]
    exact if_pos (by omega)

end Vnu.Lib
