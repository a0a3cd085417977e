import Mathlib.Data.Set.Insert
import Mathlib.Logic.Function.Basic

/-!
Cells handed out to owners. Every taken cell is in the list of one owner or is lost.
-/
namespace Vnu.Lib.Ownership

open Function

variable {α β : Type*} {cell taken taken' : β → Prop} {r : α → List β} {lost lost' : Set β}

structure Owns (cell taken : β → Prop) (r : α → List β) (lost : Set β) : Prop where
  disjoint : ∀ a a' x, x ∈ r a → x ∈ r a' → a = a'
  used : ∀ x, cell x → (taken x ↔ x ∈ lost ∨ ∃ a, x ∈ r a)
  lost : ∀ x ∈ lost, cell x ∧ ∀ a, x ∉ r a

namespace Owns

theorem notMem (h : Owns cell taken r lost) {a a' : α} (hne : a ≠ a') {x : β} (hx : x ∈ r a) :
    x ∉ r a' := fun hx' => hne (h.disjoint a a' x hx hx')

theorem unused (h : Owns cell taken r lost) {x : β} (hx : cell x) (hfree : ¬ taken x) :
    x ∉ lost ∧ ∀ a, x ∉ r a := by
  have hno := mt (h.used x hx).mpr hfree
  rw [not_or, not_exists] at hno
  exact hno

theorem lost_taken (h : Owns cell taken r lost) {x : β} (hx : x ∈ lost) : taken x :=
  (h.used x (h.lost x hx).1).mpr (Or.inl hx)

theorem relabel (h : Owns cell taken r lost) (hlost : ∀ x ∈ lost', cell x ∧ ∀ a, x ∉ r a)
    (hused : ∀ x, cell x → (∀ a, x ∉ r a) → (taken' x ↔ x ∈ lost'))
    (hkeep : ∀ a, ∀ x ∈ r a, cell x → taken' x) : Owns cell taken' r lost' := by
  refine ⟨h.disjoint, ?_, hlost⟩
  intro x hx
  by_cases ho : ∃ a, x ∈ r a
  · obtain ⟨a, ha⟩ := ho
    exact ⟨fun _ => Or.inr ⟨a, ha⟩, fun _ => hkeep a x ha hx⟩
  · rw [hused x hx (not_exists.mp ho)]
    exact ⟨Or.inl, fun hor => hor.resolve_right ho⟩

/-- Owners may be given up; what they held is lost, not free. -/
theorem forget (h : Owns cell taken r lost) {r' : α → List β} {S : Set α}
    (hout : ∀ a, a ∉ S → r' a = r a) (hin : ∀ a ∈ S, r' a = [])
    (hcell : ∀ a ∈ S, ∀ x ∈ r a, cell x) :
    Owns cell taken r' (lost ∪ {x | ∃ a ∈ S, x ∈ r a}) := by
  have hmem : ∀ a x, x ∈ r' a ↔ a ∉ S ∧ x ∈ r a := by
    intro a x
    by_cases ha : a ∈ S
    · simp [hin a ha, ha]
    · simp [hout a ha, ha]
  refine ⟨?_, ?_, ?_⟩
  · intro a a' x hx hx'
    exact h.disjoint a a' x ((hmem a x).mp hx).2 ((hmem a' x).mp hx').2
  · intro x hx
    rw [h.used x hx]
    constructor
    · rintro (hlost | ⟨a, ha⟩)
      · exact Or.inl (Or.inl hlost)
      · by_cases hS : a ∈ S
        · exact Or.inl (Or.inr ⟨a, hS, ha⟩)
        · exact Or.inr ⟨a, (hmem a x).mpr ⟨hS, ha⟩⟩
    · rintro ((hlost | ⟨a, -, ha⟩) | ⟨a, ha⟩)
      · exact Or.inl hlost
      · exact Or.inr ⟨a, ha⟩
      · exact Or.inr ⟨a, ((hmem a x).mp ha).2⟩
  · rintro x (hlost | ⟨a, hS, ha⟩)
    · exact ⟨(h.lost x hlost).1, fun a hx => (h.lost x hlost).2 a ((hmem a x).mp hx).2⟩
    · refine ⟨hcell a hS x ha, ?_⟩
      intro a' hx
      obtain ⟨hS', ha'⟩ := (hmem a' x).mp hx
      exact hS' (h.disjoint a a' x ha ha' ▸ hS)

variable [DecidableEq α]

theorem mem_update {a a' : α} {l : List β} {x : β} :
    x ∈ update r a l a' ↔ (a' = a ∧ x ∈ l) ∨ (a' ≠ a ∧ x ∈ r a') := by
  by_cases h : a' = a
  · subst h
    simp
  · simp [h]

/-- One owner gets other cells; the rest keep theirs. -/
theorem update (h : Owns cell taken r lost) {a : α} {l : List β}
    (hl : ∀ x ∈ l, ∀ a', a' ≠ a → x ∉ r a')
    (hlost : ∀ x ∈ lost', cell x ∧ x ∉ l ∧ ∀ a', a' ≠ a → x ∉ r a')
    (hused : ∀ x, cell x → (∀ a', a' ≠ a → x ∉ r a') → (taken' x ↔ x ∈ lost' ∨ x ∈ l))
    (hkeep : ∀ a', a' ≠ a → ∀ x ∈ r a', cell x → taken' x) :
    Owns cell taken' (update r a l) lost' := by
  refine ⟨?_, ?_, ?_⟩
  · intro b b' x hx hx'
    rw [mem_update] at hx hx'
    obtain ⟨rfl, hx⟩ | ⟨hb, hx⟩ := hx
    · obtain ⟨rfl, -⟩ | ⟨hb', hx'⟩ := hx'
      · rfl
      · exact absurd hx' (hl x hx b' hb')
    · obtain ⟨rfl, hx'⟩ | ⟨-, hx'⟩ := hx'
      · exact absurd hx (hl x hx' b hb)
      · exact h.disjoint b b' x hx hx'
  · intro x hx
    simp only [mem_update, exists_or, exists_eq_left]
    by_cases ho : ∃ a', a' ≠ a ∧ x ∈ r a'
    · obtain ⟨a', hne, ha'⟩ := ho
      exact ⟨fun _ => Or.inr (Or.inr ⟨a', hne, ha'⟩), fun _ => hkeep a' hne x ha' hx⟩
    · have hno : ∀ a', a' ≠ a → x ∉ r a' := fun a' hne ha' => ho ⟨a', hne, ha'⟩
      rw [hused x hx hno, ← or_assoc]
      exact ⟨Or.inl, fun hor => hor.resolve_right ho⟩
  · intro x hx
    obtain ⟨hc, hxl, hno⟩ := hlost x hx
    refine ⟨hc, ?_⟩
    intro b hb
    rw [mem_update] at hb
    obtain ⟨-, hb⟩ | ⟨hne, hb⟩ := hb
    · exact hxl hb
    · exact hno b hne hb

end Owns

end Vnu.Lib.Ownership
