import Mathlib.Data.List.Nodup

/-!
Lists threaded through a table whose last element carries a stop mark. Where the mark is no element,
a list is determined by its head.
-/
namespace Vnu.Lib.Links

open List

variable {α : Type*} {f g : α → α} {stop t : α}

def Linked (f : α → α) (stop : α) : List α → Prop
  | [] => True
  | a :: l => f a = l.headD stop ∧ Linked f stop l

@[simp] theorem linked_nil : Linked f stop [] := trivial

@[simp] theorem linked_cons {a : α} {l : List α} :
    Linked f stop (a :: l) ↔ f a = l.headD stop ∧ Linked f stop l := Iff.rfl

theorem linked_append {l m : List α} :
    Linked f stop (l ++ m) ↔ Linked f (m.headD stop) l ∧ Linked f stop m := by
  induction l with
  | nil => simp
  | cons a l ih =>
    have hhead : (l ++ m).headD stop = l.headD (m.headD stop) := by
      cases l <;> rfl
    rw [cons_append, linked_cons, linked_cons, ih, hhead, and_assoc]

theorem linked_congr {l : List α} (h : Linked f stop l) (hfg : ∀ x ∈ l, g x = f x) :
    Linked g stop l := by
  induction l with
  | nil => trivial
  | cons a l ih =>
    refine ⟨?_, ih h.2 fun x hx => hfg x (mem_cons_of_mem a hx)⟩
    rw [hfg a mem_cons_self]
    exact h.1

theorem linked_retarget {l : List α} (h : Linked f stop l) (hl : l ≠ [])
    (hinit : ∀ x ∈ l.dropLast, g x = f x) (hlast : g (l.getLast hl) = t) : Linked g t l := by
  induction l with
  | nil => exact absurd rfl hl
  | cons a l ih =>
    cases l with
    | nil => exact ⟨hlast, trivial⟩
    | cons b l =>
      refine ⟨?_, ih h.2 (by simp) ?_ ?_⟩
      · rw [hinit a (by simp)]
        exact h.1
      · intro x hx
        exact hinit x (by simp [hx])
      · simpa using hlast

theorem linked_getElem {l : List α} (h : Linked f stop l) {i : ℕ} (hi : i < l.length) :
    f l[i] = l.getD (i + 1) stop := by
  induction l generalizing i with
  | nil => simp at hi
  | cons a l ih =>
    cases i with
    | zero =>
      rw [getElem_cons_zero, h.1]
      cases l <;> rfl
    | succ i =>
      exact ih h.2 (by simpa using hi)

theorem linked_unique {l m : List α} (hl : Linked f stop l) (hm : Linked f stop m)
    (hhead : l.head? = m.head?) (hsl : stop ∉ l) (hsm : stop ∉ m) : l = m := by
  induction l generalizing m with
  | nil => cases m with
    | nil => rfl
    | cons b m => simp at hhead
  | cons a l ih =>
    cases m with
    | nil => simp at hhead
    | cons b m =>
      obtain rfl : a = b := by simpa using hhead
      congr 1
      simp only [mem_cons, not_or] at hsl hsm
      refine ih hl.2 hm.2 ?_ hsl.2 hsm.2
      have hnext : l.headD stop = m.headD stop := hl.1.symm.trans hm.1
      cases l with
      | nil => cases m with
        | nil => rfl
        | cons c m => exact absurd (by simpa using hnext : stop = c) (by simp at hsm; tauto)
      | cons c l => cases m with
        | nil => exact absurd (by simpa using hnext : c = stop) (by simp at hsl; tauto)
        | cons c' m => simpa using hnext

/-- An element met twice would make the list its own proper end. -/
theorem linked_nodup {l : List α} (h : Linked f stop l) (hs : stop ∉ l) : l.Nodup := by
  induction l with
  | nil => exact nodup_nil
  | cons a l ih =>
    have hsl : stop ∉ l := fun hmem => hs (mem_cons_of_mem a hmem)
    refine nodup_cons.mpr ⟨?_, ih h.2 hsl⟩
    intro hmem
    obtain ⟨p, q, rfl⟩ := append_of_mem hmem
    have hq : Linked f stop (a :: q) := (linked_append.mp h.2).2
    have heq : a :: (p ++ a :: q) = a :: q := by
      apply linked_unique h hq rfl hs
      intro hmem'
      exact hsl (mem_append_right p hmem')
    have hlen := congrArg List.length heq
    simp only [length_cons, length_append] at hlen
    omega

end Vnu.Lib.Links
