import Mathlib.Data.List.Chain

/-!
A counter that numbers entries and is not always advanced behind one. The last entry comes first.
-/
namespace Vnu.Lib.Counter

open List

variable {α : Type}

def count (l : List (α × Bool)) : ℕ := l.countP Prod.snd

def numbered : List (α × Bool) → List (ℕ × α)
  | [] => []
  | e :: l => (count l, e.1) :: numbered l

theorem count_cons (e : α × Bool) (l : List (α × Bool)) :
    count (e :: l) = count l + if e.2 then 1 else 0 := countP_cons

theorem count_le_length (l : List (α × Bool)) : count l ≤ l.length := countP_le_length

theorem number_le {e : α × Bool} {l : List (α × Bool)} {x : ℕ × α} (hx : x ∈ numbered (e :: l)) :
    x.1 ≤ count l := by
  induction l generalizing e with
  | nil =>
    rw [numbered, numbered, mem_singleton] at hx
    rw [hx]
  | cons d l ih =>
    rw [numbered, mem_cons] at hx
    rcases hx with rfl | hx
    · exact le_rfl
    · rw [count_cons]
      exact (ih hx).trans (Nat.le_add_right _ _)

def Unique (l : List (α × Bool)) : Prop :=
  ∀ x ∈ numbered l, ∀ y ∈ numbered l, x.1 = y.1 → x.2 = y.2

/-- An entry behind which the counter was not advanced is followed by an equal one. -/
def Repeats (l : List (α × Bool)) : Prop := l.IsChain fun e d => d.2 = false → e.1 = d.1

theorem eq_of_number {d : α × Bool} {l : List (α × Bool)} (hl : Unique (d :: l)) {x : ℕ × α}
    (hx : x ∈ numbered (d :: l)) (hnumber : x.1 = count (d :: l)) : d.2 = false ∧ x.2 = d.1 := by
  have hle := number_le hx
  have hcount := count_cons d l
  cases hd : d.2 with
  | true =>
    rw [hd, if_pos rfl] at hcount
    omega
  | false =>
    rw [hd, if_neg Bool.false_ne_true] at hcount
    refine ⟨rfl, hl x hx (count l, d.1) mem_cons_self ?_⟩
    rw [hnumber, hcount, Nat.add_zero]

theorem unique_iff_repeats (l : List (α × Bool)) : Unique l ↔ Repeats l := by
  induction l with
  | nil => exact iff_of_true (fun x hx => by cases hx) List.IsChain.nil
  | cons e l ih =>
    cases l with
    | nil =>
      refine iff_of_true (fun x hx y hy _ => ?_) (List.IsChain.singleton e)
      rw [numbered, numbered, mem_singleton] at hx hy
      rw [hx, hy]
    | cons d l =>
      rw [Repeats, isChain_cons_cons]
      constructor
      · intro hall
        refine ⟨fun hd => ?_, ih.mp fun x hx y hy => ?_⟩
        · refine hall (count (d :: l), e.1) mem_cons_self (count l, d.1)
            (mem_cons_of_mem _ mem_cons_self) ?_
          rw [count_cons, hd, if_neg Bool.false_ne_true, Nat.add_zero]
        · exact hall x (mem_cons_of_mem _ hx) y (mem_cons_of_mem _ hy)
      · rintro ⟨hhead, hrest⟩ x hx y hy hxy
        have hl := ih.mpr hrest
        rw [numbered, mem_cons] at hx hy
        rcases hx with rfl | hx <;> rcases hy with rfl | hy
        · rfl
        · obtain ⟨hd, hyd⟩ := eq_of_number hl hy hxy.symm
          rw [hyd, hhead hd]
        · obtain ⟨hd, hxd⟩ := eq_of_number hl hx hxy
          rw [hxd, hhead hd]
        · exact hl x hx y hy hxy

end Vnu.Lib.Counter
