import Mathlib.Order.Basic

/-!
Code with fuel: more of it changes no answer.
-/
namespace Vnu.Lib.Fuel

open Option

variable {α β : Type}

def Extends (x y : Option α) : Prop := ∀ r, x = some r → y = some r

theorem Extends.refl (x : Option α) : Extends x x := fun _ h => h

theorem Extends.none (y : Option α) : Extends none y := fun _ h => nomatch h

theorem Extends.ite {c : Prop} [Decidable c] {x x' y y' : Option α} (hx : Extends x x')
    (hy : Extends y y') : Extends (if c then x else y) (if c then x' else y') := by
  split
  · exact hx
  · exact hy

theorem Extends.bind {x x' : Option α} {f f' : α → Option β} (hx : Extends x x')
    (hf : ∀ a, Extends (f a) (f' a)) : Extends (x.bind f) (x'.bind f') := by
  intro r h
  obtain ⟨a, ha, hr⟩ := bind_eq_some_iff.mp h
  rw [hx a ha]
  exact hf a r hr

theorem Extends.map {x x' : Option α} (f : α → β) (hx : Extends x x') :
    Extends (x.map f) (x'.map f) := by
  intro r h
  obtain ⟨a, ha, hr⟩ := map_eq_some_iff.mp h
  rw [hx a ha, map_some, hr]

def Steady (x : ℕ → Option α) : Prop := ∀ ⦃n m⦄, n ≤ m → Extends (x n) (x m)

theorem Steady.of_succ {x : ℕ → Option α} (h : ∀ n, Extends (x n) (x (n + 1))) : Steady x := by
  intro n m hle
  induction hle with
  | refl => exact Extends.refl _
  | step _ ih => exact fun r hr => h _ r (ih r hr)

/-- An answer is the one that is known for some fuel. -/
theorem Steady.unique {x : ℕ → Option α} (hx : Steady x) {n m : ℕ} {a b : α} (ha : x n = some a)
    (hb : x m = some b) : a = b := by
  have hn := hx (Nat.le_max_left n m) a ha
  have hm := hx (Nat.le_max_right n m) b hb
  exact some.inj (hn.symm.trans hm)

end Vnu.Lib.Fuel
