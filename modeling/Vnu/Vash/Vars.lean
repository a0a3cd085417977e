import Mathlib.Logic.Function.Basic
import Vnu.Vash.Fnmatch

/-!
The shell's variables. Setting the value of an array keeps its elements; unsetting drops both.
-/
namespace Vnu.Vash

open Function

variable {x y : Text}

structure Var where
  val : Text
  el : List (Text × Text)
  deriving DecidableEq, Repr

abbrev Vars := Text → Option Var

variable {V : Vars}

def valOf (V : Vars) (x : Text) : Option Text := (V x).map Var.val

def elOf (V : Vars) (x : Text) : List (Text × Text) :=
  match V x with
  | none => []
  | some v => v.el

def varSet (V : Vars) (x t : Text) : Vars := update V x (some ⟨t, elOf V x⟩)

def varUnset (V : Vars) (x : Text) : Vars := update V x none

theorem varSet_self (V : Vars) (x t : Text) : varSet V x t x = some ⟨t, elOf V x⟩ :=
  update_self _ _ _

theorem varSet_of_ne (V : Vars) (t : Text) (h : y ≠ x) : varSet V x t y = V y :=
  update_of_ne h _ _

theorem varUnset_self (V : Vars) (x : Text) : varUnset V x x = none := update_self _ _ _

theorem varUnset_of_ne (V : Vars) (h : y ≠ x) : varUnset V x y = V y := update_of_ne h _ _

theorem valOf_varSet_self (V : Vars) (x t : Text) : valOf (varSet V x t) x = some t := by
  rw [valOf, varSet_self, Option.map_some]

theorem elOf_varSet (V : Vars) (x t y : Text) : elOf (varSet V x t) y = elOf V y := by
  by_cases h : y = x
  · subst h
    simp [elOf, varSet_self]
  · simp [elOf, varSet_of_ne V t h]

theorem elOf_varUnset (hx : elOf V x = []) (y : Text) : elOf (varUnset V x) y = elOf V y := by
  by_cases h : y = x
  · subst h
    rw [hx]
    simp [elOf, varUnset_self]
  · simp [elOf, varUnset_of_ne V h]

theorem var_eq_of {v : Option Var} (hval : valOf V x = v.map Var.val)
    (hel : ∀ u, v = some u → elOf V x = u.el) : V x = v := by
  unfold valOf at hval
  unfold elOf at hel
  cases hv : V x with
  | none =>
    cases v with
    | none => rfl
    | some u => simp [hv] at hval
  | some u =>
    cases v with
    | none => simp [hv] at hval
    | some w =>
      cases u
      cases w
      simp_all

end Vnu.Vash
