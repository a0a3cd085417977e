import Mathlib.Data.List.Range
import Mathlib.Logic.Function.Basic

/-!
A ring of `n` cells read from position `r`: the `len` cells from there on are the contents in queue
order.
-/
namespace Vnu.Lib.Ring

open List Function

variable {α : Type*}

def contents (n : ℕ) (data : ℕ → α) (r len : ℕ) : List α :=
  (List.range len).map fun i => data ((r + i) % n)

end Vnu.Lib.Ring
