import Vnu.Lib.History
import Vnu.Vfs.Edits

/-!
Moving a file inside the node table copies the bytes into a new node and empties the old one, but
leaves it in the table.
-/
namespace Vnu.Vfs

open Lib Act Option

variable {nodes : Nodes} {path : Str} {dst i : Fin maxN} {need : ℕ} {n : Node}

def NoRoom (s : State) (size : ℕ) : Prop :=
  size ≠ 0 ∧ (reservePages 0 size = 0 ∨
    ¬ (reservePages 0 size ≤ s.poolFrames ∧ s.frames.headD false = true))

def Refuses (s : State) (n : Node) (at_ : Str) : Prop :=
  (findIndex s.nodes at_).isSome = true ∨ parentDir s.nodes at_ = none ∨
    freeIndex s.nodes = none ∨ NoRoom s n.size

variable {s : State}

section

variable {af at_ : Str} {src : Fin maxN}

end

end Vnu.Vfs
