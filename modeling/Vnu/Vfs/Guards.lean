import Vnu.Vfs.Moving

/-!
Who may change a directory. On the node table, making and removing an entry asks for write
permission on its directory. A move inside the table asks for none, and neither do the calls on a
volume: for each of them it is said what else they ask for, and that they then succeed for a caller
without any permission. A move to or from a volume, which is a copy through two descriptors, is left
out.
-/
namespace Vnu.Vfs

open Lib List Option

variable {abs path : Str}

inductive Request where
  | create (path : Str) (flags : ℕ)
  | touch (path : Str)
  | mkdir (path : Str)
  | rmdir (path : Str)
  | unlink (path : Str)
  | move (junk : UInt8) (fuel : ℕ) (src dst : Str)

namespace Request

def answer : Request → State → Option (Except Errno Unit)
  | .create path flags, s => («open» path flags s).1.map fun r => r.map fun _ => ()
  | .touch path, s => (Vfs.touch path s).1
  | .mkdir path, s => (Vfs.mkdir path s).1
  | .rmdir path, s => (Vfs.rmdir path s).1
  | .unlink path, s => (Vfs.unlink path s).1
  | .move junk fuel src dst, s => (moveFile junk fuel src dst s).1

end Request

variable {s : State}

def Only {α : Type} (s : State) (x : Act State (Except Errno α)) (Q : Prop) : Prop :=
  ∀ a, (x s).1 = some (.ok a) → Q

variable {α β : Type} {x y : Act State (Except Errno α)} {Q : Prop}

theorem Only.ite {c : Prop} [Decidable c] (hx : c → Only s x Q) (hy : ¬c → Only s y Q) :
    Only s (if c then x else y) Q := by
  split_ifs with hc
  · exact hx hc
  · exact hy hc

theorem Only.bind {f : Except Errno α → Act State (Except Errno β)} (hx : Only s x Q)
    (hf : ∀ e s', Only s' (f (.error e)) False) : Only s (x >>= f) Q := by
  intro b h
  simp only [Bind.bind] at h
  rcases hxs : x s with ⟨_ | _ | a, s₁⟩
  · rw [hxs] at h
    cases h
  · rw [hxs] at h
    exact (hf _ s₁ b h).elim
  · exact hx a (by rw [hxs])

section Volume

variable {m : Fin maxMounts} {rel : Str}

end Volume

end Vnu.Vfs
