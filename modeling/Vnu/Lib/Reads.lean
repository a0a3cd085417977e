import Vnu.Lib.Act
import Mathlib.Data.List.GetD
import Mathlib.Data.Option.Basic

/-!
Code that reads places of a memory and logs them. `Returns` says which it reads and what it returns;
`Finds` compares it with a function that may find nothing.
-/
namespace Vnu.Lib.Reads

open List

variable {α β γ δ : Type}

abbrev Reading (α : Type) := Act (List ℕ) α

def readAt (mem : ℕ → β) (i : ℕ) : Reading β := fun log => (some (mem i), i :: log)

def found (x : Reading (Option α)) (f : α → Reading (Option β)) : Reading (Option β) :=
  x >>= fun r => r.elim (pure none) f

def slice (mem : ℕ → β) (p len : ℕ) : List β := (List.range len).map fun i => mem (p + i)

/-- The code returns a value with `P`, and all it reads lies below `n`. -/
def Returns (n : ℕ) (x : Reading α) (P : α → Prop) : Prop :=
  ∀ log, (∀ i ∈ log, i < n) → x.Ends log (fun a log' => (∀ i ∈ log', i < n) ∧ P a) fun _ => False

abbrev Finds (n : ℕ) (x : Reading (Option α)) (R : α → δ → Prop) (o : Option δ) : Prop :=
  Returns n x fun r => Option.Rel R r o

section

variable {mem : ℕ → β} {p len : ℕ}

@[simp] theorem slice_length : (slice mem p len).length = len := by
  rw [slice, length_map, length_range]

theorem slice_getD {i : ℕ} (hi : i < len) (b : β) : (slice mem p len).getD i b = mem (p + i) := by
  rw [getD_eq_getElem _ _ (by rwa [slice_length])]
  simp [slice]

theorem slice_drop_take {i l : ℕ} (h : i + l ≤ len) :
    ((slice mem p len).drop i).take l = slice mem (p + i) l := by
  refine ext_getElem (by simp; omega) fun j _ _ => ?_
  simp only [slice, getElem_take, getElem_drop, getElem_map, getElem_range, Nat.add_assoc]

theorem slice_cons : slice mem p (len + 1) = mem p :: slice mem (p + 1) len := by
  simp only [slice, range_succ_eq_map, map_cons, map_map]
  refine congrArg _ (map_congr_left fun i _ => ?_)
  simp only [Function.comp_apply, Nat.add_assoc, Nat.add_comm 1]

end

section

variable {n : ℕ} {x : Reading α} {P P' : α → Prop} {R : β → Prop}

theorem Returns.mono (h : Returns n x P) (hP : ∀ a, P a → P' a) : Returns n x P' :=
  fun log hlog => (h log hlog).mono (fun a _ ha => ⟨ha.1, hP a ha.2⟩) fun _ => id

theorem Returns.pure {a : α} (h : P a) : Returns n (pure a) P := fun _ hlog => ⟨hlog, h⟩

theorem Returns.bind {f : α → Reading β} (hx : Returns n x P) (hf : ∀ a, P a → Returns n (f a) R) :
    Returns n (x >>= f) R := fun log hlog =>
  Act.ends_bind.mpr ((hx log hlog).mono (fun a log' ha => hf a ha.2 log' ha.1) fun _ => id)

theorem returns_readAt {mem : ℕ → β} {i : ℕ} (hi : i < n) :
    Returns n (readAt mem i) fun b => b = mem i := by
  intro log hlog
  refine ⟨fun j hj => ?_, rfl⟩
  rcases mem_cons.mp hj with hji | hold
  · rwa [hji]
  · exact hlog j hold

theorem Returns.readAt_bind {mem : ℕ → β} {i : ℕ} {f : β → Reading α} (hi : i < n)
    (hf : Returns n (f (mem i)) P) : Returns n (readAt mem i >>= f) P :=
  (returns_readAt hi).bind fun b hb => by rwa [hb]

theorem Returns.run (h : Returns n x P) :
    ∃ a log, x [] = (some a, log) ∧ (∀ i ∈ log, i < n) ∧ P a :=
  Act.Ends.returns (h [] fun _ hi => absurd hi (not_mem_nil))

variable {R₁ : α → γ → Prop} {R₂ : β → δ → Prop} {y : Reading (Option α)} {o : Option γ}

theorem Finds.none : Finds n (Pure.pure none) R₁ none := Returns.pure Option.Rel.none

theorem Finds.some {a : α} {c : γ} (h : R₁ a c) : Finds n (Pure.pure (some a)) R₁ (some c) :=
  Returns.pure (Option.Rel.some h)

theorem Finds.returns {r : Option α} (h : Finds n y Eq r) : Returns n y fun r' => r' = r :=
  h.mono fun r' hr => by
    cases hr with
    | none => rfl
    | some heq => rw [heq]

theorem Finds.bind {f : α → Reading (Option β)} {g : γ → Option δ} (hy : Finds n y R₁ o)
    (hf : ∀ a c, R₁ a c → Finds n (f a) R₂ (g c)) : Finds n (found y f) R₂ (o.bind g) := by
  refine Returns.bind hy fun r hr => ?_
  cases hr with
  | none => exact Finds.none
  | some h => exact hf _ _ h

end

end Vnu.Lib.Reads
