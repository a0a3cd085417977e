import Mathlib.Logic.Basic
import Mathlib.Order.Defs.Unbundled

/-!
Stateful code that can give up and keeps the state it reached either way. The rules for `Ends`
follow an action to both of its ends; those for `Moves` relate the states at its end and its start.
-/
namespace Vnu.Lib

def Act (σ α : Type) : Type := σ → Option α × σ

namespace Act

variable {σ α β : Type}

instance : Monad (Act σ) where
  pure a := fun s => (some a, s)
  bind x f := fun s =>
    match x s with
    | (some a, s') => f a s'
    | (none, s') => (none, s')

def fail : Act σ α := fun s => (none, s)

def query (f : σ → Option α) : Act σ α := fun s => (f s, s)

def update (f : σ → σ) : Act σ Unit := fun s => (some (), f s)

def attempt (x : Act σ α) : Act σ Unit := fun s => (some (), (x s).2)

def onFail (x : Act σ α) (cleanup : Act σ β) : Act σ α := fun s =>
  match x s with
  | (some a, s') => (some a, s')
  | (none, s') => (none, (cleanup s').2)

/-- From `s` the action either returns a value with `Q` or gives up with `E`. -/
def Ends (x : Act σ α) (s : σ) (Q : α → σ → Prop) (E : σ → Prop) : Prop :=
  match x s with
  | (some a, s') => Q a s'
  | (none, s') => E s'

variable {x : Act σ α} {s s' : σ} {Q Q' : α → σ → Prop} {E E' : σ → Prop}

theorem Ends.of_some (h : x.Ends s Q E) {a : α} (hx : x s = (some a, s')) : Q a s' := by
  simpa only [Ends, hx] using h

theorem Ends.of_none (h : x.Ends s Q E) (hx : x s = (none, s')) : E s' := by
  simpa only [Ends, hx] using h

theorem Ends.mono (h : x.Ends s Q E) (hQ : ∀ a s', Q a s' → Q' a s') (hE : ∀ s', E s' → E' s') :
    x.Ends s Q' E' := by
  revert h
  unfold Ends
  rcases x s with ⟨_ | a, s'⟩
  · exact hE s'
  · exact hQ a s'

theorem Ends.imp (h : x.Ends s Q fun _ => False) (hQ : ∀ a s', Q a s' → Q' a s') :
    x.Ends s Q' E' := h.mono hQ fun _ => False.elim

theorem Ends.of_eq_some {a : α} (hx : x s = (some a, s')) (h : Q a s') : x.Ends s Q E := by
  simpa only [Ends, hx] using h

theorem run_eq_of_fst {a : α} (hx : (x s).1 = some a) : x s = (some a, (x s).2) := Prod.ext hx rfl

theorem Ends.of_forall (hQ : ∀ a s', Q a s') (hE : ∀ s', E s') : x.Ends s Q E := by
  unfold Ends
  rcases x s with ⟨_ | a, s'⟩
  · exact hE s'
  · exact hQ a s'

theorem Ends.and (h : x.Ends s Q E) (h' : x.Ends s Q' E') :
    x.Ends s (fun a s' => Q a s' ∧ Q' a s') fun s' => E s' ∧ E' s' := by
  revert h h'
  unfold Ends
  rcases x s with ⟨_ | a, s'⟩ <;> exact And.intro

theorem ends_self : x.Ends s (fun a s' => x s = (some a, s')) fun s' => x s = (none, s') := by
  unfold Ends
  rcases x s with ⟨_ | a, s'⟩ <;> rfl

theorem Ends.gives_up (h : x.Ends s (fun _ _ => False) E) : (x s).1 = none ∧ E (x s).2 := by
  revert h
  unfold Ends
  rcases x s with ⟨_ | a, s'⟩
  · exact fun h => ⟨rfl, h⟩
  · exact False.elim

theorem Ends.of_fst_none (hx : (x s).1 = none) (h : E (x s).2) : x.Ends s Q E := by
  revert hx h
  unfold Ends
  rcases x s with ⟨_ | a, s'⟩
  · exact fun _ => id
  · exact nofun

theorem Ends.final {P : σ → Prop} (h : x.Ends s (fun _ => P) P) : P (x s).2 := by
  revert h
  unfold Ends
  rcases x s with ⟨_ | a, s'⟩ <;> exact id

theorem Ends.of_final {P : σ → Prop} (h : P (x s).2) : x.Ends s (fun _ => P) P := by
  revert h
  unfold Ends
  rcases x s with ⟨_ | a, s'⟩ <;> exact id

theorem Ends.returns (h : x.Ends s Q fun _ => False) : ∃ a s', x s = (some a, s') ∧ Q a s' := by
  revert h
  unfold Ends
  rcases x s with ⟨_ | a, s'⟩
  · exact False.elim
  · exact fun h => ⟨a, s', rfl, h⟩

@[simp] theorem ends_pure {a : α} : (pure a : Act σ α).Ends s Q E ↔ Q a s := Iff.rfl

@[simp] theorem ends_fail : (fail : Act σ α).Ends s Q E ↔ E s := Iff.rfl

@[simp] theorem ends_bind {f : α → Act σ β} {R : β → σ → Prop} :
    (x >>= f).Ends s R E ↔ x.Ends s (fun a s' => (f a).Ends s' R E) E := by
  have hrun : (x >>= f) s = match x s with
    | (some a, s') => f a s'
    | (none, s') => (none, s') := rfl
  unfold Ends
  rw [hrun]
  rcases x s with ⟨_ | a, s'⟩ <;> rfl

@[simp] theorem ends_query_total {f : σ → α} :
    (query fun s => some (f s)).Ends s Q E ↔ Q (f s) s := Iff.rfl

@[simp] theorem ends_update {f : σ → σ} {R : Unit → σ → Prop} :
    (update f).Ends s R E ↔ R () (f s) := Iff.rfl

theorem ends_query_some {f : σ → Option α} {a : α} (h : f s = some a) :
    (query f).Ends s Q E ↔ Q a s := by
  simp only [Ends, query, h]

theorem ends_query_none {f : σ → Option α} (h : f s = none) : (query f).Ends s Q E ↔ E s := by
  simp only [Ends, query, h]

theorem Ends.attempt {R : Unit → σ → Prop} (h : x.Ends s (fun _ => R ()) (R ())) :
    (attempt x).Ends s R E' := by
  show R () (x s).2
  exact h.final

theorem Ends.onFail {y : Act σ β}
    (h : x.Ends s Q fun s' => (Act.attempt y).Ends s' (fun _ => E) fun _ => False) :
    (onFail x y).Ends s Q E := by
  revert h
  unfold Ends Act.onFail
  rcases x s with ⟨_ | a, s'⟩ <;> exact id

def Keeps (I : σ → Prop) (x : Act σ α) (P : α → Prop) : Prop :=
  ∀ s, I s → x.Ends s (fun a s' => I s' ∧ P a) I

section

variable {I : σ → Prop} {P P' : α → Prop} {R : β → Prop}

theorem Keeps.mono (h : Keeps I x P) (hP : ∀ a, P a → P' a) : Keeps I x P' :=
  fun s hs => (h s hs).mono (fun a _ ha => ⟨ha.1, hP a ha.2⟩) fun _ => id

theorem Keeps.pure {a : α} (h : P a) : Keeps I (pure a) P := fun _ hs => ⟨hs, h⟩

theorem Keeps.fail : Keeps I (fail : Act σ α) P := fun _ hs => hs

theorem Keeps.bind {f : α → Act σ β} (hx : Keeps I x P) (hf : ∀ a, P a → Keeps I (f a) R) :
    Keeps I (x >>= f) R := fun s hs =>
  ends_bind.mpr ((hx s hs).mono (fun a s' ha => hf a ha.2 s' ha.1) fun _ => id)

theorem Keeps.ite {c : Prop} [Decidable c] {y : Act σ α} (hx : c → Keeps I x P)
    (hy : ¬c → Keeps I y P) : Keeps I (if c then x else y) P := by
  by_cases hc : c
  · rw [if_pos hc]
    exact hx hc
  · rw [if_neg hc]
    exact hy hc

theorem Keeps.update {f : σ → σ} (h : ∀ s, I s → I (f s)) : Keeps I (update f) fun _ => True :=
  fun s hs => ⟨h s hs, trivial⟩

theorem Keeps.query_self : Keeps I (query fun s => some s) I := fun _ hs => ⟨hs, hs⟩

theorem Keeps.final (h : Keeps I x P) (hs : I s) : I (x s).2 :=
  ((h s hs).mono (fun _ _ ha => ha.1) fun _ => id).final

theorem Keeps.of_final (h : ∀ s, I s → I (x s).2) : Keeps I x fun _ => True := by
  intro s hs
  have hend := h s hs
  revert hend
  unfold Ends
  rcases x s with ⟨_ | a, s'⟩
  · exact id
  · exact fun hend => ⟨hend, trivial⟩

end

def Moves (R : σ → σ → Prop) (x : Act σ α) : Prop := ∀ s, R s (x s).2

def Same (f : σ → β) (s s' : σ) : Prop := f s' = f s

instance {f : σ → β} : IsPreorder σ (Same f) where
  refl _ := rfl
  trans _ _ _ h h' := h'.trans h

section

variable {R R' : σ → σ → Prop}

theorem Moves.mono (h : Moves R x) (hR : ∀ s s', R s s' → R' s s') : Moves R' x :=
  fun s => hR s _ (h s)

theorem Moves.ends (h : Moves R x) : x.Ends s (fun _ s' => R s s') (R s) :=
  .of_final (h s)

/-- What follows an action has to end well in every state the action can move to. -/
theorem Moves.bind_ends {f : α → Act σ β} {P : β → σ → Prop} (hx : Moves R x)
    (hf : ∀ a s', R s s' → (f a).Ends s' P E) (hE : ∀ s', R s s' → E s') :
    (x >>= f).Ends s P E := by
  rw [ends_bind]
  exact hx.ends.mono hf hE

theorem Moves.update {f : σ → σ} (h : ∀ s, R s (f s)) : Moves R (update f) := h

variable [IsPreorder σ R]

theorem Moves.pure {a : α} : Moves R (pure a) := fun s => refl_of R s

theorem Moves.fail : Moves R (fail : Act σ α) := fun s => refl_of R s

theorem Moves.query {f : σ → Option α} : Moves R (query f) := fun s => refl_of R s

/-- The rule for a first action that is only known to move from `s` as it should. -/
theorem Moves.bind_from {f : α → Act σ β} (hx : R s (x s).2) (hf : ∀ a, Moves R (f a)) :
    R s ((x >>= f) s).2 := by
  have hrun : (x >>= f) s = match x s with
    | (some a, s') => f a s'
    | (none, s') => (none, s') := rfl
  rw [hrun]
  revert hx
  rcases x s with ⟨_ | a, s'⟩
  · exact id
  · exact fun hx => trans_of R hx (hf a s')

theorem Moves.bind {f : α → Act σ β} (hx : Moves R x) (hf : ∀ a, Moves R (f a)) :
    Moves R (x >>= f) := fun s => Moves.bind_from (hx s) hf

omit [IsPreorder σ R] in
theorem Moves.ite {c : Prop} [Decidable c] {y : Act σ α} (hx : Moves R x) (hy : Moves R y) :
    Moves R (if c then x else y) := by
  by_cases hc : c
  · rw [if_pos hc]
    exact hx
  · rw [if_neg hc]
    exact hy

end

theorem bind_of_some {f : α → Act σ β} {a : α} (hx : x s = (some a, s')) :
    (x >>= f) s = f a s' := by
  simp only [Bind.bind, hx]

theorem bind_assoc {γ : Type} (x : Act σ α) (f : α → Act σ β) (g : β → Act σ γ) :
    (x >>= f) >>= g = x >>= fun a => f a >>= g := by
  funext s
  simp only [Bind.bind]
  rcases x s with ⟨_ | a, s'⟩ <;> rfl

end Act

end Vnu.Lib
