import Mathlib.Data.List.Infix

/-!
Histories of a system with one step function: what holds in every state, what every step meets, and
when the two come to the same.
-/
namespace Vnu.Lib

open List

variable {σ ι : Type}

def after (step : σ → ι → σ) (s : σ) (cs : List ι) : σ := cs.foldl step s

def Always (step : σ → ι → σ) (P : σ → Prop) (s : σ) (cs : List ι) : Prop :=
  ∀ pre, pre <+: cs → P (after step s pre)

def Throughout (step : σ → ι → σ) (C : σ → ι → Prop) (s : σ) (cs : List ι) : Prop :=
  ∀ pre c post, cs = pre ++ c :: post → C (after step s pre) c

variable {step : σ → ι → σ} {P Inv : σ → Prop} {C : σ → ι → Prop}

theorem always_nil {s : σ} : Always step P s [] ↔ P s := by
  constructor
  · intro h
    exact h [] prefix_rfl
  · intro h pre hpre
    rw [prefix_nil.mp hpre]
    exact h

theorem always_cons {s : σ} {c : ι} {cs : List ι} :
    Always step P s (c :: cs) ↔ P s ∧ Always step P (step s c) cs := by
  constructor
  · intro h
    exact ⟨h [] nil_prefix, fun pre hpre =>
      h (c :: pre) (cons_prefix_cons.mpr ⟨rfl, hpre⟩)⟩
  rintro ⟨hs, hrest⟩ pre hpre
  cases pre with
  | nil => exact hs
  | cons d pre =>
    obtain ⟨rfl, hpre'⟩ := cons_prefix_cons.mp hpre
    exact hrest pre hpre'

theorem throughout_nil {s : σ} : Throughout step C s [] := by
  intro pre c post h
  simp at h

theorem throughout_cons {s : σ} {c : ι} {cs : List ι} :
    Throughout step C s (c :: cs) ↔ C s c ∧ Throughout step C (step s c) cs := by
  constructor
  · intro h
    refine ⟨h [] c cs rfl, fun pre d post hcs => h (c :: pre) d post ?_⟩
    rw [hcs]
    rfl
  rintro ⟨hc, hrest⟩ pre d post h
  cases pre with
  | nil =>
    obtain ⟨rfl, rfl⟩ := cons.inj h
    exact hc
  | cons e pre =>
    obtain ⟨rfl, htail⟩ := cons.inj h
    exact hrest pre d post htail

instance decidableThroughout [∀ s c, Decidable (C s c)] (s : σ) :
    ∀ cs : List ι, Decidable (Throughout step C s cs)
  | [] => .isTrue throughout_nil
  | c :: cs =>
    have := decidableThroughout (step s c) cs
    decidable_of_iff _ throughout_cons.symm

theorem throughout_congr {D : σ → ι → Prop} (keeps : ∀ s c, Inv s → Inv (step s c))
    (same : ∀ s c, Inv s → (C s c ↔ D s c)) {s : σ} (hinv : Inv s) (cs : List ι) :
    Throughout step C s cs ↔ Throughout step D s cs := by
  induction cs generalizing s with
  | nil => exact iff_of_true throughout_nil throughout_nil
  | cons c cs ih => rw [throughout_cons, throughout_cons, same s c hinv, ih (keeps s c hinv)]

/-- Where a step from a state with `Q` has `P` exactly when it meets `C`, and `Q` behind it then, a
history has `P` throughout exactly when its steps meet `C`. -/
theorem always_iff_throughout_of {Q : σ → Prop} (weaker : ∀ s, Q s → P s)
    (keeps : ∀ s c, Q s → P (step s c) → Q (step s c))
    (exact : ∀ s c, Q s → (P (step s c) ↔ C s c)) {s : σ} (hs : Q s) (cs : List ι) :
    Always step P s cs ↔ Throughout step C s cs := by
  induction cs generalizing s with
  | nil => exact iff_of_true (always_nil.mpr (weaker s hs)) throughout_nil
  | cons c cs ih =>
    rw [always_cons, throughout_cons]
    constructor
    · rintro ⟨-, hrest⟩
      have hnext : P (step s c) := hrest [] nil_prefix
      exact ⟨(exact s c hs).mp hnext, (ih (keeps s c hs hnext)).mp hrest⟩
    · rintro ⟨hc, hrest⟩
      have hnext := (exact s c hs).mpr hc
      exact ⟨weaker s hs, (ih (keeps s c hs hnext)).mpr hrest⟩

/-- Where one step keeps `P` exactly when it meets `C`, so does a history; `Inv` is what every step
keeps. -/
theorem always_iff_throughout (keeps : ∀ s c, Inv s → Inv (step s c))
    (exact : ∀ s c, Inv s → P s → (P (step s c) ↔ C s c)) {s : σ} (hinv : Inv s) (hs : P s)
    (cs : List ι) : Always step P s cs ↔ Throughout step C s cs :=
  always_iff_throughout_of (Q := fun s => Inv s ∧ P s) (fun _ h => h.2)
    (fun s c h hnext => ⟨keeps s c h.1, hnext⟩) (fun s c h => exact s c h.1 h.2) ⟨hinv, hs⟩ cs

end Vnu.Lib
