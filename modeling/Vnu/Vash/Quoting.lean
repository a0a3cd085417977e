import Vnu.Vash.Order

/-!
Quoted characters in patterns. The shell hands plain text to its matcher, which is right exactly if
the quoted characters are none that a pattern gives a meaning to.
-/
namespace Vnu.Vash

open List

variable {t u pat : List Tagged} {x : Tagged} {a : UInt8}

def active (a : UInt8) (t : Tagged) : Bool := t.1 == a && !t.2

def itemTagged (c : UInt8) (x : Tagged) : List Tagged → Bool × List Tagged
  | [] => (x.1 == c, [])
  | [d] => if active (ch '\\') x then (d.1 == c, []) else (x.1 == c, [d])
  | d :: y :: p =>
    if active (ch '-') d ∧ ¬active (ch ']') y then
      (decide (charVal x.1 ≤ charVal c ∧ charVal c ≤ charVal y.1), p)
    else if active (ch '\\') x then (d.1 == c, y :: p)
    else (x.1 == c, d :: y :: p)

theorem itemTagged_suffix (c : UInt8) (x : Tagged) (p : List Tagged) :
    (itemTagged c x p).2 <:+ p := by
  unfold itemTagged
  split
  · exact suffix_refl _
  · split_ifs
    · exact nil_suffix
    · exact suffix_refl _
  · next d y p =>
    split_ifs
    · exact ⟨[d, y], rfl⟩
    · exact ⟨[d], rfl⟩
    · exact suffix_refl _

def loopTagged (c : UInt8) (p : List Tagged) (first hit : Bool) : Bool × List Tagged :=
  match p with
  | [] => (hit, [])
  | x :: p =>
    if active (ch ']') x ∧ first = false then (hit, p)
    else loopTagged c (itemTagged c x p).2 false (hit || (itemTagged c x p).1)
termination_by p.length
decreasing_by exact Nat.lt_succ_of_le (itemTagged_suffix c x p).length_le

def bracketTagged (c : UInt8) (p : List Tagged) : Bool × List Tagged :=
  match p with
  | [] => (false, [])
  | x :: q =>
    if active (ch '!') x ∨ active (ch '^') x then
      let r := loopTagged c q true false
      (!r.1, r.2)
    else loopTagged c p true false

theorem loopTagged_suffix (c : UInt8) (p : List Tagged) (first hit : Bool) :
    (loopTagged c p first hit).2 <:+ p := by
  fun_induction loopTagged c p first hit with
  | case1 => exact suffix_refl _
  | case2 => exact suffix_cons _ _
  | case3 first hit x p _ ih =>
    exact ih.trans ((itemTagged_suffix c x p).trans (suffix_cons x p))

theorem bracketTagged_suffix (c : UInt8) (p : List Tagged) : (bracketTagged c p).2 <:+ p := by
  unfold bracketTagged
  split
  · exact suffix_refl _
  · next x q =>
    split_ifs
    · exact (loopTagged_suffix c q true false).trans (suffix_cons x q)
    · exact loopTagged_suffix c _ true false

/-- The string matches the pattern with its quoted characters taken for themselves. -/
def matchTagged (pat : List Tagged) (str : Text) : Bool :=
  match pat with
  | [] => str.isEmpty
  | x :: pat =>
    if active (ch '*') x then pat.isEmpty || str.tails.any fun s => matchTagged pat s
    else
      match str with
      | [] => false
      | s :: str =>
        if active (ch '?') x then matchTagged pat str
        else if active (ch '[') x then
          (bracketTagged s pat).1 && matchTagged (bracketTagged s pat).2 str
        else
          match pat with
          | [] => x.1 == s && matchTagged [] str
          | y :: pat =>
            if active (ch '\\') x then y.1 == s && matchTagged pat str
            else x.1 == s && matchTagged (y :: pat) str
termination_by pat.length
decreasing_by
  all_goals simp only [length_cons, length_nil]
  all_goals first
    | omega
    | exact Nat.lt_succ_of_le (bracketTagged_suffix s pat).length_le

def actives : List UInt8 :=
  [ch '*', ch '?', ch '[', ch ']', ch '!', ch '^', ch '-', ch '\\']

def Inert (t : List Tagged) : Prop := ∀ b ∈ t, b.2 = true → b.1 ∉ actives

theorem Inert.mono (ht : Inert t) (hu : ∀ b ∈ u, b ∈ t) : Inert u := fun b hb => ht b (hu b hb)

theorem Inert.tail (ht : Inert (x :: t)) : Inert t := ht.mono fun _ hb => mem_cons_of_mem x hb

def bytes (t : List Tagged) : Text := t.map Prod.fst

/-- A pattern word whose first part is marked as quoted is compared as it is. -/
def headQuoted : List Part → Bool
  | [] => false
  | p :: _ => p.quoted

def patternHit (literal : Bool) (pat subject : Text) : Bool :=
  if literal then cstr pat == cstr subject else shPattern (cstr pat) (cstr subject)

def Cell.tag (c : Cell) : Tagged := (c.byte, c.tagged)

def cutTagged (t : List Tagged) : List Tagged := t.takeWhile fun b => b.1 ≠ 0

def meantHit (literal : Bool) (pat : List Tagged) (subject : Text) : Bool :=
  if literal then bytes (cutTagged pat) == cstr subject
  else matchTagged (cutTagged pat) (cstr subject)

theorem Inert.cut (ht : Inert t) : Inert (cutTagged t) :=
  ht.mono fun _ hb => (takeWhile_sublist _).subset hb

/-- What stands around a character with a meaning, and a string that tells whether it kept it. -/
def trial (a : UInt8) : Text × Text × Text :=
  if a = ch '*' ∨ a = ch '?' then ([], [], [ch 'x'])
  else if a = ch '[' then ([], [ch 'a', ch ']'], [ch 'a'])
  else if a = ch ']' then ([ch '[', ch 'a'], [ch 'b', ch ']'], [ch 'b'])
  else if a = ch '-' then ([ch '[', ch 'a'], [ch 'z', ch ']'], [ch 'b'])
  else if a = ch '\\' then ([], [ch 'x'], [ch 'x'])
  else ([ch '['], [ch 'a', ch ']'], [ch 'a'])

def trialWord (a : UInt8) : Text :=
  (trial a).1 ++ [ch '\'', a, ch '\''] ++ (trial a).2.1

theorem trialWord_cells : ∀ a ∈ actives,
    ((constant (ch 'm')).expandWordParts true (lexWord (trialWord a)).1 ()).map
        (fun r => r.1.map Cell.tag) =
      some (plain (trial a).1 ++ [(a, true)] ++ plain (trial a).2.1) := by
  decide +kernel

/-- None of the characters with a meaning can be spared: quoted in its word each still acts. -/
theorem trialWord_differs : ∀ a ∈ actives,
    headQuoted (lexWord (trialWord a)).1 = false ∧
      patternHit false (bytes (plain (trial a).1 ++ [(a, true)] ++ plain (trial a).2.1))
          (trial a).2.2 ≠
        meantHit false (plain (trial a).1 ++ [(a, true)] ++ plain (trial a).2.1)
          (trial a).2.2 := by
  decide +kernel

end Vnu.Vash
