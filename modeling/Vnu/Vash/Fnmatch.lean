import Mathlib.Data.List.Infix
import Mathlib.Tactic.NormNum

/-!
The shell's pattern matcher accepts a string if and only if it is in the language of the pattern's
tokens.
-/
namespace Vnu.Vash

open List

variable {d y : UInt8}

/-- A string; the byte 0 behind its end is the end of the list. -/
abbrev Text := List UInt8

scoped instance (priority := high) lawful_text : LawfulBEq Text := inferInstance

variable {w : Text}

def ch (c : Char) : UInt8 := c.toUInt8

def charVal (c : UInt8) : ℤ := if c.toNat < 128 then c.toNat else (c.toNat : ℤ) - 256

def bracketItem (c x : UInt8) : Text → Bool × Text
  | [] => (x == c, [])
  | [d] => if x = ch '\\' then (d == c, []) else (x == c, [d])
  | d :: y :: p =>
    if d = ch '-' ∧ y ≠ ch ']' then (decide (charVal x ≤ charVal c ∧ charVal c ≤ charVal y), p)
    else if x = ch '\\' then (d == c, y :: p)
    else (x == c, d :: y :: p)

theorem bracketItem_length_le (c x : UInt8) (p : Text) :
    (bracketItem c x p).2.length ≤ p.length := by
  unfold bracketItem
  split
  · exact le_rfl
  · split_ifs <;> simp
  · split_ifs <;> simp only [length_cons] <;> omega

def bracketLoop (c : UInt8) (p : Text) (first hit : Bool) : Bool × Text :=
  match p with
  | [] => (hit, [])
  | x :: p =>
    if x = ch ']' ∧ first = false then (hit, p)
    else bracketLoop c (bracketItem c x p).2 false (hit || (bracketItem c x p).1)
termination_by p.length
decreasing_by exact Nat.lt_succ_of_le (bracketItem_length_le c x p)

def matchBracket (c : UInt8) (p : Text) : Bool × Text :=
  match p with
  | [] => (false, [])
  | x :: q =>
    if x = ch '!' ∨ x = ch '^' then
      let r := bracketLoop c q true false
      (!r.1, r.2)
    else bracketLoop c p true false

theorem bracketLoop_length_le (c : UInt8) (p : Text) (first hit : Bool) :
    (bracketLoop c p first hit).2.length ≤ p.length := by
  fun_induction bracketLoop c p first hit with
  | case1 => exact le_rfl
  | case2 => simp
  | case3 first hit x p _ ih =>
    have hitem := bracketItem_length_le c x p
    simp only [length_cons]
    omega

theorem matchBracket_length_le (c : UInt8) (p : Text) : (matchBracket c p).2.length ≤ p.length := by
  unfold matchBracket
  split
  · exact le_rfl
  next x q =>
  split_ifs
  · have hloop := bracketLoop_length_le c q true false
    simp only [length_cons]
    omega
  · exact bracketLoop_length_le c _ true false

def matchHere (pat str : Text) : Bool :=
  match pat with
  | [] => str.isEmpty
  | x :: pat =>
    -- a star tries every place from here on
    if x = ch '*' then pat.isEmpty || str.tails.any fun s => matchHere pat s
    else
      match str with
      | [] => false
      | s :: str =>
        if x = ch '?' then matchHere pat str
        else if x = ch '[' then (matchBracket s pat).1 && matchHere (matchBracket s pat).2 str
        else
          match pat with
          | [] => x == s && matchHere [] str
          | y :: pat =>
            if x = ch '\\' then y == s && matchHere pat str
            else x == s && matchHere (y :: pat) str
termination_by pat.length
decreasing_by
  all_goals simp only [length_cons, length_nil]
  all_goals first
    | omega
    | exact Nat.lt_succ_of_le (matchBracket_length_le s pat)

def shPattern (pat str : Text) : Bool := matchHere pat str

inductive Token where
  | star
  | any
  | set (negated : Bool) (items : Text)
  | one (c : UInt8)
  deriving DecidableEq, Repr

variable {t : Token} {ts : List Token}

def InSet (c : UInt8) : Text → Prop
  | [] => False
  | [x] => x = c
  | [x, y] => x = c ∨ y = c
  | x :: d :: y :: items =>
    if d = ch '-' then x ≤ c ∧ c ≤ y ∨ InSet c items else x = c ∨ InSet c (d :: y :: items)

def Lang : List Token → Text → Prop
  | [], s => s = []
  | .star :: ts, s => ∃ t u, s = t ++ u ∧ Lang ts u
  | .any :: ts, s => ∃ c u, s = c :: u ∧ Lang ts u
  | .set negated items :: ts, s =>
    ∃ c u, s = c :: u ∧ (InSet c items ↔ negated = false) ∧ Lang ts u
  | .one c :: ts, s => ∃ u, s = c :: u ∧ Lang ts u

def special : List UInt8 := [ch '*', ch '?', ch '[', ch '\\']

/-- How a token is written. A `]` may only stand first between the brackets. -/
inductive Spells : Token → Text → Prop where
  | star : Spells .star [ch '*']
  | any : Spells .any [ch '?']
  | set (x : UInt8) (items : Text) (hmark : x ≠ ch '!' ∧ x ≠ ch '^') (hclose : ch ']' ∉ items)
      (hquote : ch '\\' ∉ x :: items) :
      Spells (.set false (x :: items)) (ch '[' :: (x :: items ++ [ch ']']))
  | notSet (mark x : UInt8) (items : Text) (hmark : mark = ch '!' ∨ mark = ch '^')
      (hclose : ch ']' ∉ items) (hquote : ch '\\' ∉ x :: items) :
      Spells (.set true (x :: items)) (ch '[' :: mark :: (x :: items ++ [ch ']']))
  | quoted (c : UInt8) : Spells (.one c) [ch '\\', c]
  | self (c : UInt8) (hc : c ∉ special) : Spells (.one c) [c]

/-- A pattern with closed brackets, no backslash in them and none at the end. -/
inductive Written : List Token → Text → Prop where
  | nil : Written [] []
  | cons {t : Token} {ts : List Token} {w p : Text} (hw : Spells t w) (hp : Written ts p) :
      Written (t :: ts) (w ++ p)

section Sets

variable {c x : UInt8} {p : Text} {first hit : Bool}

theorem charVal_le {c : UInt8} (hc : c < 128) (hd : d < 128) : charVal c ≤ charVal d ↔ c ≤ d := by
  have hc' : c.toNat < 128 := UInt8.lt_iff_toNat_lt.mp hc
  have hd' : d.toNat < 128 := UInt8.lt_iff_toNat_lt.mp hd
  rw [charVal, charVal, if_pos hc', if_pos hd']
  exact Int.ofNat_le

theorem bracketLoop_close : bracketLoop c (ch ']' :: p) false hit = (hit, p) := by
  rw [bracketLoop, if_pos ⟨rfl, rfl⟩]

theorem bracketLoop_cons (hx : ¬ (x = ch ']' ∧ first = false)) :
    bracketLoop c (x :: p) first hit =
      bracketLoop c (bracketItem c x p).2 false (hit || (bracketItem c x p).1) := by
  rw [bracketLoop, if_neg hx]

theorem bracketItem_self (hx : x ≠ ch '\\') (hrange : ∀ y q, d = ch '-' → p = y :: q → y = ch ']') :
    bracketItem c x (d :: p) = (x == c, d :: p) := by
  cases p with
  | nil => simp only [bracketItem, if_neg hx]
  | cons y q =>
    have hnot : ¬ (d = ch '-' ∧ y ≠ ch ']') := fun h => h.2 (hrange y q h.1 rfl)
    simp only [bracketItem, if_neg hnot, if_neg hx]

theorem bracketItem_range (hy : y ≠ ch ']') :
    bracketItem c x (ch '-' :: y :: p) =
      (decide (charVal x ≤ charVal c ∧ charVal c ≤ charVal y), p) := by
  rw [bracketItem, if_pos ⟨rfl, hy⟩]

/-- The first character of a set is no end, whatever it is. -/
theorem bracketLoop_set (first hit : Bool) (items : Text) (hc : c < 128)
    (hsome : first = true → items ≠ []) (hhead : first = false → ch ']' ∉ items)
    (htail : ch ']' ∉ items.tail) (hquote : ch '\\' ∉ items) (hascii : ∀ x ∈ items, x < 128) :
    ((bracketLoop c (items ++ ch ']' :: p) first hit).1 = true ↔ hit = true ∨ InSet c items) ∧
      (bracketLoop c (items ++ ch ']' :: p) first hit).2 = p := by
  -- the head does not close the set, and with `first` gone nothing in the tail does
  have hopen : ∀ x tail, items = x :: tail → ¬ (x = ch ']' ∧ first = false) := by
    rintro x tail rfl ⟨rfl, hfalse⟩
    exact hhead hfalse mem_cons_self
  fun_induction InSet c items generalizing first hit with
  | case1 =>
    cases first with
    | true => exact absurd rfl (hsome rfl)
    | false => simp [bracketLoop_close]
  | case2 x =>
    have hx : x ≠ ch '\\' := fun h => hquote (h ▸ mem_cons_self)
    rw [cons_append, bracketLoop_cons (hopen x [] rfl), nil_append,
      bracketItem_self hx (fun _ _ h => absurd h (by decide)), bracketLoop_close]
    simp
  | case3 x y =>
    have hx : x ≠ ch '\\' := fun h => hquote (h ▸ mem_cons_self)
    have hy : y ≠ ch '\\' := fun h => hquote (h ▸ mem_cons_of_mem x mem_cons_self)
    have hclose : y ≠ ch ']' := fun h => htail (h ▸ mem_cons_self)
    rw [cons_append, bracketLoop_cons (hopen x [y] rfl), cons_append, nil_append,
      bracketItem_self hx (by rintro _ _ - ⟨rfl, -⟩; rfl), bracketLoop_cons (fun h => hclose h.1),
      bracketItem_self hy (fun _ _ h => absurd h (by decide)), bracketLoop_close]
    simp [or_assoc]
  | case4 x y items ih =>
    have hy : y ≠ ch ']' := fun h => htail (h ▸ mem_cons_of_mem _ mem_cons_self)
    have hrest : ch ']' ∉ items := fun h => htail (by simp [h])
    have hlow : x < 128 := hascii x mem_cons_self
    have hhigh : y < 128 := hascii y (by simp)
    rw [cons_append, bracketLoop_cons (hopen x _ rfl), cons_append, cons_append,
      bracketItem_range hy]
    obtain ⟨hmem, hback⟩ := ih false _ (by simp) (fun _ => hrest)
      (fun h => hrest (mem_of_mem_tail h)) (fun h => hquote (by simp [h]))
      (fun z hz => hascii z (by simp [hz]))
      (by rintro z tail rfl ⟨rfl, -⟩; exact hrest mem_cons_self)
    refine ⟨hmem.trans ?_, hback⟩
    simp only [Bool.or_eq_true, decide_eq_true_eq, charVal_le hlow hc,
      charVal_le hc hhigh, or_assoc]
  | case5 x d y items hd ih =>
    have hx : x ≠ ch '\\' := fun h => hquote (h ▸ mem_cons_self)
    have hrest : ch ']' ∉ d :: y :: items := htail
    rw [cons_append, bracketLoop_cons (hopen x _ rfl), cons_append,
      bracketItem_self hx (fun _ _ h => absurd h hd)]
    obtain ⟨hmem, hback⟩ := ih false _ (by simp) (fun _ => hrest)
      (fun h => hrest (mem_of_mem_tail h)) (fun h => hquote (mem_cons_of_mem x h))
      (fun z hz => hascii z (mem_cons_of_mem x hz))
      (by rintro z tail heq ⟨rfl, -⟩; exact hrest (heq ▸ mem_cons_self))
    refine ⟨hmem.trans ?_, hback⟩
    simp [or_assoc]

theorem matchBracket_set {negated : Bool} {items : Text} (hc : c < 128)
    (h : Spells (.set negated items) (ch '[' :: w)) (hascii : ∀ x ∈ w, x < 128) (p : Text) :
    ((matchBracket c (w ++ p)).1 = true ↔ (InSet c items ↔ negated = false)) ∧
      (matchBracket c (w ++ p)).2 = p := by
  cases h with
  | set x items hmark hclose hquote =>
    obtain ⟨hmem, hback⟩ := bracketLoop_set (p := p) true false (x :: items) hc (by simp) (by simp)
      hclose hquote (fun z hz => hascii z (mem_append_left _ hz))
    have hrun : matchBracket c (x :: items ++ [ch ']'] ++ p) =
        bracketLoop c (x :: items ++ ch ']' :: p) true false := by
      rw [append_assoc]
      exact if_neg (not_or.mpr hmark)
    rw [hrun]
    exact ⟨hmem.trans (by simp), hback⟩
  | notSet mark x items hmark hclose hquote =>
    obtain ⟨hmem, hback⟩ := bracketLoop_set (p := p) true false (x :: items) hc (by simp) (by simp)
      hclose hquote (fun z hz => hascii z (mem_cons_of_mem _ (mem_append_left _ hz)))
    have hrun : matchBracket c (mark :: (x :: items ++ [ch ']']) ++ p) =
        (!(bracketLoop c (x :: items ++ ch ']' :: p) true false).1,
          (bracketLoop c (x :: items ++ ch ']' :: p) true false).2) := by
      rw [cons_append, append_assoc]
      exact if_pos hmark
    rw [hrun]
    refine ⟨?_, hback⟩
    rw [Bool.not_eq_true', ← Bool.not_eq_true, hmem]
    simp

end Sets

section Steps

variable {pat str : Text} {x s : UInt8}

theorem matchHere_nil : matchHere [] str = true ↔ str = [] := by
  rw [matchHere.eq_def]
  exact List.isEmpty_iff

theorem matchHere_star :
    matchHere (ch '*' :: pat) str = true ↔ ∃ t u, str = t ++ u ∧ matchHere pat u = true := by
  rw [matchHere.eq_def]
  simp only [if_true, Bool.or_eq_true, any_eq_true, mem_tails, List.isEmpty_iff]
  constructor
  · rintro (rfl | ⟨u, ⟨t, rfl⟩, hu⟩)
    · exact ⟨str, [], (List.append_nil str).symm, matchHere_nil.mpr rfl⟩
    · exact ⟨t, u, rfl, hu⟩
  · rintro ⟨t, u, rfl, hu⟩
    exact .inr ⟨u, suffix_append t u, hu⟩

theorem matchHere_stop (hx : x ≠ ch '*') : matchHere (x :: pat) [] = false := by
  rw [matchHere.eq_def]
  exact if_neg hx

theorem matchHere_any : matchHere (ch '?' :: pat) (s :: str) = matchHere pat str := by
  rw [matchHere.eq_def]
  simp [if_neg (show ch '?' ≠ ch '*' by decide)]

theorem matchHere_set : matchHere (ch '[' :: pat) (s :: str) =
    ((matchBracket s pat).1 && matchHere (matchBracket s pat).2 str) := by
  rw [matchHere.eq_def]
  simp [if_neg (show ch '[' ≠ ch '*' by decide), if_neg (show ch '[' ≠ ch '?' by decide)]

theorem matchHere_quoted :
    matchHere (ch '\\' :: y :: pat) (s :: str) = (y == s && matchHere pat str) := by
  rw [matchHere.eq_def]
  simp only [if_neg (show ch '\\' ≠ ch '*' by decide), if_neg (show ch '\\' ≠ ch '?' by decide),
    if_neg (show ch '\\' ≠ ch '[' by decide), if_true]

theorem matchHere_self (hx : x ∉ special) :
    matchHere (x :: pat) (s :: str) = (x == s && matchHere pat str) := by
  simp only [special, mem_cons, not_mem_nil, or_false, not_or] at hx
  rw [matchHere.eq_def]
  simp only [if_neg hx.1, if_neg hx.2.1, if_neg hx.2.2.1]
  cases pat with
  | nil => rfl
  | cons y pat => exact if_neg hx.2.2.2

end Steps

theorem lang_cons_iff {c : UInt8} {str : Text} (ht : t ≠ .star) :
    Lang (t :: ts) (c :: str) ↔ Lang [t] [c] ∧ Lang ts str := by
  cases t with
  | star => exact absurd rfl ht
  | any | set negated items | one d => simp [Lang]

theorem not_lang_nil (ht : t ≠ .star) : ¬ Lang (t :: ts) [] := by
  cases t with
  | star => exact absurd rfl ht
  | any | set negated items | one d => simp [Lang]

theorem lang_one_iff {c : UInt8} : Lang [.one d] [c] ↔ d = c := by
  constructor
  · rintro ⟨u, hu, -⟩
    exact (List.cons.inj hu).1.symm
  · rintro rfl
    exact ⟨[], rfl, rfl⟩

theorem matchHere_one {p : Text} (hw : Spells t w) (ht : t ≠ .star)
    (hpat : ∀ c ∈ w, c < 128) {c : UInt8} (hc : c < 128) (str : Text) :
    matchHere (w ++ p) (c :: str) = true ↔ Lang [t] [c] ∧ matchHere p str = true := by
  cases hw with
  | star => exact absurd rfl ht
  | any =>
    rw [cons_append, matchHere_any]
    simp [Lang]
  | set x items hmark hclose hquote =>
    obtain ⟨hmem, hback⟩ := matchBracket_set hc (Spells.set x items hmark hclose hquote)
      (fun z hz => hpat z (mem_cons_of_mem _ hz)) p
    rw [cons_append, matchHere_set, Bool.and_eq_true, hmem, hback]
    simp [Lang]
  | notSet mark x items hmark hclose hquote =>
    obtain ⟨hmem, hback⟩ := matchBracket_set hc (Spells.notSet mark x items hmark hclose hquote)
      (fun z hz => hpat z (mem_cons_of_mem _ hz)) p
    rw [cons_append, matchHere_set, Bool.and_eq_true, hmem, hback]
    simp [Lang]
  | quoted d =>
    rw [cons_append, cons_append, nil_append, matchHere_quoted, Bool.and_eq_true,
      beq_iff_eq, lang_one_iff]
  | self d hd =>
    rw [cons_append, nil_append, matchHere_self hd, Bool.and_eq_true, beq_iff_eq, lang_one_iff]

theorem Spells.stop (hw : Spells t w) (ht : t ≠ .star) (p : Text) :
    matchHere (w ++ p) [] = false := by
  cases hw with
  | star => exact absurd rfl ht
  | any | set | notSet | quoted => exact matchHere_stop (by decide)
  | self d hd => exact matchHere_stop fun h => hd (h ▸ mem_cons_self)

theorem matchHere_token {p : Text} (hw : Spells t w)
    (hrest : ∀ str, (∀ c ∈ str, c < 128) → (matchHere p str = true ↔ Lang ts str))
    (hpat : ∀ c ∈ w, c < 128) {str : Text} (hstr : ∀ c ∈ str, c < 128) :
    matchHere (w ++ p) str = true ↔ Lang (t :: ts) str := by
  by_cases ht : t = .star
  · subst ht
    cases hw
    rw [cons_append, matchHere_star]
    refine exists_congr fun u => exists_congr fun v => and_congr_right ?_
    rintro rfl
    exact hrest v fun c hc => hstr c (mem_append_right u hc)
  cases str with
  | nil => exact iff_of_false (Bool.eq_false_iff.mp (hw.stop ht p)) (not_lang_nil ht)
  | cons c str =>
    rw [matchHere_one hw ht hpat (hstr c mem_cons_self),
      hrest str fun d hd => hstr d (mem_cons_of_mem c hd)]
    exact (lang_cons_iff ht).symm

/-- The matcher accepts exactly the strings of the language. -/
theorem shPattern_iff {ts : List Token} {pat : Text} (hpat : Written ts pat)
    (hascii : ∀ c ∈ pat, c < 128) (str : Text) (hstr : ∀ c ∈ str, c < 128) :
    shPattern pat str = true ↔ Lang ts str := by
  induction hpat generalizing str with
  | nil => exact matchHere_nil
  | cons hw hp ih =>
    refine matchHere_token hw ?_ (fun c hc => hascii c (mem_append_left _ hc)) hstr
    exact fun str hstr => ih (fun c hc => hascii c (mem_append_right _ hc)) str hstr

/-- The pattern `[!a-c]*\\?` on the string `x?`. -/
theorem shPattern_iff_sample :
    Written [.set true [ch 'a', ch '-', ch 'c'], .star, .one (ch '?')]
        [ch '[', ch '!', ch 'a', ch '-', ch 'c', ch ']', ch '*', ch '\\', ch '?'] ∧
      (shPattern [ch '[', ch '!', ch 'a', ch '-', ch 'c', ch ']', ch '*', ch '\\', ch '?']
        [ch 'x', ch '?'] = true ↔
        Lang [.set true [ch 'a', ch '-', ch 'c'], .star, .one (ch '?')] [ch 'x', ch '?']) := by
  have hwritten : Written [.set true [ch 'a', ch '-', ch 'c'], .star, .one (ch '?')]
      [ch '[', ch '!', ch 'a', ch '-', ch 'c', ch ']', ch '*', ch '\\', ch '?'] :=
    .cons (.notSet (ch '!') (ch 'a') [ch '-', ch 'c'] (.inl rfl) (by decide) (by decide))
      (.cons .star (.cons (.quoted (ch '?')) .nil))
  exact ⟨hwritten, shPattern_iff hwritten (by decide +kernel) _ (by decide +kernel)⟩

end Vnu.Vash
