import Vnu.Vash.Order
import Vnu.Vash.Vars

/-!
Assignments in front of a command are expanded and assigned from the last to the first, and their
names are unset behind it.
-/
namespace Vnu.Vash.Prefix

open List Option

variable {τ : Type} {p : Part} {w : List Part} {d : Draft}

def assignChar (c : UInt8) (next : Option UInt8) : Bool :=
  isNameChar c || c == ch '[' || c == ch ']' || c == ch '@' && next == some (ch ']') ||
    c == ch '-'

def nameLength : Text → ℕ
  | [] => 0
  | c :: t => if c ≠ ch '=' ∧ assignChar c t.head? then nameLength t + 1 else 0

def startsName : Text → Bool
  | [] => false
  | c :: _ => c == ch '_' || isAlpha c

def splitAssignment : List Part → Option (Text × List Part)
  | .lit false text :: rest =>
    let p := cstr (text.map Prod.fst)
    let j := nameLength p
    if startsName p ∧ p[j]? = some (ch '=') then
      some (p.take j, .lit false (text.drop (j + 1)) :: rest)
    else none
  | _ => none

structure ScalarWord where
  src : Text
  name : Text
  value : List Part
  splits : splitAssignment (lexWord src).1 = some (name, value)
  plain : ch '[' ∉ name

def cutName (name : Text) : Text := name.take 63

inductive Ev where
  | expanded (i : ℕ)
  | assigned (i : ℕ) (name : Text)
  deriving DecidableEq, Repr

variable {σ : Type}

structure Run (σ : Type) where
  vars : Vars
  rest : σ
  trace : List Ev

def assignOne (X : Expander (Vars × σ)) (a : ScalarWord) (i : ℕ) (r : Run σ) : Option (Run σ) :=
  (X.expandWordOne a.value (r.vars, r.rest)).map fun e =>
    ⟨varSet e.2.1 (cutName a.name) (cstr e.1), e.2.2,
      r.trace ++ [.expanded i, .assigned i (cutName a.name)]⟩

def assignAll (X : Expander (Vars × σ)) : List (ScalarWord × ℕ) → Run σ → Option (Run σ)
  | [], r => some r
  | (a, i) :: as, r => (assignOne X a i r).bind (assignAll X as)

/-- Assignments are made from the last word to the first, and unset behind the command. -/
def runSimple (X : Expander (Vars × σ)) (words : List ScalarWord)
    (cmd : Vars × σ → Vars × σ) (s : Vars × σ) : Option (Run σ) :=
  (assignAll X words.zipIdx.reverse ⟨s.1, s.2, []⟩).map fun r =>
    ⟨words.foldl (fun V a => varUnset V (cutName a.name)) (cmd (r.vars, r.rest)).1,
      (cmd (r.vars, r.rest)).2, r.trace⟩

structure Command (σ : Type) (words : List ScalarWord) where
  run : Vars × σ → Vars × σ
  keeps : ∀ s, ∀ a ∈ words, (run s).1 a.name = s.1 a.name

def leftToRight (words : List ScalarWord) : List Ev :=
  words.zipIdx.flatMap fun p => [.expanded p.2, .assigned p.2 p.1.name]

def Faithful (X : Expander (Vars × σ)) (words : List ScalarWord) (cmd : Command σ words)
    (s : Vars × σ) : Prop :=
  ∃ r, runSimple X words cmd.run s = some r ∧ r.trace = leftToRight words ∧
    ∀ a ∈ words, elOf s.1 a.name = [] → r.vars a.name = s.1 a.name

def Part.Ends : Part → Prop
  | .exp .tilde _ _ => False
  | _ => True

theorem expandPart_ends (X : Expander τ) (quoted : Bool) (hp : Part.Ends p)
    (s : τ) : X.expandPart quoted p s ≠ .endless := by
  cases p with
  | lit q text => simp [Expander.expandPart]
  | exp kind q body =>
    cases kind with
    | tilde => exact absurd hp id
    | var =>
      simp only [Expander.expandPart, Expander.expandBody]
      split_ifs
      · simp
      · split <;> simp
    | _ => simp [Expander.expandPart, Expander.expandBody]

theorem expandParts_ends (X : Expander τ) (quoted : Bool)
    (hw : ∀ p ∈ w, Part.Ends p) (s : τ) : X.expandParts quoted w s ≠ .endless := by
  induction w generalizing s with
  | nil => simp [Expander.expandParts]
  | cons p w ih =>
    have hp := expandPart_ends X quoted (hw p mem_cons_self) s
    have hrest := fun t => ih (fun q hq => hw q (mem_cons_of_mem p hq)) t
    rw [Expander.expandParts]
    cases hadd : X.expandPart quoted p s with
    | text t s' =>
      intro heq
      have hafter : (X.expandParts quoted w s').after t = .endless := heq
      cases hw' : X.expandParts quoted w s' with
      | endless => exact hrest s' hw'
      | text u s'' | stop u s'' => simp [hw', Added.after] at hafter
    | stop t s' => simp [Added.andThen]
    | endless => exact absurd hadd hp

theorem expandWordOne_ends (X : Expander τ)
    (hw : ∀ p ∈ w, Part.Ends p) (s : τ) : ∃ r, X.expandWordOne w s = some r := by
  have hends := expandParts_ends X true hw s
  unfold Expander.expandWordOne Expander.expandWordParts
  cases h : X.expandParts true w s with
  | text t s' | stop t s' => exact ⟨_, rfl⟩
  | endless => exact absurd h hends

def HeadEmpty (w : List Part) : Prop := ∃ q p rest, w = .lit q [] :: p :: rest

theorem HeadEmpty.addLit (h : HeadEmpty w) (t : List Tagged) (quoted : Bool) :
    HeadEmpty (wordAddLit w t quoted) := by
  obtain ⟨q, p, rest, rfl⟩ := h
  unfold wordAddLit
  split_ifs
  · exact ⟨q, p, rest, rfl⟩
  split
  · next q' text hlast =>
    split_ifs
    · cases rest with
      | nil => exact ⟨q, _, [], rfl⟩
      | cons p' rest => exact ⟨q, p, _, rfl⟩
    · exact ⟨q, p, _, rfl⟩
  · exact ⟨q, p, _, rfl⟩

theorem HeadEmpty.addPart (h : HeadEmpty w) (p : Part) : HeadEmpty (wordAddPart w p) := by
  cases p with
  | lit quoted text => exact h.addLit text quoted
  | exp kind quoted body =>
    obtain ⟨q, p, rest, rfl⟩ := h
    exact ⟨q, p, _, rfl⟩

theorem HeadEmpty.mark (h : HeadEmpty w) (before : ℕ) : HeadEmpty (markQuoted before w) := by
  obtain ⟨q, p, rest, rfl⟩ := h
  unfold markQuoted
  split_ifs
  · exact ⟨true, p, rest, rfl⟩
  · exact ⟨q, p, rest, rfl⟩

theorem HeadEmpty.steps (es : List Event) (h : HeadEmpty d.word) :
    HeadEmpty (es.foldl Draft.step d).finish := by
  induction es generalizing d with
  | nil => exact h.addLit _ _
  | cons e es ih =>
    refine ih ?_
    cases e with
    | char c quoted => exact h
    | dollar quoted p => exact (h.addLit _ _).addPart p
    | tick quoted body => exact h.addPart (.exp .cmdsub quoted body)
    | opening => exact h.addLit _ _
    | closing => exact (h.addLit _ _).mark _

/-- A word that begins with a home directory is no assignment. -/
theorem untilded_of_splits {src : Text} {r : Text × List Part}
    (h : splitAssignment (lexWord src).1 = some r) : (lexTilde src).1 = [] := by
  by_contra hne
  have hempty : HeadEmpty (lexWord src).1 := by
    rw [lexWord, lexLoop_eq 0]
    refine HeadEmpty.steps _ ?_
    obtain ⟨p, rest, heq⟩ := exists_cons_of_ne_nil hne
    exact ⟨false, p, rest, by rw [heq]⟩
  obtain ⟨q, p, rest, heq⟩ := hempty
  rw [heq] at h
  cases q <;> simp [splitAssignment, cstr] at h

theorem readDollar_ends (quoted : Bool) (s : Text) : Part.Ends (readDollar quoted s).1 := by
  unfold readDollar readParen
  split
  · trivial
  · split_ifs <;> trivial

def Event.Ends : Event → Prop
  | .dollar _ p => Part.Ends p
  | _ => True

theorem doubleEvents_ends (s : Text) : ∀ e ∈ (doubleEvents s).1, Event.Ends e := by
  fun_induction doubleEvents s with
  | case1 => simp
  | case2 => simp
  | case3 => simp
  | case4 hq n s ih => exact forall_mem_append.2 ⟨forall_mem_map.2 fun _ _ => trivial, ih⟩
  | case5 s _ _ ih => exact forall_mem_cons.2 ⟨readDollar_ends true s, ih⟩
  | case6 s _ _ _ ih | case7 q s _ _ _ _ ih => exact forall_mem_cons.2 ⟨trivial, ih⟩

theorem wordEvents_ends (s : Text) : ∀ e ∈ wordEvents s, Event.Ends e := by
  fun_induction wordEvents s with
  | case1 | case2 | case3 | case4 => simp
  | case5 hend hblank n s ih | case9 s _ _ _ _ _ _ ih | case10 c s _ _ _ _ _ _ _ ih =>
    exact forall_mem_cons.2 ⟨trivial, ih⟩
  | case6 s _ _ _ ih =>
    refine forall_mem_append.2 ⟨forall_mem_cons.2 ⟨trivial, ?_⟩, forall_mem_cons.2 ⟨trivial, ih⟩⟩
    exact forall_mem_map.2 fun _ _ => trivial
  | case7 s _ _ _ _ ih =>
    refine forall_mem_append.2 ⟨forall_mem_cons.2 ⟨trivial, ?_⟩, forall_mem_cons.2 ⟨trivial, ih⟩⟩
    exact doubleEvents_ends s
  | case8 s _ _ _ _ _ ih => exact forall_mem_cons.2 ⟨readDollar_ends false s, ih⟩

def AllEnd (w : List Part) : Prop := ∀ p ∈ w, Part.Ends p

theorem AllEnd.addLit (h : AllEnd w) (t : List Tagged) (quoted : Bool) :
    AllEnd (wordAddLit w t quoted) := by
  unfold wordAddLit
  split_ifs
  · exact h
  intro p hp
  split at hp
  · split_ifs at hp
    · obtain hp | hp := mem_append.1 hp
      · exact h p ((dropLast_sublist w).subset hp)
      · rw [mem_singleton.1 hp]
        trivial
    · obtain hp | hp := mem_append.1 hp
      · exact h p hp
      · rw [mem_singleton.1 hp]
        trivial
  · obtain hp | hp := mem_append.1 hp
    · exact h p hp
    · rw [mem_singleton.1 hp]
      trivial

theorem AllEnd.addPart (h : AllEnd w) (hp : Part.Ends p) : AllEnd (wordAddPart w p) := by
  cases p with
  | lit quoted text => exact h.addLit text quoted
  | exp kind quoted body =>
    intro q hq
    obtain hq | hq := mem_append.1 hq
    · exact h q hq
    · rw [mem_singleton.1 hq]
      exact hp

theorem AllEnd.mark (h : AllEnd w) (before : ℕ) : AllEnd (markQuoted before w) := by
  unfold markQuoted
  split
  · split_ifs
    · intro p hp
      obtain rfl | hp := mem_cons.1 hp
      · trivial
      · exact h p (mem_cons_of_mem _ hp)
    · exact h
  · exact h

theorem AllEnd.steps (es : List Event) (hes : ∀ e ∈ es, Event.Ends e)
    (h : AllEnd d.word) : AllEnd (es.foldl Draft.step d).finish := by
  induction es generalizing d with
  | nil => exact h.addLit _ _
  | cons e es ih =>
    refine ih (fun e' he' => hes e' (mem_cons_of_mem e he')) ?_
    have he := hes e mem_cons_self
    cases e with
    | char c quoted => exact h
    | dollar quoted p => exact (h.addLit _ _).addPart he
    | tick quoted body => exact h.addPart (p := .exp .cmdsub quoted body) trivial
    | opening => exact h.addLit _ _
    | closing => exact (h.addLit _ _).mark _

/-- A value has no tilde part, the only one that may never end. -/
theorem value_ends (a : ScalarWord) : AllEnd a.value := by
  have htilde := untilded_of_splits a.splits
  have hword : AllEnd (lexWord a.src).1 := by
    rw [lexWord, htilde, lexLoop_eq 0]
    refine AllEnd.steps _ (wordEvents_ends _) ?_
    intro p hp
    rw [mem_singleton.1 hp]
    trivial
  have hsplits := a.splits
  revert hword hsplits
  cases (lexWord a.src).1 with
  | nil => simp [splitAssignment]
  | cons p rest =>
    intro hword hsplits
    cases p with
    | exp kind quoted body => simp [splitAssignment] at hsplits
    | lit quoted text =>
      cases quoted with
      | true => simp [splitAssignment] at hsplits
      | false =>
        simp only [splitAssignment] at hsplits
        split_ifs at hsplits
        rw [some_inj, Prod.mk.injEq] at hsplits
        rw [← hsplits.2]
        intro p hp
        obtain rfl | hp := mem_cons.1 hp
        · trivial
        · exact hword p (mem_cons_of_mem _ hp)

def codeTrace (as : List (ScalarWord × ℕ)) : List Ev :=
  as.flatMap fun p => [.expanded p.2, .assigned p.2 (cutName p.1.name)]

theorem assignAll_eq (X : Expander (Vars × σ)) (as : List (ScalarWord × ℕ)) (r : Run σ) :
    ∃ r', assignAll X as r = some r' ∧ r'.trace = r.trace ++ codeTrace as := by
  induction as generalizing r with
  | nil => exact ⟨r, rfl, by simp [codeTrace]⟩
  | cons p as ih =>
    obtain ⟨e, he⟩ := expandWordOne_ends X (value_ends p.1) (r.vars, r.rest)
    have hone : assignOne X p.1 p.2 r = some ⟨varSet e.2.1 (cutName p.1.name) (cstr e.1), e.2.2,
        r.trace ++ [.expanded p.2, .assigned p.2 (cutName p.1.name)]⟩ := by
      rw [assignOne, he, map_some]
    obtain ⟨r', hr', htrace⟩ := ih _
    refine ⟨r', ?_, htrace.trans ?_⟩
    · rw [assignAll, hone, bind_some, hr']
    · simp [codeTrace]

/-- The last word comes first, so two words are never in order. -/
theorem codeTrace_reverse_eq_iff (words : List ScalarWord) :
    codeTrace words.zipIdx.reverse = leftToRight words ↔
      words.length ≤ 1 ∧ ∀ a ∈ words, a.name.length ≤ 63 := by
  match words with
  | [] => simp [codeTrace, leftToRight]
  | [a] =>
    have hcut : cutName a.name = a.name ↔ a.name.length ≤ 63 := by
      rw [cutName, take_eq_self_iff]
    simp [codeTrace, leftToRight, hcut]
  | a :: b :: words =>
    refine iff_of_false ?_ (by simp)
    intro heq
    obtain ⟨c, i, rest, hi, hsplit⟩ : ∃ c i rest, 0 < i ∧
        (a :: b :: words).zipIdx.reverse = (c, i) :: rest := by
      cases hlast : ((b :: words).zipIdx 1).reverse with
      | nil => simp at hlast
      | cons p rest =>
        have hmem : (p.1, p.2) ∈ (b :: words).zipIdx 1 :=
          mem_reverse.1 (hlast ▸ mem_cons_self)
        refine ⟨p.1, p.2, rest ++ [(a, 0)], (mem_zipIdx hmem).1, ?_⟩
        rw [zipIdx_cons, reverse_cons, hlast]
        rfl
    rw [hsplit] at heq
    simp [codeTrace, leftToRight] at heq
    omega

theorem restored_iff {V V' : Vars} {x : Text} (hx : x.length ≤ 63) :
    (elOf V x = [] → varUnset V' (cutName x) x = V x) ↔ V x = none ∨ elOf V x ≠ [] := by
  rw [cutName, take_of_length_le hx, varUnset_self]
  constructor
  · intro h
    by_cases hel : elOf V x = []
    · exact .inl (h hel).symm
    · exact .inr hel
  · rintro (hnone | hel) hscalar
    · exact hnone.symm
    · exact absurd hscalar hel

/-- Assignments are made from left to right and scalars come back if and only if there is at most
one assignment, its name fits, and it names no scalar that was set. -/
theorem faithful_iff (X : Expander (Vars × σ)) (words : List ScalarWord) (cmd : Command σ words)
    (s : Vars × σ) :
    Faithful X words cmd s ↔ words.length ≤ 1 ∧ ∀ a ∈ words, a.name.length ≤ 63 ∧
        (s.1 a.name = none ∨ elOf s.1 a.name ≠ []) := by
  obtain ⟨r, hassign, htrace⟩ := assignAll_eq X words.zipIdx.reverse ⟨s.1, s.2, []⟩
  rw [nil_append] at htrace
  have hrun : Faithful X words cmd s ↔ codeTrace words.zipIdx.reverse = leftToRight words ∧
      ∀ a ∈ words, elOf s.1 a.name = [] →
        words.foldl (fun V a => varUnset V (cutName a.name)) (cmd.run (r.vars, r.rest)).1 a.name =
          s.1 a.name := by
    simp only [Faithful, runSimple, hassign, map_some, some_inj, exists_eq_left', htrace]
  rw [hrun, codeTrace_reverse_eq_iff]
  match words, cmd with
  | [], _ => simp
  | [a], cmd =>
    simp only [length_singleton, le_refl, true_and, mem_singleton, forall_eq]
    exact and_congr_right restored_iff
  | a :: b :: words, _ => exact iff_of_false (by simp) (by simp)

theorem splits_x : splitAssignment (lexWord [ch 'x', ch '=', ch '1']).1 =
    some ([ch 'x'], [.lit false [(ch '1', false)]]) := by
  decide +kernel

theorem splits_y : splitAssignment (lexWord [ch 'y', ch '=', ch '$', ch 'x']).1 =
    some ([ch 'y'], [.lit false [], .exp .var false [ch 'x']]) := by
  decide +kernel

theorem plain_x : ch '[' ∉ [ch 'x'] := by decide

theorem plain_y : ch '[' ∉ [ch 'y'] := by decide

def oneThenX : List ScalarWord :=
  [⟨_, _, _, splits_x, plain_x⟩, ⟨_, _, _, splits_y, plain_y⟩]

def varsOnly : Expander (Vars × Unit) where
  args _ := []
  ifs _ := none
  lookup x s := (some ((valOf s.1 x).getD []), s)
  capture _ s := ([], s)
  readFile _ s := (none, s)
  arith _ s := ([], s)
  home _ := []
  brace _ _ s := ([], s)
  entries _ _ := none
  stale _ _ := []

/-- `y` gets the value that `x` had before, and `x` is unset behind the command. -/
theorem oneThenX_runs :
    (assignAll varsOnly oneThenX.zipIdx.reverse
        ⟨fun x => if x = [ch 'x'] then some ⟨[ch '5'], []⟩ else none, (), []⟩).map
          (fun r => (r.vars [ch 'y'], r.trace)) =
      some (some ⟨[ch '5'], []⟩, [.expanded 1, .assigned 1 [ch 'y'], .expanded 0,
        .assigned 0 [ch 'x']]) ∧
    (runSimple varsOnly oneThenX id
        (fun x => if x = [ch 'x'] then some ⟨[ch '5'], []⟩ else none, ())).map
          (fun r => r.vars [ch 'x']) =
      some none := by
  decide +kernel

end Vnu.Vash.Prefix
