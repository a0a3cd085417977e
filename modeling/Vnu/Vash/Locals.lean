import Vnu.Vash.Vars

/-!
The `local` builtin. One table keeps what the names declared with `local` held before. A function
call begins by emptying the table and ends by giving back what is in it then. So what an invocation
declared is lost as soon as it calls another function, and names longer than the table's fields are
cut. Between any two steps the shell may do anything to its variables. The table has room for a
value and not for the elements of an array, so those come back only if nothing changes them.
-/
namespace Vnu.Vash.Locals

open List Option Nat

variable {V : Vars} {a : Text}

structure LocalSave where
  name : Text
  value : Option Text
  deriving DecidableEq, Repr

variable {table : List LocalSave}

def maxName : ℕ := 63

def declName (a : Text) : Text := a.takeWhile fun c => c ≠ ch '='

def savedName (a : Text) : Text := (declName a).take maxName

def declValue (a : Text) : Text :=
  match a.drop (savedName a).length with
  | [] => []
  | c :: t => if c = ch '=' then t else []

def dash : Text := [ch '-']

def giveBack (V : Vars) (e : LocalSave) : Vars :=
  match e.value with
  | some t => varSet V e.name t
  | none => varUnset V e.name

def giveBackAll (V : Vars) : List LocalSave → Vars
  | [] => V
  | e :: table => giveBack (giveBackAll V table) e

structure Returned where
  name : Text
  before : Option Var
  after : Option Var
  deriving DecidableEq, Repr

structure Scope where
  vars : Vars
  table : List LocalSave
  /-- How many steps were taken. -/
  time : ℕ
  /-- What the running invocation declared; kept for the specification only. -/
  declared : List (Text × Option Var)
  returned : List Returned

inductive Prog where
  | done
  /-- One argument of a `local`. -/
  | decl (a : Text) (rest : Prog)
  | call (body rest : Prog)

variable {prog : Prog}

/-- What the rest of the shell does to the variables before each step. -/
abbrev Effects := ℕ → Vars → Vars

def KeepsElements (E : Effects) : Prop := ∀ n V x, elOf (E n V) x = elOf V x

namespace Scope

def tick (E : Effects) (s : Scope) : Scope :=
  { s with vars := E s.time s.vars, time := s.time + 1 }

def noteDeclared (s : Scope) (x : Text) : List (Text × Option Var) :=
  if x ∈ s.declared.map Prod.fst then s.declared else s.declared ++ [(x, s.vars x)]

def bLocal (s : Scope) (a : Text) : Scope :=
  if a = dash then s
  else
    { s with
      table := s.table ++ [⟨savedName a, valOf s.vars (savedName a)⟩]
      vars := varSet s.vars (savedName a) (declValue a)
      declared := s.noteDeclared (declName a) }

def localsBegin (s : Scope) : Scope := { s with table := [], declared := [] }

def localsEnd (s : Scope) : Scope :=
  { s with
    vars := giveBackAll s.vars s.table
    table := []
    returned := s.returned ++ s.declared.map fun d => ⟨d.1, d.2, giveBackAll s.vars s.table d.1⟩ }

def resume (s caller : Scope) : Scope := { s with declared := caller.declared }

end Scope

def run (E : Effects) : Prog → Scope → Scope
  | .done, s => s.tick E
  | .decl a rest, s => run E rest ((s.tick E).bLocal a)
  | .call body rest, s =>
    run E rest ((run E body (s.tick E).localsBegin).localsEnd.resume s)

def start (V : Vars) : Scope := ⟨V, [], 0, [], []⟩

/-- The name has its old value or is unset again, and with it the elements it had if nothing in the
run changes elements. -/
def Returned.Kept (E : Effects) (r : Returned) : Prop :=
  r.after.map Var.val = r.before.map Var.val ∧ (KeepsElements E → r.after = r.before)

/-- Whatever else the shell does, every name declared in an invocation is given back when that
returns. -/
def Restores (prog : Prog) : Prop :=
  ∀ E V, ∀ r ∈ (run E prog (start V)).returned, r.Kept E

/-- No invocation calls a function once it has declared a name, and no name is cut. -/
def tidy (inside declared : Bool) : Prog → Bool
  | .done => true
  | .decl a rest =>
    if a = dash then tidy inside declared rest
    else (!inside || (declName a).length ≤ maxName) && tidy inside true rest
  | .call body rest =>
    !(inside && declared) && tidy true false body && tidy inside declared rest

section Tidy

variable {E : Effects} {s : Scope}

theorem elOf_giveBackAll (h : ∀ e ∈ table, e.value = none → elOf V e.name = []) (x : Text) :
    elOf (giveBackAll V table) x = elOf V x := by
  induction table generalizing x with
  | nil => rfl
  | cons e table ih =>
    have hrest := ih fun e' he' => h e' (mem_cons_of_mem e he')
    rw [giveBackAll, giveBack]
    split
    · rw [elOf_varSet, hrest]
    · next hnone =>
      rw [elOf_varUnset ((hrest e.name).trans (h e mem_cons_self hnone)), hrest]

theorem valOf_giveBackAll (V : Vars) (table : List LocalSave) {x : Text} {e : LocalSave}
    (h : table.find? (fun e => e.name = x) = some e) :
    valOf (giveBackAll V table) x = e.value := by
  induction table with
  | nil => simp at h
  | cons f table ih =>
    rw [giveBackAll, giveBack]
    by_cases hf : f.name = x
    · have hfe : f = e := by simpa [hf] using h
      subst hfe hf
      split
      · next t ht => rw [valOf_varSet_self, ht]
      · next hnone => rw [valOf, varUnset_self, hnone, map_none]
    · have hrest := ih (by simpa [hf] using h)
      have hne : x ≠ f.name := fun h => hf h.symm
      split
      · rw [valOf, varSet_of_ne _ _ hne]
        exact hrest
      · rw [valOf, varUnset_of_ne _ hne]
        exact hrest

structure Kept (s : Scope) : Prop where
  first : ∀ d ∈ s.declared, s.table.find? (fun e => e.name = d.1) = some ⟨d.1, d.2.map Var.val⟩
  names : ∀ e ∈ s.table, e.name ∈ s.declared.map Prod.fst

structure KeptElements (s : Scope) : Prop where
  elements : ∀ d ∈ s.declared, ∀ v, d.2 = some v → elOf s.vars d.1 = v.el
  unset : ∀ e ∈ s.table, e.value = none → elOf s.vars e.name = []

theorem kept_of_nil (htable : s.table = []) (hdeclared : s.declared = []) :
    Kept s ∧ KeptElements s :=
  ⟨⟨by simp [hdeclared], by simp [htable]⟩, by simp [hdeclared], by simp [htable]⟩

theorem Kept.tick (h : Kept s) : Kept (s.tick E) := ⟨h.first, h.names⟩

theorem KeptElements.tick (hE : KeepsElements E) (h : KeptElements s) :
    KeptElements (s.tick E) := by
  refine ⟨?_, ?_⟩
  · intro d hd v hv
    exact (hE _ _ _).trans (h.elements d hd v hv)
  · intro e he hnone
    exact (hE _ _ _).trans (h.unset e he hnone)

theorem elOf_eq_nil_of_valOf {x : Text} (h : valOf V x = none) : elOf V x = [] := by
  have hnone : V x = none := by simpa [valOf] using h
  simp [elOf, hnone]

theorem mem_noteDeclared (s : Scope) (x : Text) : x ∈ (s.noteDeclared x).map Prod.fst := by
  unfold Scope.noteDeclared
  split_ifs with h
  · exact h
  · simp

theorem declared_subset_noteDeclared (s : Scope) (x : Text) : s.declared ⊆ s.noteDeclared x := by
  unfold Scope.noteDeclared
  split_ifs
  · exact Subset.refl _
  · exact subset_append_left _ _

theorem mem_noteDeclared_cases {x : Text} {d : Text × Option Var} (hd : d ∈ s.noteDeclared x) :
    d ∈ s.declared ∨ x ∉ s.declared.map Prod.fst ∧ d = (x, s.vars x) := by
  unfold Scope.noteDeclared at hd
  split_ifs at hd with hold
  · exact .inl hd
  · exact (mem_append.1 hd).imp_right fun h => ⟨hold, mem_singleton.1 h⟩

theorem Kept.bLocal (h : Kept s) (ha : (declName a).length ≤ maxName) : Kept (s.bLocal a) := by
  have hname : savedName a = declName a := take_of_length_le ha
  unfold Scope.bLocal
  split_ifs with hdash
  · exact h
  rw [hname]
  refine ⟨?_, ?_⟩
  · intro d hd
    rw [find?_append]
    obtain hd | ⟨hnew, rfl⟩ := mem_noteDeclared_cases hd
    · rw [h.first d hd, some_or]
    -- a new name has no entry yet
    have hnone : s.table.find? (fun e => e.name = declName a) = none := by
      rw [find?_eq_none]
      intro e he heq
      have hsame : e.name = declName a := of_decide_eq_true heq
      exact hnew (hsame ▸ h.names e he)
    rw [hnone]
    simp [valOf]
  · intro e he
    obtain he | he := mem_append.1 he
    · exact map_subset _ (declared_subset_noteDeclared s _) (h.names e he)
    · obtain rfl := mem_singleton.1 he
      exact mem_noteDeclared s _

theorem KeptElements.bLocal (h : KeptElements s) (ha : (declName a).length ≤ maxName) :
    KeptElements (s.bLocal a) := by
  have hname : savedName a = declName a := take_of_length_le ha
  unfold Scope.bLocal
  split_ifs with hdash
  · exact h
  rw [hname]
  refine ⟨?_, ?_⟩
  · intro d hd v hv
    rw [elOf_varSet]
    obtain hd | ⟨-, rfl⟩ := mem_noteDeclared_cases hd
    · exact h.elements d hd v hv
    · have hv' : s.vars (declName a) = some v := hv
      simp [elOf, hv']
  · intro e he hnone
    rw [elOf_varSet]
    obtain he | he := mem_append.1 he
    · exact h.unset e he hnone
    · obtain rfl := mem_singleton.1 he
      exact elOf_eq_nil_of_valOf hnone

def Holds (E : Effects) (s : Scope) : Prop := Kept s ∧ (KeepsElements E → KeptElements s)

theorem Holds.tick (h : Holds E s) : Holds E (s.tick E) :=
  ⟨h.1.tick, fun hE => (h.2 hE).tick hE⟩

theorem Holds.bLocal (h : Holds E s) (ha : (declName a).length ≤ maxName) : Holds E (s.bLocal a) :=
  ⟨h.1.bLocal ha, fun hE => (h.2 hE).bLocal ha⟩

theorem holds_of_nil (htable : s.table = []) (hdeclared : s.declared = []) : Holds E s :=
  ⟨(kept_of_nil htable hdeclared).1, fun _ => (kept_of_nil htable hdeclared).2⟩

def Good (E : Effects) (s : Scope) : Prop := ∀ r ∈ s.returned, r.Kept E

theorem Holds.good_localsEnd (h : Holds E s) (hs : Good E s) : Good E s.localsEnd := by
  intro r hr
  obtain hr | hr := mem_append.1 hr
  · exact hs r hr
  obtain ⟨d, hd, rfl⟩ := mem_map.1 hr
  have hval := valOf_giveBackAll s.vars s.table (h.1.first d hd)
  refine ⟨hval, fun hE => var_eq_of hval ?_⟩
  intro v hv
  rw [elOf_giveBackAll (h.2 hE).unset]
  exact (h.2 hE).elements d hd v hv

theorem Good.bLocal (hs : Good E s) (a : Text) : Good E ((s.tick E).bLocal a) := by
  unfold Scope.bLocal
  split_ifs <;> exact hs

/-- Inside a function no call follows once a name is declared, so the table stays as it is. -/
theorem run_tidy (prog : Prog) (inside declared : Bool) (htidy : tidy inside declared prog = true)
    (h : inside = true → Holds E s ∧ (declared = false → s.table = [] ∧ s.declared = []))
    (hs : Good E s) : (inside = true → Holds E (run E prog s)) ∧ Good E (run E prog s) := by
  induction prog generalizing s inside declared with
  | done => exact ⟨fun hin => (h hin).1.tick, hs⟩
  | decl a rest ih =>
    rw [tidy] at htidy
    split_ifs at htidy with hdash
    · have hskip : (s.tick E).bLocal a = s.tick E := if_pos hdash
      rw [run, hskip]
      exact ih inside declared htidy (fun hin => ⟨(h hin).1.tick, (h hin).2⟩) hs
    · rw [Bool.and_eq_true_iff] at htidy
      refine ih inside true htidy.2 (fun hin => ⟨(h hin).1.tick.bLocal ?_, nofun⟩)
        (hs.bLocal a)
      simpa [hin] using htidy.1
  | call body rest ihbody ihrest =>
    simp only [tidy, Bool.and_eq_true] at htidy
    obtain ⟨⟨hdeclared, hbody⟩, hrest⟩ := htidy
    obtain ⟨hkept, hgood⟩ := ihbody (s := (s.tick E).localsBegin) true false hbody
      (fun _ => ⟨holds_of_nil rfl rfl, fun _ => ⟨rfl, rfl⟩⟩) hs
    refine ihrest (s := (run E body (s.tick E).localsBegin).localsEnd.resume s) inside declared
      hrest (fun hin => ?_) ((hkept rfl).good_localsEnd hgood)
    have hempty : s.declared = [] := ((h hin).2 (by simpa [hin] using hdeclared)).2
    exact ⟨holds_of_nil rfl hempty, fun _ => ⟨rfl, hempty⟩⟩

theorem restores_of_tidy (h : tidy false false prog = true) : Restores prog :=
  fun _ _ => (run_tidy prog false false h nofun (by simp [Good, start])).2

end Tidy

def Mishandled (x : Text) (inside seen : Bool) : Prog → Prop
  | .done => False
  | .decl a rest =>
    if a = dash then Mishandled x inside seen rest
    else
      (inside = true ∧ x = declName a ∧ maxName < x.length) ∨
        Mishandled x inside (seen || inside && x == declName a) rest
  | .call body rest =>
    seen = true ∨ Mishandled x true false body ∨ Mishandled x inside seen rest

theorem Mishandled.mono {x : Text} {inside seen seen' : Bool} (hseen : seen = true → seen' = true)
    (h : Mishandled x inside seen prog) : Mishandled x inside seen' prog := by
  induction prog generalizing seen seen' with
  | done => exact h
  | decl a rest ih =>
    unfold Mishandled at h ⊢
    split_ifs at h ⊢ with hdash
    · exact ih hseen h
    refine h.imp id (ih ?_)
    intro hor
    obtain h | h := Bool.or_eq_true_iff.1 hor
    · rw [hseen h, Bool.true_or]
    · rw [h, Bool.or_true]
  | call body rest ihbody ihrest => exact h.imp hseen (Or.imp id (ihrest hseen))

theorem exists_mishandled (prog : Prog) (inside declared : Bool) (y : Text)
    (h : tidy inside declared prog = false) :
    ∃ x, Mishandled x inside (inside && (declared && x == y)) prog := by
  induction prog generalizing inside declared y with
  | done => simp [tidy] at h
  | decl a rest ih =>
    rw [tidy] at h
    split_ifs at h with hdash
    · obtain ⟨x, hx⟩ := ih inside declared y h
      exact ⟨x, by rw [Mishandled, if_pos hdash]; exact hx⟩
    by_cases hlong : inside = true ∧ maxName < (declName a).length
    · exact ⟨declName a, by rw [Mishandled, if_neg hdash]; exact .inl ⟨hlong.1, rfl, hlong.2⟩⟩
    have hrest : tidy inside true rest = false := by
      rw [Bool.and_eq_false_iff] at h
      refine h.resolve_left ?_
      cases inside with
      | false => simp
      | true =>
        have hle : (declName a).length ≤ maxName := by
          by_contra hgt
          exact hlong ⟨rfl, by omega⟩
        simp [hle]
    obtain ⟨x, hx⟩ := ih inside true (declName a) hrest
    refine ⟨x, ?_⟩
    rw [Mishandled, if_neg hdash]
    refine .inr (hx.mono ?_)
    intro hsame
    rw [Bool.true_and] at hsame
    rw [hsame, Bool.or_true]
  | call body rest ihbody ihrest =>
    cases hboth : inside && declared with
    | true =>
      refine ⟨y, .inl ?_⟩
      rw [← Bool.and_assoc, hboth]
      simp
    | false =>
      simp only [tidy, hboth, Bool.not_false, Bool.true_and, Bool.and_eq_false_iff] at h
      obtain hbody | hrest := h
      · obtain ⟨x, hx⟩ := ihbody true false y hbody
        exact ⟨x, .inr (.inl (by simpa using hx))⟩
      · obtain ⟨x, hx⟩ := ihrest inside declared y hrest
        exact ⟨x, .inr (.inr hx)⟩

section Pester

variable (x : Text) (L : ℕ)

def pester : Effects := fun n V => varSet V x (replicate (L + n) 1)

variable {x L} {s : Scope} {w : Text}

structure Clear (x : Text) (L : ℕ) (w : Text) (s : Scope) : Prop where
  entries : ∀ e ∈ s.table, e.name = x → e.value ≠ some w
  late : w.length < L + s.time

structure Gone (x : Text) (L : ℕ) (w : Text) (s : Scope) : Prop extends Clear x L w s where
  value : valOf s.vars x ≠ some w

theorem clear_of_table_nil (htable : s.table = []) (hlate : w.length < L + s.time) :
    Clear x L w s :=
  ⟨by simp [htable], hlate⟩

theorem Clear.tick (h : Clear x L w s) : Gone x L w (s.tick (pester x L)) := by
  refine ⟨⟨h.entries, ?_⟩, ?_⟩
  · exact lt_of_lt_of_le h.late (Nat.add_le_add_left (le_succ _) L)
  intro heq
  rw [Scope.tick, pester, valOf_varSet_self, some_inj] at heq
  have hlen := congrArg length heq
  have hlate := h.late
  rw [length_replicate] at hlen
  omega

theorem declValue_length_le (a : Text) : (declValue a).length ≤ a.length := by
  have hdrop : (a.drop (savedName a).length).length ≤ a.length := by simp
  unfold declValue
  split
  · simp
  next c t heq =>
  rw [heq, length_cons] at hdrop
  split_ifs
  · omega
  · simp

theorem Gone.bLocal (h : Gone x L w s) (ha : a.length < w.length) : Gone x L w (s.bLocal a) := by
  unfold Scope.bLocal
  split_ifs with hdash
  · exact h
  refine ⟨⟨?_, h.late⟩, ?_⟩
  · intro e he hname
    obtain he | he := mem_append.1 he
    · exact h.entries e he hname
    · obtain rfl := mem_singleton.1 he
      have hx : savedName a = x := hname
      rw [hx]
      exact h.value
  · by_cases hx : x = savedName a
    · subst hx
      rw [valOf_varSet_self]
      intro heq
      have hlen := congrArg length (some_inj.1 heq)
      have hle := declValue_length_le a
      omega
    · have hsame : varSet s.vars (savedName a) (declValue a) x = s.vars x := varSet_of_ne _ _ hx
      simp only [valOf, hsame]
      exact h.value

theorem giveBackAll_of_not_mem (V : Vars)
    (hall : ∀ e ∈ table, e.name ≠ x) : giveBackAll V table x = V x := by
  induction table with
  | nil => rfl
  | cons e table ih =>
    have hne : x ≠ e.name := fun h => hall e mem_cons_self h.symm
    have hrest := ih fun e' he' => hall e' (mem_cons_of_mem e he')
    simp only [giveBackAll, giveBack]
    cases e.value with
    | some t => exact (varSet_of_ne _ _ hne).trans hrest
    | none => exact (varUnset_of_ne _ hne).trans hrest

theorem valOf_giveBackAll_ne (hvalue : valOf V x ≠ some w)
    (hentries : ∀ e ∈ table, e.name = x → e.value ≠ some w) :
    valOf (giveBackAll V table) x ≠ some w := by
  cases hfind : table.find? (fun e => e.name = x) with
  | some e =>
    have hname := find?_some hfind
    rw [valOf_giveBackAll V table hfind]
    exact hentries e (mem_of_find?_eq_some hfind) (by simpa using hname)
  | none =>
    have hall : ∀ e ∈ table, e.name ≠ x := by
      intro e he heq
      exact find?_eq_none.1 hfind e he (decide_eq_true heq)
    rw [valOf, giveBackAll_of_not_mem V hall]
    exact hvalue

theorem Gone.localsEnd (h : Gone x L w s) : Gone x L w s.localsEnd :=
  ⟨clear_of_table_nil rfl h.late, valOf_giveBackAll_ne h.value h.entries⟩

def longest : Prog → ℕ
  | .done => 0
  | .decl a rest => max a.length (longest rest)
  | .call body rest => max (longest body) (longest rest)

theorem Clear.run (prog : Prog) (hw : longest prog < w.length) (h : Clear x L w s) :
    Gone x L w (run (pester x L) prog s) := by
  induction prog generalizing s with
  | done => exact h.tick
  | decl a rest ih =>
    rw [longest, max_lt_iff] at hw
    exact ih hw.2 (h.tick.bLocal hw.1).toClear
  | call body rest ihbody ihrest =>
    rw [longest, max_lt_iff] at hw
    have hcallee := ihbody hw.1 (s := (s.tick (pester x L)).localsBegin)
      (clear_of_table_nil rfl h.tick.late)
    have hend := hcallee.localsEnd
    exact ihrest hw.2 ⟨hend.entries, hend.late⟩

/-! What a run keeps. -/

variable {E : Effects}

structure Later (s s' : Scope) : Prop where
  time : s.time ≤ s'.time
  returned : s.returned ⊆ s'.returned
  declared : s.declared ⊆ s'.declared

theorem later_bLocal (s : Scope) (a : Text) : Later s ((s.tick E).bLocal a) := by
  unfold Scope.bLocal
  split_ifs
  · exact ⟨le_succ _, Subset.refl _, Subset.refl _⟩
  · exact ⟨le_succ _, Subset.refl _, declared_subset_noteDeclared (s.tick E) _⟩

theorem later_run (prog : Prog) : Later s (run E prog s) := by
  induction prog generalizing s with
  | done => exact ⟨le_succ _, Subset.refl _, Subset.refl _⟩
  | decl a rest ih =>
    have h := later_bLocal (E := E) s a
    exact ⟨h.time.trans ih.time, fun r hr => ih.returned (h.returned hr),
      fun d hd => ih.declared (h.declared hd)⟩
  | call body rest ihbody ihrest =>
    have hbody := ihbody (s := (s.tick E).localsBegin)
    have hrest := ihrest (s := (run E body (s.tick E).localsBegin).localsEnd.resume s)
    refine ⟨(le_succ _).trans (hbody.time.trans hrest.time), fun r hr => ?_, hrest.declared⟩
    exact hrest.returned (mem_append_left _ (hbody.returned hr))

structure Dated (x : Text) (L : ℕ) (s : Scope) : Prop where
  value : ∀ d ∈ s.declared, d.1 = x →
    ∃ v, d.2 = some v ∧ L ≤ v.val.length ∧ v.val.length < L + s.time
  names : ∀ e ∈ s.table, e.name.length ≤ maxName

theorem dated_of_nil (htable : s.table = []) (hdeclared : s.declared = []) : Dated x L s :=
  ⟨by simp [hdeclared], by simp [htable]⟩

theorem Dated.tick (h : Dated x L s) : Dated x L (s.tick (pester x L)) := by
  refine ⟨?_, h.names⟩
  intro d hd hname
  obtain ⟨v, hv, hlow, hhigh⟩ := h.value d hd hname
  refine ⟨v, hv, hlow, ?_⟩
  exact lt_of_lt_of_le hhigh (Nat.add_le_add_left (le_succ _) L)

theorem Dated.bLocal (h : Dated x L s) (a : Text) : Dated x L ((s.tick (pester x L)).bLocal a) := by
  unfold Scope.bLocal
  split_ifs with hdash
  · exact h.tick
  refine ⟨?_, ?_⟩
  · intro d hd hname
    obtain hd | ⟨-, rfl⟩ := mem_noteDeclared_cases hd
    · exact h.tick.value d hd hname
    have hx : declName a = x := hname
    refine ⟨⟨replicate (L + s.time) 1, elOf s.vars x⟩, ?_, ?_, ?_⟩
    · rw [hx]
      exact varSet_self _ _ _
    · simp
    · simp [Scope.tick]
  · intro e he
    obtain he | he := mem_append.1 he
    · exact h.names e he
    · obtain rfl := mem_singleton.1 he
      exact (length_take_le _ _)

theorem Gone.bad_localsEnd {v : Var} (h : Gone x L v.val s) (hv : (x, some v) ∈ s.declared) :
    ∃ r ∈ s.localsEnd.returned, r.after.map Var.val ≠ r.before.map Var.val :=
  ⟨_, mem_append_right _ (mem_map_of_mem hv), h.localsEnd.value⟩

/-- Some call has given the name back with another value, or its old value is out of reach of the
call that runs. -/
theorem Mishandled.run (prog : Prog) (inside seen : Bool) (hbad : Mishandled x inside seen prog)
    (hL : longest prog < L) (hdated : Dated x L s) (hinside : seen = true → inside = true)
    (hseen : seen = true → x ∈ s.declared.map Prod.fst) :
    (∃ r ∈ (run (pester x L) prog s).returned, r.after.map Var.val ≠ r.before.map Var.val) ∨
      inside = true ∧ ∃ v, (x, some v) ∈ (run (pester x L) prog s).declared ∧
        Gone x L v.val (run (pester x L) prog s) := by
  induction prog generalizing s inside seen with
  | done => exact absurd hbad id
  | decl a rest ih =>
    rw [longest, max_lt_iff] at hL
    rw [Mishandled] at hbad
    split_ifs at hbad with hdash
    · have hskip : (s.tick (pester x L)).bLocal a = s.tick (pester x L) := if_pos hdash
      rw [Locals.run, hskip]
      exact ih inside seen hbad hL.2 hdated.tick hinside hseen
    have hdeclared : ((s.tick (pester x L)).bLocal a).declared =
        (s.tick (pester x L)).noteDeclared (declName a) := by
      rw [Scope.bLocal, if_neg hdash]
    obtain ⟨hin, rfl, hlong⟩ | hrest := hbad
    · -- a name that is cut has no entry of its own
      have hmem := mem_noteDeclared (s.tick (pester (declName a) L)) (declName a)
      rw [← hdeclared] at hmem
      obtain ⟨d, hd, hname⟩ := mem_map.1 hmem
      have hnow := hdated.bLocal a
      obtain ⟨v, hv, hlow, hhigh⟩ := hnow.value d hd hname
      have hclear : Clear (declName a) L v.val ((s.tick (pester (declName a) L)).bLocal a) := by
        refine ⟨?_, hhigh⟩
        intro e he heq
        have hshort := hnow.names e he
        rw [heq] at hshort
        omega
      have hdv : (declName a, some v) = d := by rw [← hname, ← hv]
      exact .inr ⟨hin, v, (later_run rest).declared (hdv ▸ hd), hclear.run rest (by omega)⟩
    · refine ih inside _ hrest hL.2 (hdated.bLocal a) ?_ ?_
      · intro hor
        obtain h | h := Bool.or_eq_true_iff.1 hor
        · exact hinside h
        · exact (Bool.and_eq_true_iff.1 h).1
      intro hor
      rw [hdeclared]
      obtain h | h := Bool.or_eq_true_iff.1 hor
      · exact map_subset _ (declared_subset_noteDeclared _ _) (hseen h)
      · have hx : x = declName a := by simpa using (Bool.and_eq_true_iff.1 h).2
        rw [hx]
        exact mem_noteDeclared _ _
  | call body rest ihbody ihrest =>
    rw [longest, max_lt_iff] at hL
    have htime : s.time ≤ (Locals.run (pester x L) body
        (s.tick (pester x L)).localsBegin).time :=
      (le_succ _).trans (later_run (s := (s.tick (pester x L)).localsBegin) body).time
    obtain hnow | hbody | hrest := hbad
    · -- the call has emptied the table
      obtain ⟨d, hd, hname⟩ := mem_map.1 (hseen hnow)
      obtain ⟨v, hv, hlow, hhigh⟩ := hdated.value d hd hname
      refine .inr ⟨hinside hnow, v, (later_run rest).declared ?_, Clear.run rest (by omega) ?_⟩
      · rw [← hname, ← hv]
        exact hd
      · exact clear_of_table_nil rfl (lt_of_lt_of_le hhigh (Nat.add_le_add_left htime L))
    · left
      obtain ⟨r, hr, hne⟩ | ⟨-, v, hv, hgone⟩ :=
        ihbody true false hbody hL.1 (s := (s.tick (pester x L)).localsBegin)
          (dated_of_nil rfl rfl) (by simp) (by simp)
      · exact ⟨r, (later_run rest).returned (mem_append_left _ hr), hne⟩
      · obtain ⟨r, hr, hne⟩ := hgone.bad_localsEnd hv
        exact ⟨r, (later_run rest).returned hr, hne⟩
    · refine ihrest inside seen hrest hL.2 ⟨?_, by simp [Scope.resume, Scope.localsEnd]⟩
        hinside hseen
      intro d hd hname
      obtain ⟨v, hv, hlow, hhigh⟩ := hdated.value d hd hname
      exact ⟨v, hv, hlow, lt_of_lt_of_le hhigh (Nat.add_le_add_left htime L)⟩

end Pester

/-- Every name that an invocation declares with `local` is given back when it returns if and only if
no invocation calls a function behind a `local` of its own and no name is longer than the table's
fields. -/
theorem restores_iff_tidy (prog : Prog) : Restores prog ↔ tidy false false prog = true := by
  refine ⟨?_, restores_of_tidy⟩
  intro h
  by_contra huntidy
  obtain ⟨x, hx⟩ := exists_mishandled prog false false [] (Bool.eq_false_iff.2 huntidy)
  obtain ⟨r, hr, hne⟩ | ⟨hin, -⟩ := Mishandled.run (s := start fun _ => none) prog false false
    (by simpa using hx) (lt_succ_self _) (dated_of_nil rfl rfl) (by simp) (by simp)
  · exact hne (h (pester x _) _ r hr).1
  · simp at hin

def declareAndCall : Prog := .call (.decl [ch 'x'] (.call .done .done)) .done

theorem declareAndCall_loses :
    (run (fun _ V => V) declareAndCall
        (start fun x => if x = [ch 'x'] then some ⟨[ch '1'], []⟩ else none)).returned =
      [⟨[ch 'x'], some ⟨[ch '1'], []⟩, some ⟨[], []⟩⟩] := by
  decide +kernel

end Vnu.Vash.Locals
