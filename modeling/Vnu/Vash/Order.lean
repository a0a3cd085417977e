import Vnu.Vash.Expand

/-!
The order of a word's parts. Text pends until the next expansion or edge of quotes, and a backtick
substitution does not wait for it.
-/
namespace Vnu.Vash

open List Nat

variable {w : List Part} {m : UInt8}

inductive Event where
  | char (c : UInt8) (quoted : Bool)
  | dollar (quoted : Bool) (p : Part)
  | tick (quoted : Bool) (body : Text)
  | opening
  | closing
  deriving DecidableEq, Repr

def doubleEvents (s : Text) : List Event × Text :=
  match s with
  | [] => ([], [])
  | q :: s =>
    if q = ch '"' then ([], s)
    else if q = ch '\\' then
      match s with
      | [] => ([], [])
      | n :: s => ahead ((doubleEscape n).map fun b => .char b true) (doubleEvents s)
    else if q = ch '$' then
      ahead [.dollar true (readDollar true s).1] (doubleEvents (readDollar true s).2)
    else if q = ch '`' then
      ahead [.tick true (readBacktick s).1] (doubleEvents (readBacktick s).2)
    else ahead [.char q true] (doubleEvents s)
termination_by s.length
decreasing_by
  · simp only [length_cons]
    omega
  · exact Nat.lt_succ_of_le (readDollar_length_le true s)
  · exact Nat.lt_succ_of_le (readBacktick_length_le s)
  · simp

theorem doubleEvents_escape (n : UInt8) (s : Text) :
    doubleEvents (ch '\\' :: n :: s) =
      ahead ((doubleEscape n).map fun b => .char b true) (doubleEvents s) := by
  rw [doubleEvents.eq_def]
  rfl

theorem doubleEvents_dollar (s : Text) :
    doubleEvents (ch '$' :: s) =
      ahead [.dollar true (readDollar true s).1] (doubleEvents (readDollar true s).2) := by
  rw [doubleEvents.eq_def]
  rfl

theorem doubleEvents_tick (s : Text) :
    doubleEvents (ch '`' :: s) =
      ahead [.tick true (readBacktick s).1] (doubleEvents (readBacktick s).2) := by
  rw [doubleEvents.eq_def]
  rfl

theorem doubleEvents_length_le (s : Text) : (doubleEvents s).2.length ≤ s.length := by
  fun_induction doubleEvents s with
  | case5 s _ _ ih => exact ih.trans ((readDollar_length_le true s).trans (le_succ _))
  | case6 s _ _ _ ih => exact ih.trans ((readBacktick_length_le s).trans (le_succ _))
  | _ => simp only [ahead_snd, length_cons]; omega

def wordEvents (s : Text) : List Event :=
  match s with
  | [] => []
  | c :: s =>
    if isMeta c ∨ c = ch '\n' then []
    else if isBlank c then []
    else if c = ch '\\' then
      match s with
      | [] => []
      | n :: s => .char n true :: wordEvents s
    else if c = ch '\'' then
      .opening :: ((readSingle s).1.map fun b => .char b true) ++
        .closing :: wordEvents (readSingle s).2
    else if c = ch '"' then
      .opening :: (doubleEvents s).1 ++ .closing :: wordEvents (doubleEvents s).2
    else if c = ch '$' then
      .dollar false (readDollar false s).1 :: wordEvents (readDollar false s).2
    else if c = ch '`' then .tick false (readBacktick s).1 :: wordEvents (readBacktick s).2
    else .char c false :: wordEvents s
termination_by s.length
decreasing_by
  · simp only [length_cons]
    omega
  · exact Nat.lt_succ_of_le (readSingle_length_le s)
  · exact Nat.lt_succ_of_le (doubleEvents_length_le s)
  · exact Nat.lt_succ_of_le (readDollar_length_le false s)
  · exact Nat.lt_succ_of_le (readBacktick_length_le s)
  · simp

theorem wordEvents_escape (n : UInt8) (s : Text) :
    wordEvents (ch '\\' :: n :: s) = .char n true :: wordEvents s := by
  rw [wordEvents.eq_def]
  rfl

theorem wordEvents_single (s : Text) :
    wordEvents (ch '\'' :: s) = .opening :: ((readSingle s).1.map fun b => .char b true) ++
      .closing :: wordEvents (readSingle s).2 := by
  rw [wordEvents.eq_def]
  rfl

theorem wordEvents_double (s : Text) :
    wordEvents (ch '"' :: s) =
      .opening :: (doubleEvents s).1 ++ .closing :: wordEvents (doubleEvents s).2 := by
  rw [wordEvents.eq_def]
  rfl

theorem wordEvents_dollar (s : Text) :
    wordEvents (ch '$' :: s) =
      .dollar false (readDollar false s).1 :: wordEvents (readDollar false s).2 := by
  rw [wordEvents.eq_def]
  rfl

theorem wordEvents_tick (s : Text) :
    wordEvents (ch '`' :: s) = .tick false (readBacktick s).1 :: wordEvents (readBacktick s).2 := by
  rw [wordEvents.eq_def]
  rfl

/-- A word in the making: its parts, the pending text, and the parts at the quote. -/
structure Draft where
  word : List Part
  lit : List Tagged
  before : ℕ

namespace Draft

def step (d : Draft) : Event → Draft
  | .char c quoted => { d with lit := d.lit ++ [(c, quoted)] }
  | .dollar quoted p => ⟨wordAddPart (wordAddLit d.word d.lit quoted) p, [], d.before⟩
  | .tick quoted body => { d with word := wordAddPart d.word (.exp .cmdsub quoted body) }
  | .opening => ⟨wordAddLit d.word d.lit false, [], (wordAddLit d.word d.lit false).length⟩
  | .closing => ⟨closeQuotes d.before d.word d.lit, [], d.before⟩

def finish (d : Draft) : List Part := wordAddLit d.word d.lit false

theorem foldl_step_chars (t : Text) (quoted : Bool) (d : Draft) :
    (t.map fun b => Event.char b quoted).foldl step d =
      { d with lit := d.lit ++ t.map fun b => (b, quoted) } := by
  induction t generalizing d with
  | nil => simp
  | cons c t ih => simp [ih, step]

end Draft

theorem doubleLoop_eq (s : Text) (w : List Part) (lit : List Tagged) (before : ℕ) :
    (doubleEvents s).1.foldl Draft.step ⟨w, lit, before⟩ =
        ⟨(doubleLoop s w lit).1, (doubleLoop s w lit).2.1, before⟩ ∧
      (doubleEvents s).2 = (doubleLoop s w lit).2.2 := by
  fun_induction doubleLoop s w lit with
  | case1 => simp [doubleEvents]
  | case2 w lit s => rw [doubleEvents.eq_def]; simp
  | case3 w lit hq => rw [doubleEvents.eq_def]; exact ⟨rfl, rfl⟩
  | case4 w lit hq n s ih =>
    rw [doubleEvents_escape, ahead_fst, foldl_append, Draft.foldl_step_chars]
    exact ih
  | case5 w lit s _ _ ih =>
    rw [doubleEvents_dollar]
    exact ih
  | case6 w lit s _ _ _ ih =>
    rw [doubleEvents_tick]
    exact ih
  | case7 w lit q s hquote hback hdollar htick ih =>
    rw [doubleEvents.eq_def]
    simp only [if_neg hquote, if_neg hback, if_neg hdollar, if_neg htick]
    exact ih

/-- The word is a fold over the events of the source. -/
theorem lexLoop_eq {s : Text} {w : List Part} {lit : List Tagged} (before : ℕ) :
    (lexLoop s w lit).1 = ((wordEvents s).foldl Draft.step ⟨w, lit, before⟩).finish := by
  fun_induction lexLoop s w lit generalizing before with
  | case1 => simp [wordEvents, Draft.finish]
  | case2 w lit c s hend => rw [wordEvents.eq_def]; simp [hend, Draft.finish]
  | case3 w lit c s hend hblank => rw [wordEvents.eq_def]; simp [hblank, Draft.finish]
  | case4 w lit => rw [wordEvents.eq_def]; rfl
  | case5 w lit hend hblank n s ih => rw [wordEvents_escape]; exact ih before
  | case6 w lit s _ _ _ ih =>
    rw [wordEvents_single, foldl_append, foldl_cons, foldl_cons, Draft.foldl_step_chars]
    exact ih _
  | case7 w lit s _ _ _ _ ih =>
    have hrun := doubleLoop_eq s (wordAddLit w lit false) [] (wordAddLit w lit false).length
    have hopen : Draft.step ⟨w, lit, before⟩ .opening =
        ⟨wordAddLit w lit false, [], (wordAddLit w lit false).length⟩ := rfl
    rw [wordEvents_double, foldl_append, foldl_cons, foldl_cons, hopen, hrun.1, hrun.2]
    exact ih _
  | case8 w lit s _ _ _ _ _ ih => rw [wordEvents_dollar]; exact ih before
  | case9 w lit s _ _ _ _ _ _ ih => rw [wordEvents_tick]; exact ih before
  | case10 w lit c s hend hblank hback hsingle hdouble hdollar htick ih =>
    rw [wordEvents.eq_def]
    simp only [if_neg hend, if_neg hblank, if_neg hback, if_neg hsingle, if_neg hdouble,
      if_neg hdollar, if_neg htick]
    exact ih before

inductive Piece where
  | char (c : UInt8)
  | exp (kind : Kind) (quoted : Bool) (body : Text)
  deriving DecidableEq, Repr

variable {r r' : List Piece}

def Part.pieces : Part → List Piece
  | .lit _ text => text.map fun b => .char b.1
  | .exp kind quoted body => [.exp kind quoted body]

def Event.pieces : Event → List Piece
  | .char c _ => [.char c]
  | .dollar _ p => p.pieces
  | .tick quoted body => [.exp .cmdsub quoted body]
  | .opening => []
  | .closing => []

def sourcePieces (s : Text) : List Piece :=
  (lexTilde s).1.flatMap Part.pieces ++ (wordEvents (lexTilde s).2).flatMap Event.pieces

/-- The pieces that the events leave in the word behind those of the pending text. -/
def displaced (pending : List Piece) : List Event → List Piece
  | [] => pending
  | .char c _ :: es => displaced (pending ++ [.char c]) es
  | .dollar _ p :: es => pending ++ p.pieces ++ displaced [] es
  | .tick quoted body :: es => .exp .cmdsub quoted body :: displaced pending es
  | .opening :: es => pending ++ displaced [] es
  | .closing :: es => pending ++ displaced [] es

/-- What is read off the literals of a word does not depend on how they are joined. -/
theorem wordAddLit_flatMap {β : Type} {f : Part → List β} {g : Tagged → List β}
    (hf : ∀ q t, f (.lit q t) = t.flatMap g) (w : List Part) (t : List Tagged) (quoted : Bool) :
    (wordAddLit w t quoted).flatMap f = w.flatMap f ++ t.flatMap g := by
  unfold wordAddLit
  split_ifs with ht
  · simp [ht]
  split
  · next q text hlast =>
    have hw : w = w.dropLast ++ [.lit q text] := by
      rw [← dropLast_append_getLast? _ hlast]
      simp
    split_ifs
    · conv_rhs => rw [hw]
      simp [hf]
    · simp [hf]
  · simp [hf]

theorem wordAddLit_pieces (w : List Part) (t : List Tagged) (quoted : Bool) :
    (wordAddLit w t quoted).flatMap Part.pieces =
      w.flatMap Part.pieces ++ t.map fun b => .char b.1 := by
  rw [map_eq_flatMap]
  exact wordAddLit_flatMap (fun _ _ => map_eq_flatMap) w t quoted

theorem wordAddPart_pieces (w : List Part) (p : Part) :
    (wordAddPart w p).flatMap Part.pieces = w.flatMap Part.pieces ++ p.pieces := by
  cases p with
  | lit quoted text => exact wordAddLit_pieces w text quoted
  | exp kind quoted body => simp [wordAddPart]

theorem markQuoted_pieces (before : ℕ) (w : List Part) :
    (markQuoted before w).flatMap Part.pieces = w.flatMap Part.pieces := by
  unfold markQuoted
  split
  · split_ifs <;> simp [Part.pieces]
  · rfl

theorem finish_pieces (es : List Event) (d : Draft) :
    (es.foldl Draft.step d).finish.flatMap Part.pieces =
      d.word.flatMap Part.pieces ++ displaced (d.lit.map fun b => .char b.1) es := by
  induction es generalizing d with
  | nil => exact wordAddLit_pieces _ _ _
  | cons e es ih =>
    rw [foldl_cons, ih]
    cases e with
    | char c quoted => simp [Draft.step, displaced]
    | dollar quoted p => simp [Draft.step, displaced, wordAddPart_pieces, wordAddLit_pieces]
    | tick quoted body =>
      rw [Draft.step, wordAddPart_pieces]
      simp [displaced, Part.pieces]
    | opening => simp [Draft.step, displaced, wordAddLit_pieces]
    | closing => simp [Draft.step, displaced, closeQuotes, markQuoted_pieces, wordAddLit_pieces]

theorem displaced_perm (pending : List Piece) (es : List Event) :
    (displaced pending es).Perm (pending ++ es.flatMap Event.pieces) := by
  induction es generalizing pending with
  | nil => simp [displaced]
  | cons e es ih =>
    cases e with
    | char c quoted =>
      have hrest := ih (pending ++ [.char c])
      rwa [append_assoc] at hrest
    | dollar quoted p =>
      simpa [displaced, Event.pieces] using (ih []).append_left (pending ++ p.pieces)
    | tick quoted body =>
      have hstep := (ih pending).cons (Piece.exp .cmdsub quoted body)
      exact hstep.trans perm_middle.symm
    | opening | closing => simpa [displaced, Event.pieces] using (ih []).append_left pending

def inPlace (pending : Bool) : List Event → Bool
  | [] => true
  | .char _ _ :: es => inPlace true es
  | .dollar _ _ :: es => inPlace false es
  | .tick _ _ :: es => !pending && inPlace false es
  | .opening :: es => inPlace false es
  | .closing :: es => inPlace false es

theorem displaced_of_inPlace (pending : List Piece) (es : List Event)
    (h : inPlace (!pending.isEmpty) es = true) :
    displaced pending es = pending ++ es.flatMap Event.pieces := by
  induction es generalizing pending with
  | nil => simp [displaced]
  | cons e es ih =>
    cases e with
    | char c quoted =>
      have hsome : (pending ++ [Piece.char c]).isEmpty = false := by simp
      have hrest := ih (pending ++ [.char c]) (by rw [hsome]; exact h)
      simp [displaced, Event.pieces, hrest]
    | dollar quoted p | opening | closing =>
      have hrest := ih [] (by simpa [inPlace] using h)
      simp [displaced, Event.pieces, hrest]
    | tick quoted body =>
      obtain ⟨hempty, htail⟩ : pending = [] ∧ inPlace false es = true := by
        simpa [inPlace] using h
      subst hempty
      have hrest := ih [] htail
      simp [displaced, Event.pieces, hrest]

/-- Rows that agree up to a substitution in the first and a character in the second. -/
def Parted (r r' : List Piece) : Prop :=
  ∃ start quoted body rest c rest',
    r = start ++ .exp .cmdsub quoted body :: rest ∧ r' = start ++ .char c :: rest'

theorem Parted.append_left (h : Parted r r') (t : List Piece) : Parted (t ++ r) (t ++ r') := by
  obtain ⟨start, quoted, body, rest, c, rest', rfl, rfl⟩ := h
  exact ⟨t ++ start, quoted, body, rest, c, rest', by simp, by simp⟩

/-- The first backtick that overtakes pending text parts the two orders. -/
theorem parted_of_not_inPlace (pending : Text) (es : List Event)
    (h : inPlace (!pending.isEmpty) es = false) :
    Parted (displaced (pending.map .char) es) (pending.map .char ++ es.flatMap Event.pieces) := by
  induction es generalizing pending with
  | nil => simp [inPlace] at h
  | cons e es ih =>
    cases e with
    | char c quoted =>
      have hsome : (pending ++ [c]).isEmpty = false := by simp
      have hrest := ih (pending ++ [c]) (by rw [hsome]; exact h)
      rwa [map_append, append_assoc] at hrest
    | dollar quoted p =>
      have hrest := ih [] (by simpa [inPlace] using h)
      have hall := hrest.append_left (pending.map .char ++ p.pieces)
      rwa [append_assoc _ _ (_ ++ _)] at hall
    | tick quoted body =>
      cases pending with
      | nil =>
        have hrest := ih [] (by simpa [inPlace] using h)
        simpa [displaced, Event.pieces] using hrest.append_left [Piece.exp .cmdsub quoted body]
      | cons c pending => exact ⟨[], quoted, body, _, c, _, rfl, rfl⟩
    | opening | closing =>
      have hrest := ih [] (by simpa [inPlace] using h)
      simpa [displaced, Event.pieces] using hrest.append_left (pending.map .char)

variable {α β σ : Type}

namespace Added

@[simp] theorem after_nil (a : Added α σ) : a.after [] = a := by
  cases a <;> rfl

theorem after_after (t u : List α) (a : Added α σ) : (a.after u).after t = a.after (t ++ u) := by
  cases a <;> simp [after]

theorem after_andThen (t : List α) (a : Added α σ) (f : σ → Added α σ) :
    (a.after t).andThen f = (a.andThen f).after t := by
  cases a with
  | text u s => exact (after_after t u (f s)).symm
  | stop u s => rfl
  | endless => rfl

theorem andThen_andThen (a : Added α σ) (f g : σ → Added α σ) :
    (a.andThen f).andThen g = a.andThen fun s => (f s).andThen g := by
  cases a with
  | text t s => exact after_andThen t (f s) g
  | stop t s => rfl
  | endless => rfl

theorem map_after (h : α → β) (t : List α) (a : Added α σ) :
    (a.after t).map h = (a.map h).after (t.map h) := by
  cases a <;> simp [after, map]

theorem map_andThen (h : α → β) (a : Added α σ) (f : σ → Added α σ) :
    (a.andThen f).map h = (a.map h).andThen fun s => (f s).map h := by
  cases a with
  | text t s => exact map_after h t (f s)
  | stop t s => rfl
  | endless => rfl

end Added

def Expander.expandPieces (X : Expander σ) (quoted : Bool) : List Piece → σ → Added UInt8 σ
  | [], s => .text [] s
  | .char c :: ps, s => (expandPieces X quoted ps s).after [c]
  | .exp kind q body :: ps, s =>
    ((X.expandBody kind (quoted || q) body s).map Cell.byte).andThen (expandPieces X quoted ps)

/-- The pieces of a part as it is expanded: literal text ends at its first byte 0. -/
def Part.kept : Part → List Piece
  | .lit _ text => (text.takeWhile fun b => b.1 ≠ 0).map fun b => .char b.1
  | .exp kind quoted body => [.exp kind quoted body]

theorem char_zero_not_mem_kept (w : List Part) : Piece.char 0 ∉ w.flatMap Part.kept := by
  intro hmem
  obtain ⟨p, -, hp⟩ := mem_flatMap.1 hmem
  cases p with
  | lit quoted text =>
    obtain ⟨b, hb, hzero⟩ := mem_map.1 hp
    have hne := mem_takeWhile_imp hb
    simp_all
  | exp kind quoted body => simp [Part.kept] at hp

theorem mem_pieces_of_mem_kept {p : Piece} (hp : p ∈ w.flatMap Part.kept) :
    p ∈ w.flatMap Part.pieces := by
  obtain ⟨part, hpart, hp⟩ := mem_flatMap.1 hp
  refine mem_flatMap.2 ⟨part, hpart, ?_⟩
  cases part with
  | lit quoted text => exact ((takeWhile_sublist _).map _).subset hp
  | exp kind quoted body => exact hp

theorem kept_eq_pieces (hzero : Piece.char 0 ∉ w.flatMap Part.pieces) :
    w.flatMap Part.kept = w.flatMap Part.pieces := by
  refine flatMap_congr fun part hpart => ?_
  cases part with
  | lit quoted text =>
    have hall : (text.takeWhile fun b => b.1 ≠ 0) = text := by
      rw [takeWhile_eq_self_iff]
      intro b hb
      have hne : b.1 ≠ 0 := by
        intro h0
        exact hzero (mem_flatMap.2 ⟨_, hpart, mem_map.2 ⟨b, hb, by rw [h0]⟩⟩)
      simpa using hne
    rw [Part.kept, hall, Part.pieces]
  | exp kind quoted body => rfl

namespace Expander

variable (X : Expander σ)

theorem expandPieces_append (quoted : Bool) (r r' : List Piece) (s : σ) :
    X.expandPieces quoted (r ++ r') s =
      (X.expandPieces quoted r s).andThen (X.expandPieces quoted r') := by
  induction r generalizing s with
  | nil => simp [expandPieces, Added.andThen]
  | cons p r ih =>
    cases p with
    | char c =>
      rw [cons_append, expandPieces, expandPieces, ih, Added.after_andThen]
    | exp kind q body =>
      rw [cons_append, expandPieces, expandPieces, Added.andThen_andThen]
      congr 1
      exact funext ih

theorem expandPieces_chars (quoted : Bool) (t : Text) (s : σ) :
    X.expandPieces quoted (t.map .char) s = .text t s := by
  induction t with
  | nil => rfl
  | cons c t ih => rw [map_cons, expandPieces, ih, Added.after, singleton_append]

theorem expandPart_map_byte (quoted : Bool) (p : Part) (s : σ) :
    (X.expandPart quoted p s).map Cell.byte = X.expandPieces quoted p.kept s := by
  cases p with
  | lit q text =>
    have hchars := X.expandPieces_chars quoted ((text.takeWhile fun b => b.1 ≠ 0).map Prod.fst) s
    rw [map_map] at hchars
    simp only [expandPart, Added.map, addText, map_map]
    exact hchars.symm
  | exp kind q body =>
    simp only [expandPart, Part.kept, expandPieces]
    cases (X.expandBody kind (quoted || q) body s).map Cell.byte with
    | text t s' => simp [Added.andThen, Added.after]
    | stop t s' => rfl
    | endless => rfl

theorem expandParts_map_byte (quoted : Bool) (w : List Part) (s : σ) :
    (X.expandParts quoted w s).map Cell.byte = X.expandPieces quoted (w.flatMap Part.kept) s := by
  induction w generalizing s with
  | nil => rfl
  | cons p w ih =>
    rw [expandParts, Added.map_andThen, expandPart_map_byte, flatMap_cons, expandPieces_append]
    congr 1
    exact funext ih

end Expander

def Expander.wordText (X : Expander σ) (quoted : Bool) (w : List Part) (s : σ) : Option Text :=
  (X.expandWordParts quoted w s).map fun r => fieldText r.1

theorem Added.result_map (f : α → β) (a : Added α σ) :
    (a.map f).result.map Prod.fst = a.result.map fun r => r.1.map f := by
  cases a <;> rfl

theorem Expander.wordText_eq (X : Expander σ) (quoted : Bool) (w : List Part) (s : σ) :
    X.wordText quoted w s =
      (X.expandPieces quoted (w.flatMap Part.kept) s).result.map Prod.fst := by
  rw [← expandParts_map_byte, Added.result_map]
  rfl

def constant (m : UInt8) : Expander Unit where
  args _ := []
  ifs _ := none
  lookup _ s := (some [m], s)
  capture _ s := ([m], s)
  readFile _ s := (some [m], s)
  arith _ s := ([m], s)
  home _ := [m]
  brace _ _ s := ([⟨m, false, false, false, false⟩], s)
  entries _ _ := none
  stale _ _ := []

def constantText (m : UInt8) : Piece → Text
  | .char c => [c]
  | .exp kind _ body => if kind = .var ∧ (body = [ch '@'] ∨ body = [ch '*']) then [] else [m]

theorem constant_expandBody (hm : m ≠ 0) {kind : Kind} (hkind : kind ≠ .tilde)
    (q q' : Bool) (body : Text) :
    ((constant m).expandBody kind q body ()).map Cell.byte =
      .text (constantText m (.exp kind q' body)) () := by
  cases kind with
  | var =>
    by_cases hall : body = [ch '@'] ∨ body = [ch '*']
    · have hargs : (constant m).addAllArgs q () = [] := by cases q <;> rfl
      simp [Expander.expandBody, constantText, hall, hargs, Added.map]
    · simp [Expander.expandBody, constantText, hall, constant, addText, plain, Added.map, hm]
  | tilde => exact absurd rfl hkind
  | brace => rfl
  | cmdsub | arith | file =>
    simp [Expander.expandBody, constantText, constant, addText, plain, Added.map, hm]

theorem constant_expandPieces (hm : m ≠ 0) (quoted : Bool) (r : List Piece)
    (htilde : ∀ q user, Piece.exp .tilde q user ∉ r) :
    (constant m).expandPieces quoted r () = .text (r.flatMap (constantText m)) () := by
  induction r with
  | nil => rfl
  | cons p r ih =>
    have hrest := ih fun q user hmem => htilde q user (mem_cons_of_mem _ hmem)
    cases p with
    | char c => rw [Expander.expandPieces, hrest]; rfl
    | exp kind q body =>
      have hkind : kind ≠ .tilde := by
        rintro rfl
        exact htilde q body (by simp)
      rw [Expander.expandPieces, constant_expandBody hm hkind _ q]
      simp [Added.andThen, hrest, Added.after]

theorem zero_mem_constantText (hm : m ≠ 0) (r : List Piece) :
    0 ∈ r.flatMap (constantText m) ↔ Piece.char 0 ∈ r := by
  rw [mem_flatMap]
  constructor
  · rintro ⟨p, hp, hzero⟩
    cases p with
    | char c =>
      rw [constantText, mem_singleton] at hzero
      rwa [hzero]
    | exp kind q body =>
      rw [constantText] at hzero
      split_ifs at hzero
      · simp at hzero
      · exact absurd (mem_singleton.1 hzero).symm hm
  · intro hmem
    exact ⟨_, hmem, by simp [constantText]⟩

theorem Parted.constantText_ne (h : Parted r r') :
    ∃ m, m ≠ 0 ∧ r.flatMap (constantText m) ≠ r'.flatMap (constantText m) := by
  obtain ⟨start, quoted, body, rest, c, rest', rfl, rfl⟩ := h
  obtain ⟨m, hm, hmc⟩ : ∃ m : UInt8, m ≠ 0 ∧ m ≠ c := by
    by_cases hc : c = 1
    · exact ⟨2, by decide, by rw [hc]; decide⟩
    · exact ⟨1, by decide, fun h => hc h.symm⟩
  refine ⟨m, hm, fun heq => hmc ?_⟩
  rw [flatMap_append, flatMap_append] at heq
  have htail := append_cancel_left heq
  exact (List.cons.inj htail).1

def Untilded (s : Text) : Prop := ∀ q user, Piece.exp .tilde q user ∉ sourcePieces s

theorem lexWord_pieces {s : Text} (hs : Untilded s) :
    (lexWord s).1.flatMap Part.pieces = displaced [] (wordEvents s) ∧
      sourcePieces s = (wordEvents s).flatMap Event.pieces := by
  have hnone : lexTilde s = ([], s) := by
    cases s with
    | nil => rfl
    | cons c t =>
      by_cases hc : c = ch '~' ∧ tildeNext t
      · refine absurd ?_ (hs false (t.takeWhile userChar))
        simp [sourcePieces, lexTilde, hc, Part.pieces]
      · rw [lexTilde, if_neg hc]
  constructor
  · rw [lexWord, hnone, lexLoop_eq 0, finish_pieces]
    simp [Part.pieces]
  · simp [sourcePieces, hnone]

/-- The text of a word is that of its pieces in source order, whatever they expand to, if and only
if no byte 0 is written in it and no text is pending at a backtick. -/
theorem wordText_in_order_iff {s : Text} (hs : Untilded s) :
    (∀ (σ : Type) (X : Expander σ) (quoted : Bool) (st : σ), X.wordText quoted (lexWord s).1 st =
        (X.expandPieces quoted (sourcePieces s) st).result.map Prod.fst) ↔
      Piece.char 0 ∉ sourcePieces s ∧ inPlace false (wordEvents s) = true := by
  obtain ⟨hword, hsource⟩ := lexWord_pieces hs
  have hperm : ((lexWord s).1.flatMap Part.pieces).Perm (sourcePieces s) := by
    rw [hword, hsource]
    exact displaced_perm [] _
  have hkeptTilde : ∀ q user, Piece.exp .tilde q user ∉ (lexWord s).1.flatMap Part.kept :=
    fun q user hmem => hs q user (hperm.mem_iff.1 (mem_pieces_of_mem_kept hmem))
  -- what the constant expander makes of the two rows
  have hconstant : ∀ m : UInt8, m ≠ 0 → (∀ (σ : Type) (X : Expander σ) (quoted : Bool) (st : σ),
        X.wordText quoted (lexWord s).1 st =
          (X.expandPieces quoted (sourcePieces s) st).result.map Prod.fst) →
      ((lexWord s).1.flatMap Part.kept).flatMap (constantText m) =
        (sourcePieces s).flatMap (constantText m) := by
    intro m hm hall
    have heq := hall Unit (constant m) false ()
    rw [Expander.wordText_eq, constant_expandPieces hm false _ hkeptTilde,
      constant_expandPieces hm false _ hs] at heq
    exact Option.some_inj.1 heq
  constructor
  · intro hall
    have hzero : Piece.char 0 ∉ sourcePieces s := by
      have heq := hconstant 1 (by decide) hall
      rw [← zero_mem_constantText (m := 1) (by decide), ← heq, zero_mem_constantText (by decide)]
      exact char_zero_not_mem_kept _
    refine ⟨hzero, ?_⟩
    by_contra hplace
    have hparted := parted_of_not_inPlace [] (wordEvents s) (by simpa using hplace)
    obtain ⟨m, hm, hne⟩ := hparted.constantText_ne
    have heq := hconstant m hm hall
    rw [kept_eq_pieces (fun hmem => hzero (hperm.mem_iff.1 hmem)), hword, hsource] at heq
    exact hne heq
  · rintro ⟨hzero, hplace⟩ σ X quoted st
    have hkept : (lexWord s).1.flatMap Part.kept = sourcePieces s := by
      rw [kept_eq_pieces (fun hmem => hzero (hperm.mem_iff.1 hmem)), hword, hsource]
      exact displaced_of_inPlace [] _ hplace
    rw [Expander.wordText_eq, hkept]

def quotedInside : Text := [ch '$', ch 'x', ch '"', ch 'y', ch '"', ch 'z']

theorem untilded_quotedInside : Untilded quotedInside := by
  have hpieces : sourcePieces quotedInside =
      [.exp .var false [ch 'x'], .char (ch 'y'), .char (ch 'z')] := by
    decide +kernel
  intro q user
  simp [hpieces]

theorem wordText_in_order_quotedInside :
    Untilded quotedInside ∧ (constant (ch 'm')).wordText false (lexWord quotedInside).1 () =
        ((constant (ch 'm')).expandPieces false (sourcePieces quotedInside) ()).result.map
          Prod.fst :=
  ⟨untilded_quotedInside,
    (wordText_in_order_iff untilded_quotedInside).2 (by decide +kernel) Unit _ false ()⟩

def letterTick : Text := [ch 'a', ch '`', ch 'b', ch '`']

theorem wordText_letterTick :
    (constant (ch 'm')).wordText false (lexWord letterTick).1 () = some [ch 'm', ch 'a'] ∧
      ((constant (ch 'm')).expandPieces false (sourcePieces letterTick) ()).result.map Prod.fst =
        some [ch 'a', ch 'm'] := by
  decide +kernel

end Vnu.Vash
