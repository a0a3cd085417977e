import Mathlib.Data.List.TakeWhile
import Vnu.Vash.Lex

/-!
How the shell expands a word. Every part adds cells to a row, which is split at the characters of
`IFS` and looked up in a directory. What variables, commands, files and arithmetic answer is left to
an expander.
-/
namespace Vnu.Vash

open List

structure CStr where
  bytes : Text
  nonzero : 0 ∉ bytes
  deriving DecidableEq

structure Cell where
  byte : UInt8
  quote : Bool
  split : Bool
  glob : Bool
  tagged : Bool
  deriving DecidableEq, Repr

/-- What the rest of the shell answers, and what that changes. -/
structure Expander (σ : Type) where
  args : σ → List CStr
  ifs : σ → Option CStr
  /-- No answer for an unbound variable where that is an error. -/
  lookup : Text → σ → Option Text × σ
  capture : Text → σ → Text × σ
  readFile : Text → σ → Option Text × σ
  arith : Text → σ → Text × σ
  home : σ → Text
  brace : Text → Bool → σ → List Cell × σ
  entries : Text → σ → Option (List CStr)
  /-- What is read back of a string that was freed before. -/
  stale : Text → σ → Text

/-- What an expansion adds to a row. It may end the whole word, or never end. -/
inductive Added (α σ : Type) where
  | text (row : List α) (s : σ)
  | stop (row : List α) (s : σ)
  | endless
  deriving DecidableEq, Repr

variable {α β σ : Type}

namespace Added

def after (row : List α) : Added α σ → Added α σ
  | .text t s => .text (row ++ t) s
  | .stop t s => .stop (row ++ t) s
  | .endless => .endless

def andThen (a : Added α σ) (f : σ → Added α σ) : Added α σ :=
  match a with
  | .text t s => (f s).after t
  | .stop t s => .stop t s
  | .endless => .endless

def map (f : α → β) : Added α σ → Added β σ
  | .text t s => .text (t.map f) s
  | .stop t s => .stop (t.map f) s
  | .endless => .endless

def result : Added α σ → Option (List α × σ)
  | .text t s => some (t, s)
  | .stop t s => some (t, s)
  | .endless => none

end Added

def cstr (t : Text) : Text := t.takeWhile fun c => c ≠ 0

def plain (t : Text) : List Tagged := t.map fun b => (b, false)

def addText (t : List Tagged) (quoted fromExpansion : Bool) : List Cell :=
  (t.takeWhile fun b => b.1 ≠ 0).map fun b => ⟨b.1, quoted, fromExpansion, !quoted, b.2⟩

def defaultIfs : Text := [ch ' ', ch '\t', ch '\n']

def ifsOf (ifs : Option CStr) : Text :=
  match ifs with
  | none => defaultIfs
  | some t => t.bytes

def sepOf (ifs : Option CStr) : UInt8 := (ifsOf ifs).headD (ch ' ')

namespace Expander

variable (X : Expander σ)

def addAllArgs (quoted : Bool) (s : σ) : List Cell :=
  if quoted then
    intercalate [⟨sepOf (X.ifs s), true, false, false, false⟩]
      ((X.args s).map fun a => addText (plain a.bytes) true true)
  else
    addText (plain (intercalate [sepOf (X.ifs s)] ((X.args s).map CStr.bytes))) false true

def addTilde (user : Text) (quoted : Bool) (s : σ) : Added Cell σ :=
  if user.headD 0 = 0 then .text (addText (plain (X.home s)) quoted false) s
  else .endless

def expandBody (kind : Kind) (q : Bool) (body : Text) (s : σ) : Added Cell σ :=
  match kind with
  | .var =>
    if body = [ch '@'] ∨ body = [ch '*'] then .text (X.addAllArgs q s) s
    else
      match X.lookup body s with
      | (some v, s') => .text (addText (plain v) q true) s'
      | (none, s') => .stop [] s'
  | .cmdsub => .text (addText (plain (X.capture body s).1) q true) (X.capture body s).2
  | .file =>
    .text (addText (plain ((X.readFile body s).1.getD [])) q true) (X.readFile body s).2
  | .arith => .text (addText (plain (X.arith body s).1) q true) (X.arith body s).2
  | .tilde => X.addTilde body q s
  | .brace => .text (X.brace body q s).1 (X.brace body q s).2

def expandPart (quoted : Bool) (p : Part) (s : σ) : Added Cell σ :=
  match p with
  | .lit q text => .text (addText text (quoted || q) false) s
  | .exp kind q body => X.expandBody kind (quoted || q) body s

def expandParts (quoted : Bool) : List Part → σ → Added Cell σ
  | [], s => .text [] s
  | p :: w, s => (X.expandPart quoted p s).andThen (expandParts quoted w)

def expandWordParts (quoted : Bool) (w : List Part) (s : σ) : Option (List Cell × σ) :=
  (X.expandParts quoted w s).result

end Expander

def isIfs (c : UInt8) (ifs : Text) : Bool := ifs.any fun p => charVal p == c.toNat

def splitLoop (ifs : Text) : List Cell → List Cell → List (List Cell)
  | [], cur => if cur = [] then [] else [cur]
  | c :: cells, cur =>
    if c.split ∧ ¬c.quote ∧ isIfs c.byte ifs then
      if cur = [] then splitLoop ifs cells [] else cur :: splitLoop ifs cells []
    else splitLoop ifs cells (cur ++ [c])

def splitExp (ifs : Text) (cells : List Cell) : List (List Cell) :=
  if ifs = [] then [cells] else splitLoop ifs cells []

def fieldText (field : List Cell) : Text := field.map Cell.byte

/-- The flags are those of the whole row from its start, not those of the field. -/
def hasPattern (field cells : List Cell) : Bool :=
  (field.zip cells).any fun p =>
    !p.2.quote && p.2.glob && (p.1.byte == ch '*' || p.1.byte == ch '?' || p.1.byte == ch '[')

def splitDir (path : Text) : Text × Text :=
  if ch '/' ∈ path then
    let tail := (path.reverse.takeWhile fun c => c ≠ ch '/').reverse
    let dir := path.take (path.length - tail.length - 1)
    ((if dir = [] then [ch '/'] else dir).take 255, tail)
  else ([ch '.'], path)

def nameAfter : Text → Text → Bool
  | _ :: _, [] => true
  | [], _ => false
  | x :: xs, y :: ys => y < x || x == y && nameAfter xs ys

def insertName (names : List Text) (key : Text) : List Text :=
  (names.reverse.dropWhile fun n => nameAfter n key).reverse ++
    key :: (names.reverse.takeWhile fun n => nameAfter n key).reverse

def dots : List Text := [[ch '.'], [ch '.', ch '.']]

def globHits (pat : Text) (names : List CStr) : List Text :=
  (names.map CStr.bytes).filter fun n => n ∉ dots && shPattern pat n

namespace Expander

variable (X : Expander σ)

def shGlob (pattern : Text) (s : σ) : List Text :=
  match X.entries (splitDir pattern).1 s with
  | none => []
  | some names =>
    ((globHits (splitDir pattern).2 names).foldl insertName []).map fun n =>
      if (splitDir pattern).1 = [ch '.'] then n else (splitDir pattern).1 ++ ch '/' :: n

def expandField (cells field : List Cell) (s : σ) : List Text :=
  if hasPattern field cells then
    match X.shGlob (cstr (fieldText field)) s with
    | [] => [fieldText field]
    | hits => hits.map fun h => X.stale h s
  else [fieldText field]

end Expander

def Part.quoted : Part → Bool
  | .lit q _ => q
  | .exp _ q _ => q

def Expander.fieldArgs (X : Expander σ) (w : List Part) (cells : List Cell) (s : σ) : List Text :=
  match splitExp (ifsOf (X.ifs s)) cells with
  | [] => if w.any Part.quoted then [[]] else []
  | fields => fields.flatMap fun f => X.expandField cells f s

def Expander.expandWord (X : Expander σ) (w : List Part) (s : σ) : Option (List Text × σ) :=
  (X.expandWordParts false w s).map fun r => (X.fieldArgs w r.1 r.2, r.2)

def Expander.expandWordOne (X : Expander σ) (w : List Part) (s : σ) : Option (Text × σ) :=
  (X.expandWordParts true w s).map fun r => (fieldText r.1, r.2)

section AllArgs

theorem takeWhile_plain (t : CStr) :
    ((plain t.bytes).takeWhile fun b => b.1 ≠ 0) = plain t.bytes := by
  rw [takeWhile_eq_self_iff]
  intro b hb
  obtain ⟨c, hc, rfl⟩ := mem_map.1 hb
  have hne : c ≠ 0 := fun h0 => t.nonzero (h0 ▸ hc)
  simpa using hne

theorem fieldText_addText_plain (t : CStr) (quoted fromExpansion : Bool) :
    fieldText (addText (plain t.bytes) quoted fromExpansion) = t.bytes := by
  simp only [fieldText, addText]
  rw [takeWhile_plain]
  simp [plain, Function.comp_def]

theorem fieldText_intercalate (sep : Cell) (rows : List (List Cell)) :
    fieldText (intercalate [sep] rows) = intercalate [sep.byte] (rows.map fieldText) := by
  induction rows with
  | nil => simp [fieldText]
  | cons row rows ih =>
    cases rows with
    | nil => simp
    | cons row' rows =>
      rw [intercalate_cons_cons, map_cons, map_cons, intercalate_cons_cons, ← map_cons, ← ih]
      simp [fieldText]

theorem mem_intercalate {sep c : Cell} {rows : List (List Cell)}
    (hc : c ∈ intercalate [sep] rows) : c = sep ∨ ∃ row ∈ rows, c ∈ row := by
  induction rows with
  | nil => simp at hc
  | cons row rows ih =>
    cases rows with
    | nil => exact .inr ⟨row, by simp, by simpa using hc⟩
    | cons row' rows =>
      rw [intercalate_cons_cons, mem_append, mem_append, mem_singleton] at hc
      obtain (hrow | hsep) | hrest := hc
      · exact .inr ⟨row, by simp, hrow⟩
      · exact .inl hsep
      · obtain hsep | ⟨r, hr, hcr⟩ := ih hrest
        · exact .inl hsep
        · exact .inr ⟨r, mem_cons_of_mem _ hr, hcr⟩

variable (X : Expander σ) (s : σ)

theorem addAllArgs_quote : ∀ c ∈ X.addAllArgs true s, c.quote = true := by
  intro c hc
  obtain rfl | ⟨row, hrow, hcr⟩ := mem_intercalate hc
  · rfl
  · obtain ⟨a, -, rfl⟩ := mem_map.1 hrow
    obtain ⟨b, -, rfl⟩ := mem_map.1 hcr
    rfl

theorem fieldText_addAllArgs :
    fieldText (X.addAllArgs true s) =
      intercalate [sepOf (X.ifs s)] ((X.args s).map CStr.bytes) := by
  have hrows : ((X.args s).map fun a => addText (plain a.bytes) true true).map fieldText =
      (X.args s).map CStr.bytes := by
    simp [fieldText_addText_plain]
  simp only [Expander.addAllArgs, if_true]
  rw [fieldText_intercalate, hrows]

theorem hasPattern_quoted {cells : List Cell} (hquote : ∀ c ∈ cells, c.quote = true)
    (field : List Cell) : hasPattern field cells = false := by
  rw [hasPattern, any_eq_false]
  intro p hp
  have hq := hquote p.2 (of_mem_zip hp).2
  simp [hq]

theorem splitLoop_quoted (ifs : Text) {cells : List Cell} (hquote : ∀ c ∈ cells, c.quote = true)
    (cur : List Cell) :
    splitLoop ifs cells cur = if cur ++ cells = [] then [] else [cur ++ cells] := by
  induction cells generalizing cur with
  | nil => simp [splitLoop]
  | cons c cells ih =>
    have hc := hquote c (by simp)
    have hrest := ih (fun d hd => hquote d (mem_cons_of_mem _ hd)) (cur ++ [c])
    simp [splitLoop, hc, hrest]

/-- Quoted cells are one argument, however many fields they were meant to be. -/
theorem fieldArgs_quoted {w : List Part} {cells : List Cell} (hw : w.any Part.quoted = true)
    (hquote : ∀ c ∈ cells, c.quote = true) : X.fieldArgs w cells s = [fieldText cells] := by
  have hfield : X.expandField cells cells s = [fieldText cells] := by
    simp [Expander.expandField, hasPattern_quoted hquote]
  unfold Expander.fieldArgs splitExp
  split_ifs with hifs
  · simp [hfield]
  · rw [splitLoop_quoted _ hquote, nil_append]
    split_ifs with hcells
    · simp [hcells, fieldText]
    · simp [hfield]

def allArgs : Text := [ch '"', ch '$', ch '@', ch '"']

theorem lexWord_allArgs : lexWord allArgs = ([.lit false [], .exp .var true [ch '@']], []) := by
  decide +kernel

theorem expandWord_allArgs :
    X.expandWord (lexWord allArgs).1 s =
      some ([intercalate [sepOf (X.ifs s)] ((X.args s).map CStr.bytes)], s) := by
  have hparts : X.expandWordParts false (lexWord allArgs).1 s = some (X.addAllArgs true s, s) := by
    rw [lexWord_allArgs]
    simp [Expander.expandWordParts, Expander.expandParts, Expander.expandPart, Expander.expandBody,
      addText, Added.andThen, Added.after, Added.result]
  have hw : (lexWord allArgs).1.any Part.quoted = true := by
    rw [lexWord_allArgs]
    rfl
  rw [Expander.expandWord, hparts, Option.map_some, fieldArgs_quoted X s hw (addAllArgs_quote X s),
    fieldText_addAllArgs]

theorem expandWord_allArgs_iff :
    (X.expandWord (lexWord allArgs).1 s).map Prod.fst = some ((X.args s).map CStr.bytes) ↔
      (X.args s).length = 1 := by
  rw [expandWord_allArgs, Option.map_some, Option.some_inj]
  constructor
  · intro h
    simpa using (congrArg length h).symm
  · intro h
    obtain ⟨a, ha⟩ := length_eq_one_iff.1 h
    simp [ha]

end AllArgs

theorem zero_not_mem_a : (0 : UInt8) ∉ [ch 'a'] := by decide

theorem zero_not_mem_b : (0 : UInt8) ∉ [ch 'b'] := by decide

def twoArgs : Expander Unit where
  args _ := [⟨[ch 'a'], zero_not_mem_a⟩, ⟨[ch 'b'], zero_not_mem_b⟩]
  ifs _ := none
  lookup _ s := (some [], s)
  capture _ s := ([], s)
  readFile _ s := (none, s)
  arith _ s := ([], s)
  home _ := []
  brace _ _ s := ([], s)
  entries _ _ := none
  stale _ _ := []

theorem expandWord_allArgs_twoArgs :
    (twoArgs.expandWord (lexWord allArgs).1 ()).map Prod.fst = some [[ch 'a', ch ' ', ch 'b']] ∧
      some ((twoArgs.args ()).map CStr.bytes) ≠
        (twoArgs.expandWord (lexWord allArgs).1 ()).map Prod.fst := by
  decide +kernel

end Vnu.Vash
