import Vnu.Vash.Fnmatch

/-!
How the shell reads a word. Each character of literal text keeps whether it was quoted in the
source; the shell itself keeps one flag for each part.
-/
namespace Vnu.Vash

open List Nat

abbrev Tagged := UInt8 × Bool

inductive Kind where
  | var
  | cmdsub
  | arith
  | tilde
  | brace
  | file
  deriving DecidableEq, Repr

inductive Part where
  | lit (quoted : Bool) (text : List Tagged)
  | exp (kind : Kind) (quoted : Bool) (body : Text)
  deriving DecidableEq, Repr

def isMeta (c : UInt8) : Bool :=
  c == ch '|' || c == ch '&' || c == ch ';' || c == ch '(' || c == ch ')' || c == ch '<' ||
    c == ch '>'

def isBlank (c : UInt8) : Bool := c == ch ' ' || c == ch '\t'

def isDigit (c : UInt8) : Bool := ch '0' ≤ c && c ≤ ch '9'

def isAlpha (c : UInt8) : Bool := ch 'a' ≤ c && c ≤ ch 'z' || ch 'A' ≤ c && c ≤ ch 'Z'

def isNameChar (c : UInt8) : Bool := c == ch '_' || isAlpha c || isDigit c

def wordAddLit (w : List Part) (t : List Tagged) (quoted : Bool) : List Part :=
  if t = [] then w
  else
    match w.getLast? with
    | some (.lit q text) =>
      if q = quoted then w.dropLast ++ [.lit q (text ++ t)] else w ++ [.lit quoted t]
    | _ => w ++ [.lit quoted t]

def wordAddPart (w : List Part) : Part → List Part
  | .lit quoted text => wordAddLit w text quoted
  | .exp kind quoted body => w ++ [.exp kind quoted body]

/-- A quoted run that left no part behind it marks a word whose first part is empty. -/
def markQuoted (before : ℕ) (w : List Part) : List Part :=
  match w with
  | .lit q [] :: rest => if w.length = before then .lit true [] :: rest else .lit q [] :: rest
  | w => w

def ahead {α : Type} (t : List α) (r : List α × Text) : List α × Text := (t ++ r.1, r.2)

@[simp] theorem ahead_snd {α : Type} (t : List α) (r : List α × Text) : (ahead t r).2 = r.2 := rfl

@[simp] theorem ahead_fst {α : Type} (t : List α) (r : List α × Text) :
    (ahead t r).1 = t ++ r.1 := rfl

def readQuotedRaw (e : UInt8) (s : Text) : Text × Text :=
  match s with
  | [] => ([], [])
  | c :: s =>
    if c = ch '\\' ∧ e = ch '"' then
      match s with
      | [] => ([c], [])
      | n :: s => ahead [c, n] (readQuotedRaw e s)
    else if c = e then ([], s)
    else ahead [c] (readQuotedRaw e s)
termination_by s.length

def readInnerTick (s : Text) : Text × Text :=
  match s with
  | [] => ([], [])
  | b :: s =>
    if b = ch '\\' then
      match s with
      | [] => ([b], [])
      | n :: s => ahead [b, n] (readInnerTick s)
    else if b = ch '`' then ([b], s)
    else ahead [b] (readInnerTick s)
termination_by s.length

theorem readQuotedRaw_length_le (e : UInt8) (s : Text) :
    (readQuotedRaw e s).2.length ≤ s.length := by
  fun_induction readQuotedRaw e s <;> simp only [ahead_snd, length_cons] <;>
    omega

theorem readInnerTick_length_le (s : Text) : (readInnerTick s).2.length ≤ s.length := by
  fun_induction readInnerTick s <;> simp only [ahead_snd, length_cons] <;>
    omega

def readCmdsub (depth : ℕ) (s : Text) : Text × Text :=
  match s with
  | [] => ([], [])
  | c :: s =>
    if c = ch '\'' ∨ c = ch '"' then
      ahead (c :: (readQuotedRaw c s).1 ++ [c]) (readCmdsub depth (readQuotedRaw c s).2)
    else if c = ch '\\' then
      match s with
      | [] => ([c], [])
      | n :: s => ahead [c, n] (readCmdsub depth s)
    else if c = ch '`' then
      ahead (c :: (readInnerTick s).1) (readCmdsub depth (readInnerTick s).2)
    else if c = ch '(' then
      ahead [c] (readCmdsub (depth + 1) s)
    else if c = ch ')' then
      if depth - 1 = 0 then ([], s)
      else ahead [c] (readCmdsub (depth - 1) s)
    else ahead [c] (readCmdsub depth s)
termination_by s.length
decreasing_by
  all_goals simp only [length_cons]
  all_goals first
    | omega
    | exact Nat.lt_succ_of_le (readQuotedRaw_length_le _ _)
    | exact Nat.lt_succ_of_le (readInnerTick_length_le _)

/-- Behind a backtick. A backslash is dropped, and a newline ends it too. -/
def readBacktick (s : Text) : Text × Text :=
  match s with
  | [] => ([], [])
  | c :: s =>
    if c = ch '\n' then ([], s)
    else if c = ch '\\' then
      match s with
      | [] => ([], [])
      | n :: s =>
        ahead [n] (readBacktick s)
    else if c = ch '`' then ([], s)
    else ahead [c] (readBacktick s)
termination_by s.length

def readBrace (depth : ℕ) (s : Text) : Text × Text :=
  match s with
  | [] => ([], [])
  | c :: s =>
    if c = ch '\'' ∨ c = ch '"' then
      ahead (c :: (readQuotedRaw c s).1 ++ [c]) (readBrace depth (readQuotedRaw c s).2)
    else if c = ch '\\' then
      match s with
      | [] => ([c], [])
      | n :: s => ahead [c, n] (readBrace depth s)
    else if c = ch '\x7b' then
      ahead [c] (readBrace (depth + 1) s)
    else if c = ch '\x7d' then
      if depth = 0 then ([], s)
      else ahead [c] (readBrace (depth - 1) s)
    else ahead [c] (readBrace depth s)
termination_by s.length
decreasing_by
  all_goals simp only [length_cons]
  all_goals first
    | omega
    | exact Nat.lt_succ_of_le (readQuotedRaw_length_le _ _)

def readArith (depth : ℕ) (s : Text) : Text × Text :=
  match s with
  | [] => ([], [])
  | c :: s =>
    if c = ch '\'' ∨ c = ch '"' then
      ahead (readQuotedRaw c s).1 (readArith depth (readQuotedRaw c s).2)
    else if c = ch '(' then
      ahead [c] (readArith (depth + 1) s)
    else if c = ch ')' then
      if depth = 0 ∧ s.head? = some (ch ')') then ([], s.tail)
      else ahead [c] (readArith (depth - 1) s)
    else ahead [c] (readArith depth s)
termination_by s.length
decreasing_by
  all_goals simp only [length_cons]
  all_goals first
    | omega
    | exact Nat.lt_succ_of_le (readQuotedRaw_length_le _ _)

def hexDigit (c : UInt8) : Option ℕ :=
  if isDigit c then some (c.toNat - 48)
  else if ch 'a' ≤ c ∧ c ≤ ch 'f' then some (c.toNat - 97 + 10)
  else if ch 'A' ≤ c ∧ c ≤ ch 'F' then some (c.toNat - 65 + 10)
  else none

def octDigit (c : UInt8) : Option ℕ :=
  if ch '0' ≤ c ∧ c ≤ ch '7' then some (c.toNat - 48) else none

def readDigits (digit : UInt8 → Option ℕ) (base : ℕ) : ℕ → ℕ → Text → ℕ × Text
  | 0, v, s => (v, s)
  | _ + 1, v, [] => (v, [])
  | n + 1, v, c :: s =>
    match digit c with
    | some d => readDigits digit base n (v * base + d) s
    | none => (v, c :: s)

def escapes : List (UInt8 × UInt8) :=
  [(ch 'a', 7), (ch 'b', 8), (ch 'e', 27), (ch 'E', 27), (ch 'f', 12), (ch 'n', 10), (ch 'r', 13),
    (ch 't', 9), (ch 'v', 11)]

def ansiCEscape : Text → Text × Text
  | [] => ([], [])
  | c :: s =>
    match escapes.lookup c with
    | some d => ([d], s)
    | none =>
      if c = ch '\n' then ([], s)
      else if c = ch 'x' then
        if (s.head?.bind hexDigit).isSome then
          ([UInt8.ofNat (readDigits hexDigit 16 2 0 s).1], (readDigits hexDigit 16 2 0 s).2)
        else ([c], s)
      else
        match octDigit c with
        | some d => ([UInt8.ofNat (readDigits octDigit 8 2 d s).1], (readDigits octDigit 8 2 d s).2)
        | none => ([c], s)

theorem readDigits_length_le (digit : UInt8 → Option ℕ) (base n v : ℕ) (s : Text) :
    (readDigits digit base n v s).2.length ≤ s.length := by
  fun_induction readDigits digit base n v s with
  | case1 | case2 | case4 => exact le_rfl
  | case3 _ _ _ _ _ _ ih => exact ih.trans (le_succ _)

theorem ansiCEscape_length_le (s : Text) : (ansiCEscape s).2.length ≤ s.length := by
  unfold ansiCEscape
  split
  · exact le_rfl
  next c s =>
  have hhex := readDigits_length_le hexDigit 16 2 0 s
  split
  · simp
  split_ifs
  · simp
  · simp only [length_cons]
    omega
  · simp
  split
  · next d _ =>
    have hoct := readDigits_length_le octDigit 8 2 d s
    simp only [length_cons]
    omega
  · simp

def readLiteralBody (s : Text) : Text × Text :=
  match s with
  | [] => ([], [])
  | c :: s =>
    if c = ch '\\' then
      ahead (ansiCEscape s).1 (readLiteralBody (ansiCEscape s).2)
    else if c = ch '\'' then ([], s)
    else ahead [c] (readLiteralBody s)
termination_by s.length
decreasing_by
  · exact Nat.lt_succ_of_le (ansiCEscape_length_le s)
  · simp

def skipFile (n : UInt8) (s : Text) : Text :=
  if n = ch ')' then s
  else if n = ch '\n' then s.tail
  else
    match s with
    | [] => []
    | n' :: s => skipFile n' s

def readFileName : Text → Text × Text
  | [] => ([], [])
  | n :: s =>
    if isBlank n ∨ n = ch '\n' then ([], skipFile n s)
    else if n = ch ')' then ([], s)
    else ahead [n] (readFileName s)

theorem readCmdsub_length_le (depth : ℕ) (s : Text) : (readCmdsub depth s).2.length ≤ s.length := by
  fun_induction readCmdsub depth s with
  | case1 => exact le_rfl
  | case2 depth c s _ ih =>
    have hq := readQuotedRaw_length_le c s
    simp only [ahead_snd, length_cons]
    omega
  | case5 depth s _ _ ih =>
    have hq := readInnerTick_length_le s
    simp only [ahead_snd, length_cons]
    omega
  | _ => simp only [ahead_snd, length_cons]; omega

theorem readBacktick_length_le (s : Text) : (readBacktick s).2.length ≤ s.length := by
  fun_induction readBacktick s <;> simp only [ahead_snd, length_cons] <;>
    omega

theorem readBrace_length_le (depth : ℕ) (s : Text) : (readBrace depth s).2.length ≤ s.length := by
  fun_induction readBrace depth s with
  | case2 depth c s _ ih =>
    have hq := readQuotedRaw_length_le c s
    simp only [ahead_snd, length_cons]
    omega
  | _ => simp only [ahead_snd, length_cons]; omega

theorem readArith_length_le (depth : ℕ) (s : Text) : (readArith depth s).2.length ≤ s.length := by
  fun_induction readArith depth s with
  | case2 depth c s _ ih =>
    have hq := readQuotedRaw_length_le c s
    simp only [ahead_snd, length_cons]
    omega
  | case4 depth s =>
    simp only [length_tail, length_cons]
    omega
  | _ => simp only [ahead_snd, length_cons]; omega

theorem readLiteralBody_length_le (s : Text) : (readLiteralBody s).2.length ≤ s.length := by
  fun_induction readLiteralBody s with
  | case2 s ih =>
    have ha := ansiCEscape_length_le s
    simp only [ahead_snd, length_cons]
    omega
  | _ => simp only [ahead_snd, length_cons]; omega

theorem skipFile_length_le (n : UInt8) (s : Text) : (skipFile n s).length ≤ s.length := by
  induction s generalizing n with
  | nil =>
    unfold skipFile
    split_ifs <;> simp
  | cons n' s ih =>
    unfold skipFile
    split_ifs
    · exact le_rfl
    · simp
    · exact (ih n').trans (by simp)

theorem readFileName_length_le (s : Text) : (readFileName s).2.length ≤ s.length := by
  induction s with
  | nil => exact le_rfl
  | cons n s ih =>
    have hskip := skipFile_length_le n s
    unfold readFileName
    split_ifs <;> simp only [ahead_snd, length_cons] <;> omega

def specialNames : Text := [ch '?', ch '#', ch '@', ch '*', ch '-', ch '$', ch '!']

def readParen (quoted : Bool) (s : Text) : Part × Text :=
  if s.head? = some (ch '(') then
    (.exp .arith quoted (readArith 0 s.tail).1, (readArith 0 s.tail).2)
  else if s.head? = some (ch '<') ∧ s.tail.head? ≠ some (ch '(') then
    let t := s.tail.dropWhile fun c => isBlank c || c == ch '\n'
    (.exp .file quoted (readFileName t).1, (readFileName t).2)
  else (.exp .cmdsub quoted (readCmdsub 1 s).1, (readCmdsub 1 s).2)

def readDollar (quoted : Bool) (s : Text) : Part × Text :=
  match s with
  | [] => (.lit quoted [(ch '$', quoted)], [])
  | c :: t =>
    if c = ch '(' then readParen quoted t
    else if c = ch '\x7b' then (.exp .brace quoted (readBrace 0 t).1, (readBrace 0 t).2)
    else if c = ch '\'' then
      (.lit true ((readLiteralBody t).1.map fun b => (b, true)), (readLiteralBody t).2)
    else if isNameChar c ∧ ¬isDigit c then
      (.exp .var quoted (s.takeWhile isNameChar), s.dropWhile isNameChar)
    else if isDigit c ∨ c ∈ specialNames then (.exp .var quoted [c], t)
    else (.lit quoted [(ch '$', quoted)], s)

theorem length_dropWhile_le (p : UInt8 → Bool) (s : Text) : (s.dropWhile p).length ≤ s.length :=
  (dropWhile_sublist p).length_le

theorem readParen_length_le (quoted : Bool) (s : Text) :
    (readParen quoted s).2.length ≤ s.length := by
  have htail : s.tail.length ≤ s.length := by simp
  unfold readParen
  split_ifs
  · exact (readArith_length_le 0 s.tail).trans htail
  · exact (readFileName_length_le _).trans ((length_dropWhile_le _ _).trans htail)
  · exact readCmdsub_length_le 1 s

theorem readDollar_length_le (quoted : Bool) (s : Text) :
    (readDollar quoted s).2.length ≤ s.length := by
  unfold readDollar
  split
  · exact le_rfl
  next c t =>
  have hparen := readParen_length_le quoted t
  have hbrace := readBrace_length_le 0 t
  have hbody := readLiteralBody_length_le t
  split_ifs
  · exact hparen.trans (le_succ _)
  · exact hbrace.trans (le_succ _)
  · exact hbody.trans (le_succ _)
  · exact length_dropWhile_le _ _
  · simp
  · exact le_rfl

def readSingle : Text → Text × Text
  | [] => ([], [])
  | c :: s => if c = ch '\'' then ([], s) else ahead [c] (readSingle s)

def doubleEscape (n : UInt8) : Text :=
  if n = ch '\n' then []
  else if n = ch '"' ∨ n = ch '\\' ∨ n = ch '$' ∨ n = ch '`' then [n]
  else [ch '\\', n]

def doubleLoop (s : Text) (w : List Part) (lit : List Tagged) : List Part × List Tagged × Text :=
  match s with
  | [] => (w, lit, [])
  | q :: s =>
    if q = ch '"' then (w, lit, s)
    else if q = ch '\\' then
      match s with
      | [] => (w, lit, [])
      | n :: s => doubleLoop s w (lit ++ (doubleEscape n).map fun b => (b, true))
    else if q = ch '$' then
      doubleLoop (readDollar true s).2
        (wordAddPart (wordAddLit w lit true) (readDollar true s).1) []
    else if q = ch '`' then
      -- the pending text stays pending
      doubleLoop (readBacktick s).2 (wordAddPart w (.exp .cmdsub true (readBacktick s).1)) lit
    else doubleLoop s w (lit ++ [(q, true)])
termination_by s.length
decreasing_by
  · simp only [length_cons]
    omega
  · exact Nat.lt_succ_of_le (readDollar_length_le true s)
  · exact Nat.lt_succ_of_le (readBacktick_length_le s)
  · simp

theorem readSingle_length_le (s : Text) : (readSingle s).2.length ≤ s.length := by
  induction s with
  | nil => exact le_rfl
  | cons c s ih =>
    unfold readSingle
    split_ifs
    · simp
    · exact ih.trans (le_succ _)

theorem doubleLoop_length_le (s : Text) (w : List Part) (lit : List Tagged) :
    (doubleLoop s w lit).2.2.length ≤ s.length := by
  fun_induction doubleLoop s w lit with
  | case5 w lit s _ _ ih =>
    exact ih.trans ((readDollar_length_le true s).trans (le_succ _))
  | case6 w lit s _ _ _ ih =>
    exact ih.trans ((readBacktick_length_le s).trans (le_succ _))
  | _ => simp only [length_cons]; omega

def closeQuotes (before : ℕ) (w : List Part) (lit : List Tagged) : List Part :=
  markQuoted before (wordAddLit w lit true)

def singleQuotes (run : Text) (w : List Part) : List Part :=
  closeQuotes w.length w (run.map fun b => (b, true))

def doubleQuotes (s : Text) (w : List Part) : List Part :=
  closeQuotes w.length (doubleLoop s w []).1 (doubleLoop s w []).2.1

def lexLoop (s : Text) (w : List Part) (lit : List Tagged) : List Part × Text :=
  match s with
  | [] => (wordAddLit w lit false, [])
  | c :: s =>
    if isMeta c ∨ c = ch '\n' then (wordAddLit w lit false, c :: s)
    else if isBlank c then (wordAddLit w lit false, s)
    else if c = ch '\\' then
      match s with
      | [] => (wordAddLit w lit false, [])
      | n :: s => lexLoop s w (lit ++ [(n, true)])
    else if c = ch '\'' then
      lexLoop (readSingle s).2 (singleQuotes (readSingle s).1 (wordAddLit w lit false)) []
    else if c = ch '"' then
      lexLoop (doubleLoop s (wordAddLit w lit false) []).2.2
        (doubleQuotes s (wordAddLit w lit false)) []
    else if c = ch '$' then
      lexLoop (readDollar false s).2
        (wordAddPart (wordAddLit w lit false) (readDollar false s).1) []
    else if c = ch '`' then
      lexLoop (readBacktick s).2 (wordAddPart w (.exp .cmdsub false (readBacktick s).1)) lit
    else lexLoop s w (lit ++ [(c, false)])
termination_by s.length
decreasing_by
  · simp only [length_cons]
    omega
  · exact Nat.lt_succ_of_le (readSingle_length_le s)
  · exact Nat.lt_succ_of_le (doubleLoop_length_le s _ _)
  · exact Nat.lt_succ_of_le (readDollar_length_le false s)
  · exact Nat.lt_succ_of_le (readBacktick_length_le s)
  · simp

def tildeNext : Text → Bool
  | [] => true
  | c :: _ => c == ch '_' || isAlpha c || c == ch '/' || isBlank c || isMeta c || c == ch '\n'

def userChar (c : UInt8) : Bool :=
  !(c == ch '/' || isBlank c || isMeta c || c == ch '\n')

def lexTilde (s : Text) : List Part × Text :=
  match s with
  | [] => ([], [])
  | c :: t =>
    if c = ch '~' ∧ tildeNext t then
      ([.exp .tilde false (t.takeWhile userChar)], t.dropWhile userChar)
    else ([], c :: t)

def lexWord (s : Text) : List Part × Text :=
  lexLoop (lexTilde s).2 (.lit false [] :: (lexTilde s).1) []

end Vnu.Vash
