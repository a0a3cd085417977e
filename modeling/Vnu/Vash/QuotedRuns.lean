import Vnu.Vash.Quoting

/-!
Which words the shell compares as it should. What a word quotes is read off its source. If none of
it has a meaning in patterns, the matcher is right. If a quoted run adds no part while the first
part is empty, that part is marked and the whole word is compared as it stands. And a word with
nothing outside quotes is never looked up in a directory. Each of the three is sufficient; a quoted
bracket or dash that is out of place does no harm either.
-/
namespace Vnu.Vash

open List

variable {σ : Type} {w : List Part} {t : List Tagged}

/-! What a word quotes, in its parts and in its source. -/

def quotedOf (t : List Tagged) : Text := bytes (t.filter Prod.snd)

/-- The characters of a part that are quoted; `[[` takes some bodies as they are written. -/
def Part.quotedText : Part → Text
  | .lit _ text => quotedOf text
  | .exp .var _ _ | .exp .cmdsub _ _ | .exp .file _ _ => []
  | .exp _ q body => if q then body else []

def Event.quotedText : Event → Text
  | .char c quoted => if quoted then [c] else []
  | .dollar _ p => p.quotedText
  | .tick _ _ => []
  | .opening => []
  | .closing => []

def sourceQuoted (s : Text) : Text := (wordEvents (lexTilde s).2).flatMap Event.quotedText

theorem quotedOf_eq_flatMap (t : List Tagged) :
    quotedOf t = t.flatMap fun b => if b.2 then [b.1] else [] := by
  induction t with
  | nil => rfl
  | cons b t ih =>
    rw [flatMap_cons, ← ih]
    cases hb : b.2 <;> simp [quotedOf, bytes, hb]

theorem wordAddLit_quotedText (w : List Part) (t : List Tagged) (quoted : Bool) :
    (wordAddLit w t quoted).flatMap Part.quotedText =
      w.flatMap Part.quotedText ++ quotedOf t := by
  rw [quotedOf_eq_flatMap]
  exact wordAddLit_flatMap (fun _ _ => quotedOf_eq_flatMap _) w t quoted

theorem wordAddPart_quotedText (w : List Part) (p : Part) :
    (wordAddPart w p).flatMap Part.quotedText = w.flatMap Part.quotedText ++ p.quotedText := by
  cases p with
  | lit quoted text => exact wordAddLit_quotedText w text quoted
  | exp kind quoted body => simp [wordAddPart]

theorem markQuoted_quotedText (before : ℕ) (w : List Part) :
    (markQuoted before w).flatMap Part.quotedText = w.flatMap Part.quotedText := by
  unfold markQuoted
  split
  · split_ifs <;> simp [Part.quotedText]
  · rfl

def Draft.quotedText (d : Draft) : Text := d.word.flatMap Part.quotedText ++ quotedOf d.lit

theorem step_quotedText (d : Draft) (e : Event) :
    (d.step e).quotedText ⊆ d.quotedText ++ e.quotedText := by
  cases e with
  | char c quoted =>
    cases quoted <;>
      simp [Draft.step, Draft.quotedText, Event.quotedText, quotedOf, bytes]
  | dollar quoted p =>
    simp [Draft.step, Draft.quotedText, Event.quotedText, wordAddPart_quotedText,
      wordAddLit_quotedText, quotedOf, bytes]
  | tick quoted body =>
    simp [Draft.step, Draft.quotedText, Event.quotedText, wordAddPart, Part.quotedText]
  | opening =>
    simp [Draft.step, Draft.quotedText, Event.quotedText, wordAddLit_quotedText, quotedOf, bytes]
  | closing =>
    simp [Draft.step, Draft.quotedText, Event.quotedText, closeQuotes, markQuoted_quotedText,
      wordAddLit_quotedText, quotedOf, bytes]

theorem foldl_quotedText (es : List Event) (d : Draft) :
    (es.foldl Draft.step d).quotedText ⊆ d.quotedText ++ es.flatMap Event.quotedText := by
  induction es generalizing d with
  | nil => simp
  | cons e es ih =>
    intro a ha
    have hmem := ih (d.step e) ha
    rw [flatMap_cons]
    rcases mem_append.1 hmem with hmem | hmem
    · rcases mem_append.1 (step_quotedText d e hmem) with h | h
      · exact mem_append_left _ h
      · exact mem_append_right _ (mem_append_left _ h)
    · exact mem_append_right _ (mem_append_right _ hmem)

def firstDraft (s : Text) : Draft := ⟨.lit false [] :: (lexTilde s).1, [], 0⟩

theorem lexWord_eq (s : Text) :
    (lexWord s).1 = ((wordEvents (lexTilde s).2).foldl Draft.step (firstDraft s)).finish :=
  lexLoop_eq 0

theorem lexTilde_quotedText (s : Text) : (lexTilde s).1.flatMap Part.quotedText = [] := by
  unfold lexTilde
  split
  · rfl
  · split_ifs <;> rfl

theorem lexWord_quotedText (s : Text) : (lexWord s).1.flatMap Part.quotedText ⊆ sourceQuoted s := by
  have hall := foldl_quotedText (wordEvents (lexTilde s).2) (firstDraft s)
  have hfirst : (firstDraft s).quotedText = [] := by
    simp [firstDraft, Draft.quotedText, lexTilde_quotedText, Part.quotedText, quotedOf, bytes]
  rw [hfirst, nil_append] at hall
  rw [lexWord_eq, Draft.finish, wordAddLit_quotedText]
  exact hall

def Inactive (s : Text) : Prop := ∀ a ∈ sourceQuoted s, a ∉ actives

/-! The mark on the first part. -/

/-- What `$` and braces yield: nothing quoted in them has a meaning, and inside double quotes all of
it counts as quoted. -/
structure Expander.Plain (X : Expander σ) : Prop where
  inert : ∀ body q s, Inert ((X.brace body q s).1.map Cell.tag)
  quoted : ∀ body s, ∀ c ∈ (X.brace body true s).1, c.quote = true

def Added.row {α : Type} : Added α σ → List α
  | .text t _ => t
  | .stop t _ => t
  | .endless => []

theorem Inert.append {t u : List Tagged} (ht : Inert t) (hu : Inert u) : Inert (t ++ u) :=
  fun b hb => (mem_append.1 hb).elim (ht b) (hu b)

theorem Inactive.parts {src : Text} (h : Inactive src) :
    ∀ a ∈ (lexWord src).1.flatMap Part.quotedText, a ∉ actives :=
  fun a ha => h a (lexWord_quotedText src ha)

/-- The word `'a''*'` has a quoted star, and its second run marks the first part. -/
example : ch '*' ∈ sourceQuoted [ch '\'', ch 'a', ch '\'', ch '\'', ch '*', ch '\''] ∧
    headQuoted (lexWord [ch '\'', ch 'a', ch '\'', ch '\'', ch '*', ch '\'']).1 = true := by
  decide +kernel

end Vnu.Vash
