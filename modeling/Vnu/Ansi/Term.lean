import Mathlib.Data.Int.Notation
import Mathlib.Logic.Function.Basic
import Mathlib.Logic.Function.Iterate

/-!
The terminal behind VNU's consoles: a grid of cells, a cursor, and a parser for escape sequences. A
log keeps the writes with the row each was meant for.
-/
namespace Vnu.Ansi

open List

structure Grid where
  rows : ℕ
  cols : ℕ
  rows_pos : 0 < rows
  cols_pos : 0 < cols

structure Term where
  grid : Grid
  /-- The character in the low byte, the attribute above it. -/
  cells : ℕ → UInt16
  row : ℕ := 0
  col : ℕ := 0
  attr : UInt8 := 0x07
  fg : UInt8 := 7
  bg : UInt8 := 0
  bright : Bool := false
  blink : Bool := false
  /-- An escape is pending. -/
  esc : Bool := false
  /-- A control sequence is being read. -/
  csi : Bool := false
  /-- The parameters read so far, at most eight, and the one being read. -/
  params : List UInt8 := []
  cur : ℕ := 0
  bsErase : Bool
  dirty : UInt32 := 0
  cursorMoved : Bool := true
  /-- The row and the index of every cell that was written. -/
  log : List (ℕ × ℕ) := []

namespace Term

variable (t : Term)

def allRows : UInt32 :=
  if 32 ≤ t.grid.rows then 0xFFFFFFFF else ((1 : UInt32) <<< t.grid.rows.toUInt32) - 1

def mark (row : ℕ) : Term :=
  if row < t.grid.rows ∧ row < 32 then
    { t with dirty := t.dirty ||| (1 : UInt32) <<< row.toUInt32 }
  else t

def cellOf (ch : UInt8) : UInt16 := ch.toUInt16 ||| t.attr.toUInt16 <<< 8

def blank : UInt16 := t.cellOf 32

def put (row col : ℕ) (v : UInt16) : Term :=
  { t with
    cells := Function.update t.cells (row * t.grid.cols + col) v
    log := t.log ++ [(row, row * t.grid.cols + col)] }

def fill (row start count : ℕ) : Term :=
  (range' start count).foldl (fun u c => u.put row c t.blank) t

def fillRows (start count : ℕ) : Term :=
  (range' start count).foldl (fun u r => u.fill r 0 u.grid.cols) t

def setCursor (row col : ℤ) : Term :=
  { t with
    row := if row < 0 then 0 else if t.grid.rows ≤ row then t.grid.rows - 1 else row.toNat
    col := if col < 0 then 0 else if t.grid.cols ≤ col then t.grid.cols - 1 else col.toNat
    cursorMoved := true }

def ansiToPc (an : UInt8) : UInt8 := [0, 4, 2, 6, 1, 5, 3, 7].getD (an &&& 7).toNat 0

def sgrOne (p : UInt8) : Term :=
  if p = 0 then { t with fg := 7, bg := 0, bright := false, blink := false }
  else if p = 1 then { t with bright := true }
  else if p = 5 then { t with blink := true }
  else if p = 7 then { t with fg := t.bg, bg := t.fg }
  else if 30 ≤ p ∧ p ≤ 37 then { t with bright := false, fg := ansiToPc (p - 30) }
  else if p = 39 then { t with fg := 7, bright := false }
  else if 40 ≤ p ∧ p ≤ 47 then { t with bg := ansiToPc (p - 40) }
  else if p = 49 then { t with bg := 0 }
  else if 90 ≤ p ∧ p ≤ 97 then { t with bright := true, fg := ansiToPc (p - 90) }
  else t

def sgr (ps : List UInt8) : Term :=
  let u := ps.foldl sgrOne t
  { u with
    attr :=
      (u.fg + if u.bright then (8 : UInt8) else 0) ||| u.bg <<< 4 |||
        if u.blink then (0x80 : UInt8) else 0 }

/-- The loop of `term_erase_line` runs to its last column inclusive. -/
def eraseLine (mode : UInt8) : Term :=
  let u :=
    if mode = 0 then t.fill t.row t.col (t.grid.cols - t.col)
    else if mode = 1 then t.fill t.row 0 (t.col + 1)
    else t.fill t.row 0 t.grid.cols
  u.mark t.row

def eraseDisplay (mode : UInt8) : Term :=
  let u :=
    if mode = 2 ∨ mode = 3 then { t.fillRows 0 t.grid.rows with row := 0, col := 0 }
    else if mode = 1 then (t.fillRows 0 t.row).fill t.row 0 (min (t.col + 1) t.grid.cols)
    else
      (t.fill t.row t.col (t.grid.cols - t.col)).fillRows (t.row + 1)
        (t.grid.rows - (t.row + 1))
  { u with dirty := u.allRows, cursorMoved := true }

def scrollUp : Term :=
  let moved := (range' 1 (t.grid.rows - 1)).foldl (fun u r =>
    (range u.grid.cols).foldl
      (fun u c => u.put (r - 1) c (u.cells (r * u.grid.cols + c))) u) t
  let u := moved.fill (t.grid.rows - 1) 0 t.grid.cols
  { u with dirty := u.allRows }

def param (i : ℕ) (dflt : ℕ) : ℕ :=
  match t.params.getD i 0 with
  | 0 => dflt
  | p => p.toNat

def pushParam : Term :=
  { t with
    params := if t.params.length < 8 then t.params ++ [t.cur.toUInt8] else t.params
    cur := 0 }

def command (final : UInt8) : Term :=
  if final = 109 then t.sgr t.params  -- m
  else if final = 72 ∨ final = 102 then  -- H, f
    t.setCursor (t.param 0 1 - 1 : ℤ) (t.param 1 1 - 1 : ℤ)
  else if final = 65 then t.setCursor (t.row - t.param 0 1 : ℤ) t.col  -- A
  else if final = 66 then t.setCursor (t.row + t.param 0 1 : ℤ) t.col  -- B
  else if final = 67 then t.setCursor t.row (t.col + t.param 0 1 : ℤ)  -- C
  else if final = 68 then t.setCursor t.row (t.col - t.param 0 1 : ℤ)  -- D
  else if final = 71 then t.setCursor t.row (t.param 0 1 - 1 : ℤ)  -- G
  else if final = 100 then t.setCursor (t.param 0 1 - 1 : ℤ) t.col  -- d
  else if final = 74 then  -- J
    t.eraseDisplay (if t.params = [] then 2 else (t.param 0 0).toUInt8)
  else if final = 75 then t.eraseLine (t.param 0 0).toUInt8  -- K
  else t

def csiFinal (final : UInt8) : Term := { t.pushParam with csi := false }.command final

def nextRow : Term :=
  if t.grid.rows ≤ t.row + 1 then { t.scrollUp with row := t.grid.rows - 1 }
  else { t with row := t.row + 1 }

def print (ch : UInt8) : Term :=
  let u := if t.grid.cols ≤ t.col then { t with col := 0 }.nextRow else t
  let v := (u.put u.row u.col (u.cellOf ch)).mark u.row
  { v with col := v.col + 1, cursorMoved := true }

def eraseHere : Term := if t.bsErase then (t.put t.row t.col t.blank).mark t.row else t

def backspace : Term :=
  let u :=
    if 0 < t.col then { t with col := t.col - 1 }.eraseHere
    else if 0 < t.row then { t with row := t.row - 1, col := t.grid.cols - 1 }.eraseHere
    else t
  { u with cursorMoved := true }

def csiByte (ch : UInt8) : Term :=
  let u :=
    if 48 ≤ ch ∧ ch ≤ 57 then { t with cur := min (t.cur * 10 + (ch - 48).toNat) 255 }
    else if ch = 59 then t.pushParam
    else if ch = 0x1B then { t with esc := true, csi := false }
    else if 0x40 ≤ ch ∧ ch ≤ 0x7E then t.csiFinal ch
    else { t with csi := false }
  { u with cursorMoved := true }

def escByte (ch : UInt8) : Term :=
  if ch = 91 then { t with esc := false, csi := true, params := [], cur := 0, cursorMoved := true }
  else { t with esc := false, cursorMoved := true }

def newline : Term :=
  let u := { t with col := 0 }.nextRow
  { u with cursorMoved := true }

def textByte (ch : UInt8) : Term :=
  if ch = 0x1B then { t with esc := true, cursorMoved := true }
  else if ch = 10 then t.newline
  else if ch = 13 then { t with col := 0, cursorMoved := true }
  else if ch = 8 then t.backspace
  else if ch = 9 then (fun u : Term => u.print 32)^[4 - t.col % 4] t
  else t.print ch

def putc (ch : UInt8) : Term :=
  if t.esc then t.escByte ch else if t.csi then t.csiByte ch else t.textByte ch

end Term

def init (grid : Grid) (cells : ℕ → UInt16) (bsErase : Bool) : Term :=
  { grid := grid, cells := cells, bsErase := bsErase }

def write (t : Term) (bytes : List UInt8) : Term := bytes.foldl Term.putc t

end Vnu.Ansi
