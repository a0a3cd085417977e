import Vnu.Ansi.Term
import Vnu.Lib.History

/-!
Which cells the terminal writes. Every write but one kind falls into the row it is meant for:
erasing a line up to the cursor also takes a column one past the last.
-/
namespace Vnu.Ansi

open Lib List Nat

variable {row col : ℕ} {t u v : Term} {c : Prop}

def Grid.Owns (g : Grid) (w : ℕ × ℕ) : Prop := w.2 < g.rows * g.cols ∧ w.2 / g.cols = w.1

theorem Grid.owns_iff (g : Grid) (hrow : row < g.rows) :
    g.Owns (row, row * g.cols + col) ↔ col < g.cols := by
  have hpos := g.cols_pos
  constructor
  · rintro ⟨-, hdiv⟩
    have hsum : (row * g.cols + col) / g.cols = row + col / g.cols := by
      rw [Nat.add_comm, Nat.add_mul_div_right _ _ hpos, Nat.add_comm]
    rw [hsum] at hdiv
    exact (Nat.div_eq_zero_iff_lt hpos).mp (by omega)
  · intro hcol
    constructor
    · calc row * g.cols + col < row * g.cols + g.cols := by omega
        _ = (row + 1) * g.cols := (Nat.succ_mul row g.cols).symm
        _ ≤ g.rows * g.cols := Nat.mul_le_mul_right _ hrow
    · show (row * g.cols + col) / g.cols = row
      rw [Nat.add_comm, Nat.add_mul_div_right _ _ hpos, Nat.div_eq_of_lt hcol, Nat.zero_add]

def Term.Clean (t : Term) : Prop := ∀ w ∈ t.log, t.grid.Owns w

def Term.CursorIn (t : Term) : Prop := t.row < t.grid.rows ∧ t.col ≤ t.grid.cols

/-- What was written between `t` and `u` went to the rows it was meant for. -/
structure Neat (t u : Term) : Prop where
  grid : u.grid = t.grid
  log : ∃ ws, u.log = t.log ++ ws ∧ ∀ w ∈ ws, t.grid.Owns w

theorem Neat.refl (t : Term) : Neat t t := ⟨rfl, [], by simp, nofun⟩

theorem Neat.trans (h : Neat t u) (h' : Neat u v) : Neat t v := by
  obtain ⟨hgrid, ws, hlog, hws⟩ := h
  obtain ⟨hgrid', ws', hlog', hws'⟩ := h'
  refine ⟨hgrid'.trans hgrid, ws ++ ws', by rw [hlog', hlog, append_assoc], fun w hw => ?_⟩
  rcases mem_append.mp hw with hw | hw
  · exact hws w hw
  · rw [← hgrid]
    exact hws' w hw

theorem Neat.of_same (hgrid : u.grid = t.grid) (hlog : u.log = t.log) : Neat t u :=
  ⟨hgrid, [], by simp [hlog], nofun⟩

theorem Neat.clean (h : Neat t u) (ht : t.Clean) : u.Clean := by
  obtain ⟨hgrid, ws, hlog, hws⟩ := h
  intro w hw
  rw [hlog] at hw
  rw [hgrid]
  rcases mem_append.mp hw with hw | hw
  · exact ht w hw
  · exact hws w hw

structure Draws (t u : Term) : Prop extends Neat t u where
  row : u.row = t.row
  col : u.col = t.col

theorem Draws.refl (t : Term) : Draws t t := ⟨Neat.refl t, rfl, rfl⟩

theorem Draws.trans (h : Draws t u) (h' : Draws u v) : Draws t v :=
  ⟨h.toNeat.trans h'.toNeat, h'.row.trans h.row, h'.col.trans h.col⟩

theorem Draws.cursorIn (h : Draws t u) (ht : t.CursorIn) : u.CursorIn := by
  unfold Term.CursorIn
  rw [h.grid, h.row, h.col]
  exact ht

theorem draws_ite [Decidable c] (hu : Draws t u) (hv : Draws t v) :
    Draws t (if c then u else v) := by
  split_ifs with hc
  · exact hu
  · exact hv

theorem neat_ite [Decidable c] (hu : Neat t u ∧ u.CursorIn) (hv : Neat t v ∧ v.CursorIn) :
    Neat t (if c then u else v) ∧ (if c then u else v).CursorIn := by
  split_ifs with hc
  · exact hu
  · exact hv

theorem draws_put (hrow : row < t.grid.rows) (hcol : col < t.grid.cols)
    (v : UInt16) : Draws t (t.put row col v) := by
  refine ⟨⟨rfl, [(row, row * t.grid.cols + col)], rfl, fun w hw => ?_⟩, rfl, rfl⟩
  rw [mem_singleton.mp hw]
  exact (t.grid.owns_iff hrow).mpr hcol

theorem draws_foldl {ι : Type} {f : Term → ι → Term} (xs : List ι)
    (hf : ∀ x ∈ xs, ∀ u, u.grid = t.grid → Draws u (f u x)) : Draws t (xs.foldl f t) := by
  induction xs generalizing t with
  | nil => exact Draws.refl t
  | cons x xs ih =>
    have hfirst := hf x mem_cons_self t rfl
    refine hfirst.trans (ih fun y hy u hu => ?_)
    exact hf y (mem_cons_of_mem x hy) u (hu.trans hfirst.grid)

theorem draws_fill (row start count : ℕ) (hrow : row < t.grid.rows)
    (hend : start + count ≤ t.grid.cols) : Draws t (t.fill row start count) := by
  refine draws_foldl _ fun c hc u hu => ?_
  have hc' := mem_range'_1.mp hc
  exact draws_put (by rw [hu]; exact hrow) (by rw [hu]; omega) _

theorem draws_fillRows (start count : ℕ) (hend : start + count ≤ t.grid.rows) :
    Draws t (t.fillRows start count) := by
  refine draws_foldl _ fun r hr u hu => ?_
  have hr' := mem_range'_1.mp hr
  exact draws_fill _ _ _ (by rw [hu]; omega) (by omega)

theorem draws_mark (t : Term) (row : ℕ) : Draws t (t.mark row) := by
  unfold Term.mark
  split_ifs
  · exact ⟨.of_same rfl rfl, rfl, rfl⟩
  · exact Draws.refl t

theorem draws_scrollUp (t : Term) : Draws t t.scrollUp := by
  have hpos := t.grid.rows_pos
  have hmoved : Draws t ((range' 1 (t.grid.rows - 1)).foldl (fun u r =>
      (range u.grid.cols).foldl
        (fun u c => u.put (r - 1) c (u.cells (r * u.grid.cols + c))) u) t) := by
    refine draws_foldl _ fun r hr u hu => draws_foldl _ fun c hc v hv => ?_
    have hr' := mem_range'_1.mp hr
    have hc' := mem_range.mp hc
    exact draws_put (by rw [hv, hu]; omega) (by rw [hv]; exact hc') _
  have hfill := draws_fill (t.grid.rows - 1) 0 t.grid.cols (by rw [hmoved.grid]; omega)
    (by rw [hmoved.grid]; omega)
  have hboth := hmoved.trans hfill
  exact ⟨⟨hboth.grid, hboth.log⟩, hboth.row, hboth.col⟩

theorem draws_sgr (t : Term) (ps : List UInt8) : Draws t (t.sgr ps) := by
  have hone : ∀ (u : Term) (p : UInt8), Draws u (u.sgrOne p) := by
    intro u p
    iterate 9 refine draws_ite ⟨.of_same rfl rfl, rfl, rfl⟩ ?_
    exact Draws.refl u
  have hall : Draws t (ps.foldl Term.sgrOne t) := draws_foldl ps fun p _ u _ => hone u p
  exact ⟨⟨hall.grid, hall.log⟩, hall.row, hall.col⟩

theorem setCursor_in (t : Term) (row col : ℤ) :
    Neat t (t.setCursor row col) ∧ (t.setCursor row col).CursorIn := by
  have hrows := t.grid.rows_pos
  refine ⟨.of_same rfl rfl, ?_⟩
  unfold Term.CursorIn Term.setCursor
  dsimp only
  split_ifs <;> omega

theorem nextRow_in (ht : t.CursorIn) :
    Neat t t.nextRow ∧ t.nextRow.CursorIn ∧ t.nextRow.col = t.col := by
  have hscroll := draws_scrollUp t
  obtain ⟨hrow, hcol⟩ := ht
  unfold Term.nextRow
  split_ifs with hlast
  · refine ⟨⟨hscroll.grid, hscroll.log⟩, ⟨?_, ?_⟩, hscroll.col⟩
    · show t.grid.rows - 1 < t.scrollUp.grid.rows
      rw [hscroll.grid]
      omega
    · show t.scrollUp.col ≤ t.scrollUp.grid.cols
      rw [hscroll.grid, hscroll.col]
      exact hcol
  · exact ⟨.of_same rfl rfl, ⟨not_le.mp hlast, hcol⟩, rfl⟩

theorem print_in (ht : t.CursorIn) (ch : UInt8) : Neat t (t.print ch) ∧ (t.print ch).CursorIn := by
  have hcols := t.grid.cols_pos
  -- the cursor leaves the column past the last one
  obtain ⟨u, hu, hwrap, hrow, hcol⟩ : ∃ u, (if t.grid.cols ≤ t.col then { t with col := 0 }.nextRow
      else t) = u ∧ Neat t u ∧ u.row < u.grid.rows ∧ u.col < u.grid.cols := by
    split_ifs with hend
    · have hzero : ({ t with col := 0 } : Term).CursorIn := ⟨ht.1, zero_le _⟩
      obtain ⟨hneat, hin, hc⟩ := nextRow_in hzero
      refine ⟨_, rfl, ⟨hneat.grid, hneat.log⟩, hin.1, ?_⟩
      rw [hc, hneat.grid]
      exact hcols
    · exact ⟨t, rfl, Neat.refl t, ht.1, not_le.mp hend⟩
  have hput := (draws_put hrow hcol (u.cellOf ch)).trans (draws_mark _ u.row)
  unfold Term.print
  rw [hu]
  refine ⟨hwrap.trans ⟨hput.grid, hput.log⟩, ?_, ?_⟩
  · show ((u.put u.row u.col (u.cellOf ch)).mark u.row).row < _
    rw [hput.row]
    rw [hput.grid]
    exact hrow
  · show ((u.put u.row u.col (u.cellOf ch)).mark u.row).col + 1 ≤
      ((u.put u.row u.col (u.cellOf ch)).mark u.row).grid.cols
    rw [hput.col, hput.grid]
    exact hcol

theorem tab_in (ht : t.CursorIn) (n : ℕ) :
    Neat t ((fun u : Term => u.print 32)^[n] t) ∧
      ((fun u : Term => u.print 32)^[n] t).CursorIn := by
  induction n with
  | zero => exact ⟨Neat.refl t, ht⟩
  | succ n ih =>
    rw [Function.iterate_succ_apply']
    obtain ⟨hneat, hin⟩ := print_in ih.2 32
    exact ⟨ih.1.trans hneat, hin⟩

theorem eraseHere_draws (hrow : t.row < t.grid.rows) (hcol : t.col < t.grid.cols) :
    Draws t t.eraseHere := by
  unfold Term.eraseHere
  split_ifs
  · exact (draws_put hrow hcol t.blank).trans (draws_mark _ t.row)
  · exact Draws.refl t

theorem backspace_in (ht : t.CursorIn) : Neat t t.backspace ∧ t.backspace.CursorIn := by
  have hcols := t.grid.cols_pos
  obtain ⟨hrow, hcol⟩ := ht
  unfold Term.backspace
  split_ifs with hleft hup
  · have hlt : t.col - 1 < t.grid.cols := by omega
    have hdraws := eraseHere_draws (t := { t with col := t.col - 1 }) hrow hlt
    exact ⟨⟨hdraws.grid, hdraws.log⟩, hdraws.cursorIn ⟨hrow, hlt.le⟩⟩
  · have hlt : t.row - 1 < t.grid.rows := by omega
    have hlast : t.grid.cols - 1 < t.grid.cols := by omega
    have hdraws := eraseHere_draws (t := { t with row := t.row - 1, col := t.grid.cols - 1 })
      hlt hlast
    exact ⟨⟨hdraws.grid, hdraws.log⟩, hdraws.cursorIn ⟨hlt, hlast.le⟩⟩
  · exact ⟨.of_same rfl rfl, hrow, hcol⟩

theorem eraseDisplay_in (ht : t.CursorIn) (mode : UInt8) :
    Neat t (t.eraseDisplay mode) ∧ (t.eraseDisplay mode).CursorIn := by
  obtain ⟨hrow, hcol⟩ := ht
  have hrows := t.grid.rows_pos
  unfold Term.eraseDisplay
  split_ifs
  · have hall : Draws t (t.fillRows 0 t.grid.rows) := draws_fillRows _ _ (by omega)
    refine ⟨⟨hall.grid, hall.log⟩, ?_, zero_le _⟩
    rw [hall.grid]
    exact hrows
  · have habove : Draws t (t.fillRows 0 t.row) := draws_fillRows _ _ (by omega)
    have hboth := habove.trans (draws_fill _ 0 (min (t.col + 1) t.grid.cols)
      (by rw [habove.grid]; exact hrow) (by rw [habove.grid]; omega))
    exact ⟨⟨hboth.grid, hboth.log⟩, hboth.cursorIn ⟨hrow, hcol⟩⟩
  · have hrest : Draws t (t.fill t.row t.col (t.grid.cols - t.col)) :=
      draws_fill _ _ _ hrow (by omega)
    have hboth := hrest.trans (draws_fillRows (t.row + 1)
      (t.grid.rows - (t.row + 1)) (by rw [hrest.grid]; omega))
    exact ⟨⟨hboth.grid, hboth.log⟩, hboth.cursorIn ⟨hrow, hcol⟩⟩

theorem log_fill (t : Term) (row start count : ℕ) :
    (t.fill row start count).grid = t.grid ∧ (t.fill row start count).row = t.row ∧
      (t.fill row start count).col = t.col ∧ (t.fill row start count).log = t.log ++
        (range' start count).map fun c => (row, row * t.grid.cols + c) := by
  have hall : ∀ (xs : List ℕ) (u : Term) (v : UInt16),
      (xs.foldl (fun u c => u.put row c v) u).grid = u.grid ∧
      (xs.foldl (fun u c => u.put row c v) u).row = u.row ∧
      (xs.foldl (fun u c => u.put row c v) u).col = u.col ∧
      (xs.foldl (fun u c => u.put row c v) u).log =
        u.log ++ xs.map fun c => (row, row * u.grid.cols + c) := by
    intro xs
    induction xs with
    | nil => intro u v; simp
    | cons x xs ih =>
      intro u v
      obtain ⟨hgrid, hrow, hcol, hlog⟩ := ih (u.put row x v) v
      refine ⟨hgrid, hrow, hcol, ?_⟩
      rw [foldl_cons, hlog]
      simp [Term.put]
  exact hall _ t t.blank

/-- The only erase that leaves the row is the one up to a cursor past the last column. -/
theorem eraseLine_exact (ht : t.CursorIn) (hclean : t.Clean) (mode : UInt8) :
    (t.eraseLine mode).CursorIn ∧
      ((t.eraseLine mode).Clean ↔ ¬ (mode = 1 ∧ t.col = t.grid.cols)) := by
  obtain ⟨hrow, hcol⟩ := ht
  have hneat : ∀ u, Draws t u → (u.mark t.row).CursorIn ∧ (u.mark t.row).Clean := by
    intro u hu
    have hboth := hu.trans (draws_mark u t.row)
    exact ⟨hboth.cursorIn ⟨hrow, hcol⟩, hboth.toNeat.clean hclean⟩
  unfold Term.eraseLine
  by_cases hmode : mode = 1
  · have hzero : ¬ mode = 0 := by
      rw [hmode]
      decide
    rw [if_neg hzero, if_pos hmode]
    by_cases hpast : t.col = t.grid.cols
    · obtain ⟨hgrid, hr, hc, hlog⟩ := log_fill t t.row 0 (t.col + 1)
      have hmark := draws_mark (t.fill t.row 0 (t.col + 1)) t.row
      constructor
      · apply hmark.cursorIn
        unfold Term.CursorIn
        rw [hgrid, hr, hc]
        exact ⟨hrow, hcol⟩
      refine iff_of_false (fun hnow => ?_) (not_not.mpr ⟨hmode, hpast⟩)
      obtain ⟨ws, hws, -⟩ := hmark.log
      have howns := hnow (t.row, t.row * t.grid.cols + t.col) (by
        rw [hws, hlog]
        refine mem_append_left _ (mem_append_right _ (mem_map.mpr ⟨t.col, ?_, rfl⟩))
        exact mem_range'_1.mpr (by omega))
      rw [hmark.grid, hgrid, Grid.owns_iff _ hrow] at howns
      omega
    · obtain ⟨hin, hnow⟩ := hneat _ (draws_fill _ 0 (t.col + 1) hrow (by omega))
      exact ⟨hin, iff_of_true hnow fun h => hpast h.2⟩
  · have hstays : ∀ u, Draws t u → (u.mark t.row).CursorIn ∧
        ((u.mark t.row).Clean ↔ ¬ (mode = 1 ∧ t.col = t.grid.cols)) := by
      intro u hu
      exact ⟨(hneat u hu).1, iff_of_true (hneat u hu).2 fun h => hmode h.1⟩
    split_ifs
    all_goals exact hstays _ (draws_fill _ _ _ hrow (by omega))

/-- The byte ends `ESC [ 1 K` while the cursor stands past the last column. -/
def Term.ErasesPast (t : Term) (ch : UInt8) : Prop :=
  t.esc = false ∧ t.csi = true ∧ ch = 75 ∧ (t.pushParam.param 0 0).toUInt8 = 1 ∧ t.col = t.grid.cols

theorem command_exact (ht : t.CursorIn) (hclean : t.Clean) (final : UInt8) :
    (t.command final).CursorIn ∧ ((t.command final).Clean ↔
      ¬ (final = 75 ∧ (t.param 0 0).toUInt8 = 1 ∧ t.col = t.grid.cols)) := by
  have hfine : ∀ v, final ≠ 75 → Neat t v ∧ v.CursorIn → v.CursorIn ∧ (v.Clean ↔
      ¬ (final = 75 ∧ (t.param 0 0).toUInt8 = 1 ∧ t.col = t.grid.cols)) := by
    intro v hfinal hv
    exact ⟨hv.2, iff_of_true (hv.1.clean hclean) fun h => hfinal h.1⟩
  by_cases hK : final = 75
  · have hrun : t.command final = t.eraseLine (t.param 0 0).toUInt8 := by
      subst hK
      rfl
    obtain ⟨hin, hiff⟩ := eraseLine_exact ht hclean (t.param 0 0).toUInt8
    rw [hrun]
    exact ⟨hin, hiff.trans (not_congr ⟨fun h => ⟨hK, h⟩, fun h => h.2⟩)⟩
  · have hsgr := draws_sgr t t.params
    apply hfine _ hK
    unfold Term.command
    rw [if_neg hK]
    refine neat_ite ⟨hsgr.toNeat, hsgr.cursorIn ht⟩ ?_
    iterate 7 refine neat_ite (setCursor_in t _ _) ?_
    exact neat_ite (eraseDisplay_in ht _) ⟨Neat.refl t, ht⟩

theorem csiFinal_exact (ht : t.CursorIn) (hclean : t.Clean) (final : UInt8) :
    (t.csiFinal final).CursorIn ∧ ((t.csiFinal final).Clean ↔
      ¬ (final = 75 ∧ (t.pushParam.param 0 0).toUInt8 = 1 ∧ t.col = t.grid.cols)) := by
  have hclosed : Draws t { t.pushParam with csi := false } := ⟨.of_same rfl rfl, rfl, rfl⟩
  exact command_exact (hclosed.cursorIn ht) (hclosed.toNeat.clean hclean) final

theorem csiByte_exact (ht : t.CursorIn) (hclean : t.Clean) (ch : UInt8) :
    (t.csiByte ch).CursorIn ∧ ((t.csiByte ch).Clean ↔
      ¬ (ch = 75 ∧ (t.pushParam.param 0 0).toUInt8 = 1 ∧ t.col = t.grid.cols)) := by
  unfold Term.csiByte
  split_ifs with hdigit hsemi hesc hfinal
  · refine ⟨ht, iff_of_true hclean fun h => ?_⟩
    rw [h.1] at hdigit
    exact absurd hdigit (by decide)
  · refine ⟨ht, iff_of_true hclean fun h => ?_⟩
    rw [h.1] at hsemi
    exact absurd hsemi (by decide)
  · refine ⟨ht, iff_of_true hclean fun h => ?_⟩
    rw [h.1] at hesc
    exact absurd hesc (by decide)
  · exact csiFinal_exact ht hclean ch
  · refine ⟨ht, iff_of_true hclean fun h => ?_⟩
    rw [h.1] at hfinal
    exact absurd (by decide) hfinal

theorem escByte_in (ht : t.CursorIn) (ch : UInt8) :
    Neat t (t.escByte ch) ∧ (t.escByte ch).CursorIn := by
  exact neat_ite ⟨.of_same rfl rfl, ht⟩ ⟨.of_same rfl rfl, ht⟩

theorem newline_in (ht : t.CursorIn) : Neat t t.newline ∧ t.newline.CursorIn := by
  have hzero : ({ t with col := 0 } : Term).CursorIn := ⟨ht.1, zero_le _⟩
  obtain ⟨hneat, hin, -⟩ := nextRow_in hzero
  exact ⟨⟨hneat.grid, hneat.log⟩, hin⟩

theorem textByte_in (ht : t.CursorIn) (ch : UInt8) :
    Neat t (t.textByte ch) ∧ (t.textByte ch).CursorIn := by
  have hesc : Neat t { t with esc := true, cursorMoved := true } := .of_same rfl rfl
  have hreturn : Neat t { t with col := 0, cursorMoved := true } := .of_same rfl rfl
  refine neat_ite ⟨hesc, ht⟩ (neat_ite (newline_in ht) (neat_ite ?_ ?_))
  · exact ⟨hreturn, ht.1, zero_le _⟩
  · exact neat_ite (backspace_in ht) (neat_ite (tab_in ht _) (print_in ht ch))

theorem putc_exact (ht : t.CursorIn) (hclean : t.Clean) (ch : UInt8) :
    (t.putc ch).CursorIn ∧ ((t.putc ch).Clean ↔ ¬ t.ErasesPast ch) := by
  unfold Term.putc
  cases hesc : t.esc with
  | true =>
    obtain ⟨hneat, hin⟩ := escByte_in ht ch
    refine ⟨hin, iff_of_true (hneat.clean hclean) fun h => ?_⟩
    exact absurd (hesc.symm.trans h.1) (by decide)
  | false =>
    cases hcsi : t.csi with
    | true =>
      obtain ⟨hin, hiff⟩ := csiByte_exact ht hclean ch
      exact ⟨hin, hiff.trans (not_congr ⟨fun h => ⟨hesc, hcsi, h⟩, fun h => h.2.2⟩)⟩
    | false =>
      obtain ⟨hneat, hin⟩ := textByte_in ht ch
      refine ⟨hin, iff_of_true (hneat.clean hclean) fun h => ?_⟩
      exact absurd (hcsi.symm.trans h.2.1) (by decide)

/-- The cursor is in the grid and every write went to its row. -/
def Term.Safe (t : Term) : Prop := t.CursorIn ∧ t.Clean

/-- Whatever bytes a terminal is fed, the cursor stays in the grid and all writes go to their rows,
exactly when `ESC [ 1 K` never comes while the cursor stands past the last column. -/
theorem terminal_safe_iff (grid : Grid) (cells : ℕ → UInt16) (bsErase : Bool) (bytes : List UInt8) :
    Always Term.putc Term.Safe (init grid cells bsErase) bytes ↔
      Throughout Term.putc (fun t ch => ¬ t.ErasesPast ch) (init grid cells bsErase) bytes := by
  refine always_iff_throughout_of (Q := Term.Safe) (fun _ h => h) (fun _ _ _ h => h) ?_ ?_ bytes
  · intro t ch ht
    obtain ⟨hin, hiff⟩ := putc_exact ht.1 ht.2 ch
    exact ⟨fun h => hiff.mp h.2, fun h => ⟨hin, hiff.mpr h⟩⟩
  · exact ⟨⟨grid.rows_pos, zero_le _⟩, nofun⟩

/-- On a grid of one row and two columns a third cell is written. -/
theorem erase_to_cursor_leaves_grid :
    (write (init ⟨1, 2, by decide, by decide⟩ (fun _ => 0) false)
      [97, 98, 0x1B, 91, 49, 75]).log = [(0, 0), (0, 1), (0, 0), (0, 1), (0, 2)] := by
  decide +kernel

end Vnu.Ansi
