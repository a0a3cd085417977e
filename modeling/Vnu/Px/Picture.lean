import Mathlib.Tactic.Ring
import Vnu.Px.Png
import Vnu.Px.Rfc1951

/-!
Pictures of eight bits per sample and how a PNG file holds them: filtered rows in a zlib stream that
is cut into IDAT chunks.
-/
namespace Vnu.Px

open List Nat

variable {s r y x : ℕ} {raw : List UInt8}

inductive Color where
  | gray
  | rgb
  | grayAlpha
  | rgba
  deriving DecidableEq, Repr

namespace Color

def channels : Color → ℕ
  | gray => 1
  | rgb => 3
  | grayAlpha => 2
  | rgba => 4

def code : Color → ℕ
  | gray => 0
  | rgb => 2
  | grayAlpha => 4
  | rgba => 6

end Color

structure Picture where
  color : Color
  width : ℕ
  height : ℕ
  width_range : 1 ≤ width ∧ width ≤ 4096
  height_range : 1 ≤ height ∧ height ≤ 4096
  /-- The samples by row, column and channel. -/
  sample : ℕ → ℕ → ℕ → UInt8

inductive Filter where
  | none
  | sub
  | up
  | average
  | paeth
  deriving DecidableEq, Repr

namespace Filter

def code : Filter → UInt8
  | none => 0
  | sub => 1
  | up => 2
  | average => 3
  | paeth => 4

def distance (left up upLeft v : UInt8) : ℕ :=
  ((left.toNat : ℤ) + up.toNat - upLeft.toNat - v.toNat).natAbs

def nearest (left up upLeft : UInt8) : UInt8 :=
  ([left, up, upLeft].find? fun v => [left, up, upLeft].all fun w =>
    distance left up upLeft v ≤ distance left up upLeft w).getD left

def predict : Filter → UInt8 → UInt8 → UInt8 → UInt8
  | none, _, _, _ => 0
  | sub, left, _, _ => left
  | up, _, above, _ => above
  | average, left, above, _ => UInt8.ofNat ((left.toNat + above.toNat) / 2)
  | paeth, left, above, upLeft => nearest left above upLeft

end Filter

namespace Picture

variable (p : Picture) (filters : ℕ → Filter)

def rowBytes : ℕ := p.width * p.color.channels

def byte (y i : ℕ) : UInt8 := p.sample y (i / p.color.channels) (i % p.color.channels)

def predicted (y i : ℕ) : UInt8 :=
  (filters y).predict (if p.color.channels ≤ i then p.byte y (i - p.color.channels) else 0)
    (if y = 0 then 0 else p.byte (y - 1) i)
    (if y ≠ 0 ∧ p.color.channels ≤ i then p.byte (y - 1) (i - p.color.channels) else 0)

def filteredRow (y : ℕ) : List UInt8 :=
  (filters y).code :: (range p.rowBytes).map fun i => p.byte y i - p.predicted filters y i

def filtered : List UInt8 := (range p.height).flatMap (p.filteredRow filters)

def overWhite (v alpha : UInt8) : UInt8 :=
  UInt8.ofNat ((v.toNat * alpha.toNat + 255 * (255 - alpha.toNat) + 127) / 255)

def flatPixel (y x : ℕ) : List UInt8 :=
  let v := p.sample y x
  match p.color with
  | .gray => [v 0, v 0, v 0]
  | .rgb => [v 0, v 1, v 2]
  | .grayAlpha => replicate 3 (overWhite (v 0) (v 1))
  | .rgba => [overWhite (v 0) (v 3), overWhite (v 1) (v 3), overWhite (v 2) (v 3)]

def flattened : List UInt8 :=
  (range p.height).flatMap fun y => (range p.width).flatMap fun x => p.flatPixel y x

end Picture

theorem pxPaeth_eq (a b c : UInt8) : pxPaeth a b c = Filter.nearest a b c := by
  have habs : ∀ x : ℤ, (if x < 0 then -x else x) = (x.natAbs : ℤ) := by
    intro x
    split_ifs <;> omega
  have hpaeth : pxPaeth a b c = if Filter.distance a b c a ≤ Filter.distance a b c b ∧
      Filter.distance a b c a ≤ Filter.distance a b c c then a
      else if Filter.distance a b c b ≤ Filter.distance a b c c then b else c := by
    simp only [pxPaeth, habs]
    exact if_congr (and_congr Int.ofNat_le Int.ofNat_le) rfl (if_congr Int.ofNat_le rfl rfl)
  rw [hpaeth]
  simp only [Filter.nearest]
  by_cases hfirst : Filter.distance a b c a ≤ Filter.distance a b c b ∧
      Filter.distance a b c a ≤ Filter.distance a b c c
  · rw [if_pos hfirst, find?_cons_of_pos (by simpa using hfirst)]
    rfl
  rw [if_neg hfirst, find?_cons_of_neg (by simpa using hfirst)]
  split_ifs with hsecond
  · rw [find?_cons_of_pos (by simp; omega)]
    rfl
  rw [find?_cons_of_neg (by simp; omega), find?_cons_of_pos (by simp; omega)]
  rfl

theorem unfilterByte_code (f : Filter) (v leftv upv ulv : UInt8) :
    unfilterByte f.code v leftv upv ulv = v + f.predict leftv upv ulv := by
  cases f with
  | none | sub | up => simp [unfilterByte, Filter.code, Filter.predict]
  | average => simp [unfilterByte, Filter.code, Filter.predict, Nat.shiftRight_eq_div_pow]
  | paeth => simp [unfilterByte, Filter.code, Filter.predict, pxPaeth_eq]

theorem getD_flatMap_range {row : ℕ → List UInt8} {n j : ℕ} (hrow : ∀ r, (row r).length = s)
    (hr : r < n) (hj : j < s) :
    ((range n).flatMap row).getD (r * s + j) 0 = (row r).getD j 0 := by
  have hlength : ∀ n, ((range n).flatMap row).length = n * s := by
    intro n
    simp [hrow]
  induction n with
  | zero => omega
  | succ n ih =>
    rw [range_succ, flatMap_append, flatMap_singleton]
    by_cases hlast : r = n
    · subst hlast
      rw [getD_append_right _ _ _ _ (by rw [hlength]; omega), hlength, Nat.add_sub_cancel_left]
    have hbefore : r * s + j < n * s := by
      calc r * s + j < r * s + s := Nat.add_lt_add_left hj _
        _ = (r + 1) * s := by ring
        _ ≤ n * s := Nat.mul_le_mul_right s (by omega)
    rw [getD_append _ _ _ _ (by rwa [hlength]), ih (by omega)]

section Unfilter

variable {p : Picture} {filters : ℕ → Filter}

structure Undone (p : Picture) (filters : ℕ → Filter) (y x : ℕ) (raw : List UInt8) : Prop where
  length : raw.length = p.height * (1 + p.rowBytes)
  codes : ∀ r < p.height, raw.getD (r * (1 + p.rowBytes)) 0 = (filters r).code
  bytes : ∀ r < p.height, ∀ i < p.rowBytes, raw.getD (r * (1 + p.rowBytes) + 1 + i) 0 =
    if r < y ∨ r = y ∧ i < x then p.byte r i else p.byte r i - p.predicted filters r i

theorem filteredRow_length (p : Picture) (filters : ℕ → Filter) (y : ℕ) :
    (p.filteredRow filters y).length = 1 + p.rowBytes := by
  simp [Picture.filteredRow, add_comm]

theorem undone_start (p : Picture) (filters : ℕ → Filter) :
    Undone p filters 0 0 (p.filtered filters) where
  length := by
    unfold Picture.filtered
    simp [filteredRow_length]
  codes r hr := by
    have hget := getD_flatMap_range (filteredRow_length p filters) hr
      (show 0 < 1 + p.rowBytes by omega)
    rw [add_zero] at hget
    rw [Picture.filtered, hget]
    rfl
  bytes r hr i hi := by
    have hget := getD_flatMap_range (filteredRow_length p filters) hr
      (show 1 + i < 1 + p.rowBytes by omega)
    rw [Picture.filtered, add_assoc, hget, Picture.filteredRow, add_comm 1 i]
    simp [hi]

theorem place_inj {r' i i' : ℕ} (hi : i < s) (hi' : i' < s) (h : r * s + i = r' * s + i') :
    r = r' ∧ i = i' := by
  have hdiv := congrArg (· / s) h
  have hmod := congrArg (· % s) h
  simp only [Nat.mul_add_mod', Nat.mod_eq_of_lt hi, Nat.mod_eq_of_lt hi'] at hmod
  simp only [add_comm _ i, add_comm _ i', Nat.add_mul_div_right _ _ (show 0 < s by omega),
    Nat.div_eq_of_lt hi, Nat.div_eq_of_lt hi', zero_add] at hdiv
  exact ⟨hdiv, hmod⟩

theorem channels_pos (c : Color) : 0 < c.channels := by
  cases c <;> decide

theorem Undone.unfilterAt_eq (h : Undone p filters y x raw)
    (hy : y < p.height) (hx : x < p.rowBytes) :
    unfilterAt p.rowBytes p.color.channels y x raw =
      raw.set (y * (1 + p.rowBytes) + 1 + x) (p.byte y x) := by
  have hbpp := channels_pos p.color
  have hleft : (if p.color.channels ≤ x then
      raw.getD (y * (1 + p.rowBytes) + 1 + (x - p.color.channels)) 0 else 0) =
      if p.color.channels ≤ x then p.byte y (x - p.color.channels) else 0 := by
    split_ifs with hin
    · rw [h.bytes y hy _ (by omega), if_pos (by omega)]
    · rfl
  have hup : (if y = 0 then 0 else raw.getD ((y - 1) * (1 + p.rowBytes) + 1 + x) 0) =
      if y = 0 then 0 else p.byte (y - 1) x := by
    split_ifs with htop
    · rfl
    · rw [h.bytes (y - 1) (by omega) x hx, if_pos (by omega)]
  have hupLeft : (if y ≠ 0 ∧ p.color.channels ≤ x then
      raw.getD ((y - 1) * (1 + p.rowBytes) + 1 + (x - p.color.channels)) 0 else 0) =
      if y ≠ 0 ∧ p.color.channels ≤ x then p.byte (y - 1) (x - p.color.channels) else 0 := by
    split_ifs with hin
    · rw [h.bytes (y - 1) (by omega) _ (by omega), if_pos (by omega)]
    · rfl
  have hhere := h.bytes y hy x hx
  rw [if_neg (by omega)] at hhere
  simp only [unfilterAt]
  rw [hleft, hup, hupLeft, hhere, h.codes y hy, unfilterByte_code]
  exact congrArg _ (UInt8.sub_add_cancel _ _)

/-- A byte is undone from bytes that are done: to its left, above, and between. -/
theorem Undone.step (h : Undone p filters y x raw) (hy : y < p.height) (hx : x < p.rowBytes) :
    Undone p filters y (x + 1) (unfilterAt p.rowBytes p.color.channels y x raw) := by
  rw [h.unfilterAt_eq hy hx]
  refine ⟨?_, ?_, ?_⟩
  · rw [length_set, h.length]
  · intro r hr
    have hne : y * (1 + p.rowBytes) + 1 + x ≠ r * (1 + p.rowBytes) := by
      intro heq
      have hplace := place_inj (show 1 + x < 1 + p.rowBytes by omega)
        (show 0 < 1 + p.rowBytes by omega) ((add_assoc _ _ _).symm.trans heq)
      omega
    rw [getD_eq_getElem?_getD, getElem?_set_ne hne, ← getD_eq_getElem?_getD, h.codes r hr]
  intro r hr i hi
  by_cases hsame : r = y ∧ i = x
  · obtain ⟨rfl, rfl⟩ := hsame
    have hin : r * (1 + p.rowBytes) + 1 + i < raw.length := by
      rw [h.length]
      calc r * (1 + p.rowBytes) + 1 + i < r * (1 + p.rowBytes) + (1 + p.rowBytes) := by omega
        _ = (r + 1) * (1 + p.rowBytes) := by ring
        _ ≤ p.height * (1 + p.rowBytes) := Nat.mul_le_mul_right _ hr
    rw [if_pos (by omega), getD_eq_getElem?_getD, getElem?_set_self hin]
    rfl
  · have hne : y * (1 + p.rowBytes) + 1 + x ≠ r * (1 + p.rowBytes) + 1 + i := by
      intro heq
      rw [add_assoc, add_assoc] at heq
      have hplace := place_inj (show 1 + x < 1 + p.rowBytes by omega)
        (show 1 + i < 1 + p.rowBytes by omega) heq
      omega
    have hiff : (r < y ∨ r = y ∧ i < x) ↔ (r < y ∨ r = y ∧ i < x + 1) := by omega
    rw [getD_eq_getElem?_getD, getElem?_set_ne hne, ← getD_eq_getElem?_getD, h.bytes r hr i hi]
    simp [hiff]

theorem Undone.row (h : Undone p filters y 0 raw) (hy : y < p.height) :
    Undone p filters (y + 1) 0 (unfilterRow p.rowBytes p.color.channels y raw) := by
  have hbytes : ∀ n ≤ p.rowBytes, Undone p filters y n ((range n).foldl
      (fun raw x => unfilterAt p.rowBytes p.color.channels y x raw) raw) := by
    intro n hn
    induction n with
    | zero => exact h
    | succ n ih =>
      rw [range_succ, foldl_concat]
      exact (ih (by omega)).step hy (by omega)
  have hall := hbytes p.rowBytes le_rfl
  refine ⟨hall.length, hall.codes, ?_⟩
  intro r hr i hi
  have hiff : (r < y ∨ r = y ∧ i < p.rowBytes) ↔ (r < y + 1 ∨ r = y + 1 ∧ i < 0) := by omega
  rw [unfilterRow, hall.bytes r hr i hi]
  simp [hiff]

theorem code_le (f : Filter) : ¬ 4 < f.code := by
  cases f <;> decide

theorem Undone.rows (count : ℕ) (h : Undone p filters y 0 raw) (hy : y + count = p.height) :
    ∃ raw', unfilter p.rowBytes p.color.channels count y raw = .ok raw' ∧
      Undone p filters p.height 0 raw' := by
  induction count generalizing y raw with
  | zero =>
    exact ⟨raw, rfl, hy ▸ h⟩
  | succ count ih =>
    have hrow := h.row (by omega)
    simp only [unfilter]
    rw [if_neg (h.codes y (by omega) ▸ code_le (filters y))]
    exact ih hrow (by omega)

end Unfilter

theorem unfilter_filtered (p : Picture) (filters : ℕ → Filter) :
    ∃ raw, unfilter p.rowBytes p.color.channels p.height 0 (p.filtered filters) = .ok raw ∧
      ∀ y < p.height, ∀ i < p.rowBytes, raw.getD (y * (1 + p.rowBytes) + 1 + i) 0 = p.byte y i := by
  obtain ⟨raw, hraw, hdone⟩ := (undone_start p filters).rows p.height (zero_add _)
  refine ⟨raw, hraw, ?_⟩
  intro y hy i hi
  rw [hdone.bytes y hy i hi, if_pos (.inl hy)]

end Vnu.Px
