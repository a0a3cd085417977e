import Mathlib.Data.List.Basic
import Mathlib.Data.List.GetD

/-!
Writing into a list at an offset. `overlay` replaces a block of a list that is long enough; `put`
writes anywhere and fills the gap behind the end.
-/
namespace Vnu.Lib.Overlay

open List

variable {α : Type*}

def overlay (bs : List α) (off : ℕ) (src : List α) : List α :=
  bs.take off ++ (src ++ bs.drop (off + src.length))

def put (z : α) (cs : List α) (off : ℕ) (src : List α) : List α :=
  cs.take off ++ (replicate (off - cs.length) z ++ (src ++ cs.drop (off + src.length)))

theorem overlay_length {bs src : List α} {off : ℕ} (h : off + src.length ≤ bs.length) :
    (overlay bs off src).length = bs.length := by
  simp only [overlay, length_append, length_take, length_drop]
  omega

theorem overlay_getElem? {bs src : List α} {off : ℕ} (h : off + src.length ≤ bs.length) (i : ℕ) :
    (overlay bs off src)[i]? =
      if off ≤ i ∧ i < off + src.length then src[i - off]? else bs[i]? := by
  have htake : (bs.take off).length = off := by
    rw [length_take]
    omega
  rw [overlay]
  by_cases hlo : i < off
  · rw [getElem?_append_left (by omega), getElem?_take_of_lt hlo, if_neg (by omega)]
  rw [getElem?_append_right (by omega), htake]
  by_cases hhi : i < off + src.length
  · rw [getElem?_append_left (by omega), if_pos ⟨by omega, hhi⟩]
  · rw [getElem?_append_right (by omega), getElem?_drop, if_neg (by omega)]
    congr 1
    omega

theorem put_getElem? (z : α) (cs : List α) (off : ℕ) (src : List α) (i : ℕ) :
    (put z cs off src)[i]? = if off ≤ i ∧ i < off + src.length then src[i - off]?
      else if i < cs.length then cs[i]? else if i < off then some z else none := by
  rw [put]
  by_cases htake : i < (cs.take off).length
  · rw [getElem?_append_left htake]
    rw [length_take] at htake
    rw [getElem?_take_of_lt (by omega), if_neg (by omega), if_pos (by omega)]
  rw [getElem?_append_right (by omega)]
  rw [length_take] at htake ⊢
  by_cases hgap : i - min off cs.length < off - cs.length
  · rw [getElem?_append_left (by simpa using hgap), getElem?_replicate_of_lt hgap,
      if_neg (by omega), if_neg (by omega), if_pos (by omega)]
  rw [getElem?_append_right (by simpa using hgap), length_replicate]
  have hidx : i - min off cs.length - (off - cs.length) = i - off := by omega
  rw [hidx]
  by_cases hhi : i < off + src.length
  · rw [getElem?_append_left (by omega), if_pos ⟨by omega, hhi⟩]
  rw [getElem?_append_right (by omega), getElem?_drop, if_neg (by omega)]
  have hidx : off + src.length + (i - off - src.length) = i := by omega
  rw [hidx]
  by_cases hlen : i < cs.length
  · rw [if_pos hlen]
  · rw [if_neg hlen, if_neg (by omega), getElem?_eq_none (by omega)]

def fill (z : α) (bs : List α) (size off : ℕ) : List α :=
  if size < off then overlay bs size (replicate (off - size) z) else bs

section

variable {z : α} {bs src : List α} {size off : ℕ} (hroom : off + src.length ≤ bs.length)
include hroom

theorem fill_length : (fill z bs size off).length = bs.length := by
  rw [fill]
  split
  · rw [overlay_length]
    rw [length_replicate]
    omega
  · rfl

theorem overlay_fill_length : (overlay (fill z bs size off) off src).length = bs.length := by
  rw [overlay_length (by rwa [fill_length hroom]), fill_length hroom]

theorem fill_getElem? (i : ℕ) :
    (fill z bs size off)[i]? = if size ≤ i ∧ i < off then some z else bs[i]? := by
  rw [fill]
  split
  · rw [overlay_getElem? (by rw [length_replicate]; omega), length_replicate]
    have hend : size + (off - size) = off := by omega
    rw [hend]
    split
    · rw [getElem?_replicate_of_lt (by omega)]
    · rfl
  · rw [if_neg (by omega)]

theorem take_overlay_fill (hsize : size ≤ bs.length) :
    (overlay (fill z bs size off) off src).take (max size (off + src.length)) =
      put z (bs.take size) off src := by
  apply ext_getElem?
  intro i
  rw [put_getElem?, length_take, Nat.min_eq_left hsize]
  by_cases hi : i < max size (off + src.length)
  · rw [getElem?_take_of_lt hi, overlay_getElem? (by rwa [fill_length hroom]), fill_getElem? hroom]
    split
    · rfl
    · rename_i hout
      by_cases hlt : i < size
      · rw [if_neg (by omega), if_pos hlt, getElem?_take_of_lt hlt]
      · rw [if_pos (by omega), if_neg hlt, if_pos (by omega)]
  · rw [getElem?_eq_none (by rw [length_take]; omega), if_neg (by omega),
      if_neg (by omega), if_neg (by omega)]

theorem drop_overlay_fill :
    (overlay (fill z bs size off) off src).drop (max size (off + src.length)) =
      bs.drop (max size (off + src.length)) := by
  apply ext_getElem?
  intro i
  rw [getElem?_drop, getElem?_drop, overlay_getElem? (by rwa [fill_length hroom]),
    fill_getElem? hroom, if_neg (by omega), if_neg (by omega)]

end

end Vnu.Lib.Overlay
