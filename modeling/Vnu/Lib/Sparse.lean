import Mathlib.Data.List.Basic
import Mathlib.Tactic.NormNum

/-!
A file that can be written at any position, and a buffer that holds one: a write behind the end
shows what the buffer held there, which must be blank.
-/
namespace Vnu.Lib.Sparse

open List Nat

variable {α : Type*} (blank : α)

def splice [DecidableEq α] (file : List α) (pos : ℕ) (bytes : List α) : List α :=
  if bytes = [] then file
  else file.take pos ++ replicate (pos - file.length) blank ++ bytes ++
    file.drop (pos + bytes.length)

def image (buf : ℕ → α) (size : ℕ) : List α := (range size).map buf

def overlay (buf : ℕ → α) (pos : ℕ) (bytes : List α) : ℕ → α := fun i =>
  if pos ≤ i ∧ i < pos + bytes.length then bytes.getD (i - pos) blank else buf i

section

variable {buf buf' : ℕ → α} {size : ℕ}

@[simp] theorem length_image : (image buf size).length = size := by
  rw [image, length_map, length_range]

theorem image_inj : image buf size = image buf' size ↔ ∀ i < size, buf i = buf' i := by
  simp [image]

theorem image_add (buf : ℕ → α) (m n : ℕ) :
    image buf (m + n) = image buf m ++ image (fun i => buf (m + i)) n := by
  rw [image, range_add, map_append, map_map]
  rfl

theorem drop_image (buf : ℕ → α) (size k : ℕ) :
    (image buf size).drop k = image (fun i => buf (k + i)) (size - k) := by
  rcases Nat.le_total k size with h | h
  · obtain ⟨n, rfl⟩ := Nat.exists_eq_add_of_le h
    rw [image_add, Nat.add_sub_cancel_left]
    exact drop_left' length_image
  · rw [Nat.sub_eq_zero_of_le h]
    exact drop_of_length_le (by simpa using h)

theorem take_image (buf : ℕ → α) (size k : ℕ) :
    (image buf size).take k = image buf (min k size) := by
  rw [image, ← map_take, take_range, image]

theorem image_const (n : ℕ) : image (fun _ => blank) n = replicate n blank := by
  simp [image]

theorem image_getD (bytes : List α) : image (fun i => bytes.getD i blank) bytes.length = bytes := by
  induction bytes with
  | nil => rfl
  | cons b bytes ih =>
    rw [length_cons, add_comm, image_add]
    simp only [add_comm 1, getD_cons_succ, ih]
    rfl

theorem image_eq_padded_iff (buf : ℕ → α) (size pos : ℕ) :
    image buf pos = (image buf size).take pos ++ replicate (pos - size) blank ↔
      ∀ j, size ≤ j → j < pos → buf j = blank := by
  rcases Nat.le_total pos size with h | h
  · rw [take_image, min_eq_left h, Nat.sub_eq_zero_of_le h, replicate_zero, append_nil]
    exact iff_of_true rfl fun j hj hlt => absurd hlt (by omega)
  obtain ⟨gap, rfl⟩ := Nat.exists_eq_add_of_le h
  rw [take_image, min_eq_right h, Nat.add_sub_cancel_left, image_add, ← image_const,
    append_cancel_left_eq, image_inj]
  constructor
  · intro hgap j hj hlt
    have hblank := hgap (j - size) (by omega)
    rwa [Nat.add_sub_cancel' hj] at hblank
  · intro hgap i hi
    exact hgap (size + i) (by omega) (by omega)

end

section

variable (buf : ℕ → α) (size pos : ℕ) (bytes : List α)

theorem image_overlay :
    image (overlay blank buf pos bytes) (max size (pos + bytes.length)) =
      image buf pos ++ bytes ++ (image buf size).drop (pos + bytes.length) := by
  have htotal : max size (pos + bytes.length) =
      pos + bytes.length + (size - (pos + bytes.length)) := by omega
  rw [htotal, image_add, image_add, drop_image]
  have hbefore : image (overlay blank buf pos bytes) pos = image buf pos := by
    refine image_inj.mpr fun i hi => ?_
    exact if_neg (by omega)
  have hbytes : image (fun i => overlay blank buf pos bytes (pos + i)) bytes.length = bytes := by
    refine (image_inj.mpr fun i hi => ?_).trans (image_getD blank bytes)
    rw [overlay, if_pos (by omega), Nat.add_sub_cancel_left]
  have hbehind : image (fun i => overlay blank buf pos bytes (pos + bytes.length + i))
      (size - (pos + bytes.length)) =
        image (fun i => buf (pos + bytes.length + i)) (size - (pos + bytes.length)) := by
    refine image_inj.mpr fun i _ => ?_
    exact if_neg (by omega)
  rw [hbefore, hbytes, hbehind]

/-- The buffer holds the file after a write exactly when it was blank up to the write, and something
was written if that is behind the end. -/
theorem image_overlay_iff [DecidableEq α] :
    image (overlay blank buf pos bytes) (max size (pos + bytes.length)) =
        splice blank (image buf size) pos bytes ↔
      (∀ j, size ≤ j → j < pos → buf j = blank) ∧ (size < pos → bytes ≠ []) := by
  rw [image_overlay]
  by_cases hnil : bytes = []
  · subst hnil
    rw [splice, if_pos rfl, append_nil, length_nil, add_zero]
    constructor
    · intro h
      have hlen : pos + (size - pos) = size := by
        simpa using congrArg length h
      exact ⟨fun j hj hlt => absurd hlt (by omega), fun hlt => absurd hlt (by omega)⟩
    · rintro ⟨-, hlt⟩
      have hle : pos ≤ size := Nat.le_of_not_lt fun hgt => hlt hgt rfl
      have hbefore : image buf pos = (image buf size).take pos := by
        rw [take_image, min_eq_left hle]
      rw [hbefore, take_append_drop]
  · rw [splice, if_neg hnil, append_left_inj, append_left_inj, length_image, image_eq_padded_iff]
    exact ⟨fun h => ⟨h, fun _ => hnil⟩, fun h => h.1⟩

end

end Vnu.Lib.Sparse
