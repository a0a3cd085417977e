import Mathlib.Data.List.GetD
import Mathlib.Tactic.NormNum

/-!
The loader of 32-bit ELF programs and the walk that sizes their region. Sums and products of header
fields are taken modulo `2 ^ 32`. Reads and writes are logged; a log is safe when its reads stay in
the image and its writes in the region. The two walkers agree on programs whose headers and segments
lie where they should in ordinary arithmetic: the highest end of a segment, which sizes the region,
is then at least the end of every segment that is written.
-/
namespace Vnu.Exec

open List Nat

variable {lo hi start n finish o : ℕ}

/-- A program in memory: `byte i` stands `i` bytes after its start, beyond its end as well. -/
structure Image where
  byte : ℕ → UInt8
  size : ℕ
  fits : size < 2 ^ 32

namespace Image

variable (img : Image)

def at32 (o k : ℕ) : ℕ := (img.byte ((o + k) % 2 ^ 32)).toNat

def u16 (o : ℕ) : ℕ := img.at32 o 0 + img.at32 o 1 * 2 ^ 8

def u32 (o : ℕ) : ℕ :=
  img.at32 o 0 + img.at32 o 1 * 2 ^ 8 + img.at32 o 2 * 2 ^ 16 + img.at32 o 3 * 2 ^ 24

end Image

def ehdrSize : ℕ := 52
def ptLoad : ℕ := 1
def etExec : ℕ := 2
def em386 : ℕ := 3

def magicOk (img : Image) : Bool :=
  img.byte 0 == 0x7f && img.byte 1 == 69 && img.byte 2 == 76 && img.byte 3 == 70

def eType (img : Image) : ℕ := img.u16 16
def eMachine (img : Image) : ℕ := img.u16 18
def eEntry (img : Image) : ℕ := img.u32 24
def ePhoff (img : Image) : ℕ := img.u32 28
def ePhentsize (img : Image) : ℕ := img.u16 42
def ePhnum (img : Image) : ℕ := img.u16 44

def phdr (img : Image) (i : ℕ) : ℕ := (ePhoff img + i * ePhentsize img) % 2 ^ 32

def field (o k : ℕ) : ℕ := (o + k) % 2 ^ 32

def pType (img : Image) (o : ℕ) : ℕ := img.u32 (field o 0)
def pOffset (img : Image) (o : ℕ) : ℕ := img.u32 (field o 4)
def pVaddr (img : Image) (o : ℕ) : ℕ := img.u32 (field o 8)
def pFilesz (img : Image) (o : ℕ) : ℕ := img.u32 (field o 16)
def pMemsz (img : Image) (o : ℕ) : ℕ := img.u32 (field o 20)

/-- What the loader returns, the offsets it reads from (with how many bytes) and the bytes it
writes. -/
structure Loading where
  entry : ℕ
  reads : List (ℕ × ℕ)
  writes : List (ℕ × List UInt8)

def Loading.after (l : Loading) (reads : List (ℕ × ℕ)) (writes : List (ℕ × List UInt8)) : Loading :=
  ⟨l.entry, reads ++ l.reads, writes ++ l.writes⟩

def Refuses (img : Image) (i : ℕ) : Prop :=
  pType img (phdr img i) = ptLoad ∧
    img.size < (pOffset img (phdr img i) + pFilesz img (phdr img i)) % 2 ^ 32

instance (img : Image) (i : ℕ) : Decidable (Refuses img i) := by
  unfold Refuses
  infer_instance

def fileBytes (img : Image) (o : ℕ) : List UInt8 :=
  (range (pFilesz img o)).map fun k => img.byte ((pOffset img o + k) % 2 ^ 32)

def segmentReads (img : Image) (o : ℕ) : List (ℕ × ℕ) :=
  [(field o 0, 4), (field o 4, 4), (field o 16, 4), (field o 8, 4), (field o 20, 4),
    (pOffset img o, pFilesz img o)]

def segmentWrites (img : Image) (o : ℕ) : List (ℕ × List UInt8) :=
  [(pVaddr img o, fileBytes img o), ((pVaddr img o + pFilesz img o) % 2 ^ 32,
      replicate (pMemsz img o - pFilesz img o) 0)]

def loadSegments (img : Image) : ℕ → ℕ → Loading
  | _, 0 => ⟨eEntry img, [], []⟩
  | i, n + 1 =>
    let o := phdr img i
    if pType img o ≠ ptLoad then (loadSegments img (i + 1) n).after [(field o 0, 4)] []
    else if Refuses img i then ⟨0, [(field o 0, 4), (field o 4, 4), (field o 16, 4)], []⟩
    else (loadSegments img (i + 1) n).after (segmentReads img o) (segmentWrites img o)

def headerOk (img : Image) : Bool :=
  magicOk img && img.byte 4 == 1 && eType img == etExec && eMachine img == em386 &&
    (ePhoff img + ePhnum img * ePhentsize img) % 2 ^ 32 ≤ img.size

def load (img : Image) : Loading :=
  if img.size < ehdrSize then ⟨0, [], []⟩
  else if headerOk img then (loadSegments img 0 (ePhnum img)).after [(0, ehdrSize)] []
  else ⟨0, [(0, ehdrSize)], []⟩

def pageSize : ℕ := 4096
def appBase : ℕ := 0x400000
def userStackBase : ℕ := 0x600000

def segmentsTop (img : Image) : ℕ → ℕ → ℕ → ℕ
  | _, 0, top => top
  | i, n + 1, top =>
    if img.size < (ePhoff img + (i + 1) * ePhentsize img) % 2 ^ 32 then top
    else
      let o := phdr img i
      if pType img o ≠ ptLoad then segmentsTop img (i + 1) n top
      else
        let finish := (pVaddr img o + pMemsz img o) % 2 ^ 32
        segmentsTop img (i + 1) n (if top < finish then finish else top)

def maxAppPages : ℕ := (userStackBase - appBase) / pageSize

def elfNeedPages (img : Image) : ℕ :=
  if img.size < ehdrSize || !magicOk img || eType img != etExec then 1
  else
    let top := segmentsTop img 0 (ePhnum img) 0
    if top ≤ appBase then 1
    else
      let pages := (top - appBase + pageSize - 1) / pageSize
      if maxAppPages < pages then maxAppPages else pages

def regionEnd (img : Image) : ℕ := appBase + elfNeedPages img * pageSize

def Covers (lo hi : ℕ) (start count : ℕ) : Prop :=
  ∀ k < count, lo ≤ (start + k) % 2 ^ 32 ∧ (start + k) % 2 ^ 32 < hi

structure Loading.Safe (l : Loading) (size finish : ℕ) : Prop where
  reads : ∀ r ∈ l.reads, Covers 0 size r.1 r.2
  writes : ∀ w ∈ l.writes, Covers appBase finish w.1 w.2.length

def TargetFits (img : Image) (finish o : ℕ) : Prop :=
  max (pFilesz img o) (pMemsz img o) = 0 ∨
    appBase ≤ pVaddr img o ∧ pVaddr img o + max (pFilesz img o) (pMemsz img o) ≤ finish

def FieldsFit (img : Image) (o : ℕ) (fields : List ℕ) : Prop :=
  ∀ k ∈ fields, field o k + 4 ≤ img.size

/-- The headers lie inside the image, and every segment has its bytes there and its memory between
the start of the region and the stacks. -/
structure WellFormed (img : Image) : Prop where
  table : ePhoff img + ePhnum img * ePhentsize img < 2 ^ 32
  header : ∀ i < ePhnum img, ePhoff img + i * ePhentsize img + 24 ≤ img.size
  source : ∀ i < ePhnum img, pType img (phdr img i) = ptLoad →
    pOffset img (phdr img i) + pFilesz img (phdr img i) ≤ img.size
  sizes : ∀ i < ePhnum img, pType img (phdr img i) = ptLoad →
    pFilesz img (phdr img i) ≤ pMemsz img (phdr img i)
  base : ∀ i < ePhnum img, pType img (phdr img i) = ptLoad → appBase ≤ pVaddr img (phdr img i)
  top : ∀ i < ePhnum img, pType img (phdr img i) = ptLoad →
    pVaddr img (phdr img i) + pMemsz img (phdr img i) ≤ userStackBase

section WellFormed

variable {img : Image} {i : ℕ}

/-- The walk that sizes the region ends at or above the end of every segment it passes. -/
theorem le_segmentsTop (n i top : ℕ)
    (hin : ∀ j, i ≤ j → j < i + n → (ePhoff img + (j + 1) * ePhentsize img) % 2 ^ 32 ≤ img.size) :
    top ≤ segmentsTop img i n top ∧ ∀ j, i ≤ j → j < i + n → pType img (phdr img j) = ptLoad →
      (pVaddr img (phdr img j) + pMemsz img (phdr img j)) % 2 ^ 32 ≤ segmentsTop img i n top := by
  induction n generalizing i top with
  | zero => exact ⟨le_rfl, fun j hlo hhi => by omega⟩
  | succ n ih =>
    have hrest : ∀ j, i + 1 ≤ j → j < i + 1 + n →
        (ePhoff img + (j + 1) * ePhentsize img) % 2 ^ 32 ≤ img.size :=
      fun j hlo hhi => hin j (by omega) (by omega)
    simp only [segmentsTop, if_neg (Nat.not_lt.mpr (hin i le_rfl (by omega)))]
    by_cases hother : pType img (phdr img i) ≠ ptLoad
    · rw [if_pos hother]
      obtain ⟨htop, hends⟩ := ih (i + 1) top hrest
      refine ⟨htop, fun j hlo hhi hload => ?_⟩
      rcases eq_or_lt_of_le hlo with rfl | hlt
      · exact absurd hload hother
      · exact hends j hlt (by omega) hload
    · rw [if_neg hother]
      generalize hnew : (if top < (pVaddr img (phdr img i) + pMemsz img (phdr img i)) % 2 ^ 32
        then (pVaddr img (phdr img i) + pMemsz img (phdr img i)) % 2 ^ 32 else top) = new
      obtain ⟨htop, hends⟩ := ih (i + 1) new hrest
      refine ⟨by split_ifs at hnew <;> omega, fun j hlo hhi hload => ?_⟩
      rcases eq_or_lt_of_le hlo with rfl | hlt
      · split_ifs at hnew <;> omega
      · exact hends j hlt (by omega) hload

theorem WellFormed.phdr_eq (h : WellFormed img) (hi : i < ePhnum img) :
    phdr img i = ePhoff img + i * ePhentsize img := by
  have hin := h.header i hi
  have hfits := img.fits
  exact Nat.mod_eq_of_lt (by omega)

theorem WellFormed.fields (h : WellFormed img) (hi : i < ePhnum img) {ks : List ℕ}
    (hks : ∀ k ∈ ks, k ≤ 20) : FieldsFit img (phdr img i) ks := by
  intro k hk
  have hin := h.header i hi
  have hfits := img.fits
  have hle := hks k hk
  rw [field, h.phdr_eq hi, Nat.mod_eq_of_lt (by omega)]
  omega

/-- The region that is computed for the image holds each of its segments. -/
theorem WellFormed.target (h : WellFormed img) (hsize : ehdrSize ≤ img.size)
    (hok : headerOk img = true) (hi : i < ePhnum img) (hload : pType img (phdr img i) = ptLoad) :
    TargetFits img (regionEnd img) (phdr img i) := by
  simp only [headerOk, Bool.and_eq_true, decide_eq_true_eq, beq_iff_eq] at hok
  obtain ⟨⟨⟨⟨hmagic, -⟩, htype⟩, -⟩, htable⟩ := hok
  have hwhole := h.table
  have hbase := h.base i hi hload
  have htop := h.top i hi hload
  have hstack : userStackBase = 0x600000 := rfl
  have happ : appBase = 0x400000 := rfl
  rw [TargetFits, max_eq_right (h.sizes i hi hload)]
  have hin : ∀ j, 0 ≤ j → j < 0 + ePhnum img →
      (ePhoff img + (j + 1) * ePhentsize img) % 2 ^ 32 ≤ img.size := by
    intro j _ hj
    have hj' : (j + 1) * ePhentsize img ≤ ePhnum img * ePhentsize img :=
      Nat.mul_le_mul_right _ (by omega)
    rw [Nat.mod_eq_of_lt (by omega)] at htable ⊢
    omega
  have hend := (le_segmentsTop (ePhnum img) 0 0 hin).2 i (zero_le _) (by omega) hload
  rw [Nat.mod_eq_of_lt (by omega)] at hend
  have hchecks : ¬ (img.size < ehdrSize || !magicOk img || eType img != etExec) = true := by
    simp [hmagic, htype, hsize]
  unfold regionEnd elfNeedPages
  rw [if_neg hchecks]
  simp only [show maxAppPages = 512 from rfl, show pageSize = 4096 from rfl]
  split_ifs with hlow hclamp
  · omega
  · right
    omega
  · right
    omega

end WellFormed

end Vnu.Exec
