import Vnu.Px.Decoding

/-!
The decompressor on any input. It ends and stays inside the buffers, except that the end of a stored
block can wrap around.
-/
namespace Vnu.Px

open Lib Rfc1951 List Nat

variable {n i : ℕ} {b' : PxBit} {pre post : List UInt8}

/-- The run ends by itself and inside the buffers, and its result has the property. -/
inductive Tame {α : Type} (Q : α → Prop) : Except Stop α → Prop where
  | ok {a : α} (h : Q a) : Tame Q (.ok a)
  | fail (code : ℤ) : Tame Q (.error (.fail code))

section Rules

variable {α β : Type} {P Q : α → Prop} {R : β → Prop} {x y : Except Stop α}

theorem Tame.mono (h : Tame P x) (hPQ : ∀ a, P a → Q a) : Tame Q x := by
  cases h with
  | ok h => exact .ok (hPQ _ h)
  | fail code => exact .fail code

theorem Tame.bind_of_eq {f : α → Except Stop β} (h : Tame P x)
    (hf : ∀ a, x = .ok a → P a → Tame R (f a)) : Tame R (x >>= f) := by
  cases h with
  | ok h => exact hf _ rfl h
  | fail code => exact .fail code

theorem Tame.bind {f : α → Except Stop β} (h : Tame P x) (hf : ∀ a, P a → Tame R (f a)) :
    Tame R (x >>= f) := h.bind_of_eq fun a _ => hf a

theorem tame_ite {c : Prop} {_ : Decidable c} (hx : c → Tame Q x) (hy : ¬ c → Tame Q y) :
    Tame Q (if c then x else y) := by
  split_ifs with hc
  · exact hx hc
  · exact hy hc

theorem Tame.of_ok {a : α} (h : Tame Q x) (hx : x = .ok a) : Q a := by
  subst hx
  cases h with
  | ok h => exact h

theorem Tame.ne_running (h : Tame Q x) : x ≠ .error .running := by
  rintro rfl
  cases h

end Rules

structure Inside (src : List UInt8) (b : PxBit) : Prop where
  bit_lt : b.bitpos < 8
  index_le : b.index ≤ 8 * src.length

section Reading

variable {src : List UInt8} {b : PxBit}

theorem pbBit_tame (h : Inside src b) :
    Tame (fun r => Inside src r.2 ∧ r.2.index = b.index + 1) (pbBit src b) := by
  refine tame_ite (fun _ => .fail _) fun hlt => ?_
  have hget : src[b.pos]? = some src[b.pos] := getElem?_eq_getElem (Nat.not_le.mp hlt)
  have hbit := h.bit_lt
  rw [byteAt_eq hget]
  refine .ok ⟨⟨?_, ?_⟩, PxBit.index_next⟩
  · change b.next.bitpos < 8
    unfold PxBit.next
    split_ifs <;> simp only <;> omega
  · change b.next.index ≤ _
    rw [PxBit.index_next, PxBit.index]
    omega

theorem pbLoop_tame (n i v : ℕ) {b : PxBit} (h : Inside src b) :
    Tame (fun r => Inside src r.2 ∧ r.2.index = b.index + n) (pbLoop src n i v b) := by
  induction n generalizing i v b with
  | zero => exact .ok ⟨h, rfl⟩
  | succ n ih =>
    refine (pbBit_tame h).bind ?_
    rintro ⟨bit, b₁⟩ ⟨hin, hindex⟩
    refine (ih (i + 1) _ hin).mono fun r hr => ⟨hr.1, ?_⟩
    omega

theorem pbGet_tame (n : ℕ) (h : Inside src b) :
    Tame (fun r => Inside src r.2 ∧ r.2.index = b.index + n) (pbGet src n b) :=
  pbLoop_tame n 0 0 h

theorem inside_of_pbGet {v : ℕ} (h : Inside src b) (hget : pbGet src n b = .ok (v, b')) :
    Inside src b' := ((pbGet_tame n h).of_ok hget).1

theorem huffLoop_tame (n : ℕ) (t : Trie ℕ) {b : PxBit} (h : Inside src b) :
    Tame (fun r => Inside src r.2 ∧ b.index < r.2.index) (huffLoop src n t b) := by
  induction n generalizing t b with
  | zero => exact .fail _
  | succ n ih =>
    refine (pbGet_tame 1 h).bind ?_
    rintro ⟨bi, b₁⟩ ⟨hin, hindex⟩
    simp only at hin hindex ⊢
    cases t.child (bi.testBit 0) with
    | nil => exact .fail _
    | node label zero one =>
      cases label with
      | some s => exact .ok ⟨hin, by simp only; omega⟩
      | none => exact (ih _ hin).mono fun r hr => ⟨hr.1, by have hnext := hr.2; omega⟩

theorem defHuff_tame (t : Trie ℕ) (h : Inside src b) :
    Tame (fun r => Inside src r.2 ∧ b.index < r.2.index) (defHuff src t b) := huffLoop_tame 15 t h

theorem defBuild_tame {lens : List ℕ} : Tame (fun _ => True) (defBuild lens) := by
  unfold defBuild
  cases buildLoop lens 0 (nextCodes (cnt lens)) (.node none .nil .nil) 1 with
  | none => exact .fail _
  | some t => exact .ok trivial

def Onward (src : List UInt8) (b : PxBit) (b' : PxBit) : Prop :=
  Inside src b' ∧ b.index ≤ b'.index

theorem Onward.trans {b₁ b₂ : PxBit} (h : Onward src b b₁) (h' : Onward src b₁ b₂) :
    Onward src b b₂ := ⟨h'.1, h.2.trans h'.2⟩

theorem pbGet_onward (n : ℕ) (h : Inside src b) :
    Tame (fun r => Onward src b r.2) (pbGet src n b) :=
  (pbGet_tame n h).mono fun _ hr => ⟨hr.1, by rw [hr.2]; exact le_add_right _ _⟩

theorem defHuff_onward (t : Trie ℕ) (h : Inside src b) :
    Tame (fun r => Onward src b r.2) (defHuff src t b) :=
  (defHuff_tame t h).mono fun _ hr => ⟨hr.1, hr.2.le⟩

theorem readCcode_tame (order ccode : List ℕ) {b : PxBit} (h : Inside src b) :
    Tame (fun r => Onward src b r.2) (readCcode src order ccode b) := by
  induction order generalizing ccode b with
  | nil => exact .ok ⟨h, le_rfl⟩
  | cons s order ih =>
    refine (pbGet_onward 3 h).bind ?_
    rintro ⟨v, b₁⟩ hon
    exact (ih (ccode.set s v) hon.1).mono fun r hr => hon.trans hr

theorem repeatLen_tame (total v k : ℕ) (all : List ℕ) :
    Tame (fun all' => all'.length = all.length + k) (repeatLen total v k all) := by
  induction k generalizing all with
  | zero => exact .ok rfl
  | succ k ih =>
    refine tame_ite (fun _ => .fail _) fun _ => ?_
    refine (ih (all ++ [v])).mono fun all' hlength => ?_
    rw [hlength, length_append, length_singleton]
    omega

theorem repeatField_tame (total v nbits : ℕ) {least : ℕ} (hleast : 0 < least) (all : List ℕ)
    (h : Inside src b) :
    Tame (fun r => all.length < r.1.length ∧ Onward src b r.2)
      (repeatField src total v nbits least all b) := by
  refine (pbGet_onward nbits h).bind ?_
  rintro ⟨rep, b₁⟩ hon
  refine (repeatLen_tame total v (rep + least) all).bind ?_
  intro all' hlength
  exact .ok ⟨by simp only; omega, hon⟩

theorem lensTurn_tame (total s : ℕ) (all : List ℕ) (h : Inside src b) :
    Tame (fun r => all.length < r.1.length ∧ Onward src b r.2) (lensTurn src total s all b) := by
  refine tame_ite (fun _ => .ok ⟨by simp, h, le_rfl⟩) fun _ => ?_
  refine tame_ite (fun _ => ?_) fun _ => tame_ite (fun _ => ?_) fun _ => ?_
  · cases all.getLast? with
    | none => exact .fail _
    | some prv => exact repeatField_tame total prv 2 (by norm_num) all h
  · exact repeatField_tame total 0 3 (by norm_num) all h
  · exact repeatField_tame total 0 7 (by norm_num) all h

theorem lensLoop_tame (dcl : Trie ℕ) (total turns : ℕ) (all : List ℕ) {b : PxBit} (h : Inside src b)
    (hturns : total ≤ all.length + turns) :
    Tame (fun r => Onward src b r.2) (lensLoop src dcl total turns all b) := by
  induction turns generalizing all b with
  | zero =>
    unfold lensLoop
    rw [if_pos (by omega)]
    exact .ok ⟨h, le_rfl⟩
  | succ turns ih =>
    refine tame_ite (fun _ => .ok ⟨h, le_rfl⟩) fun _ => ?_
    refine (defHuff_onward dcl h).bind ?_
    rintro ⟨s, b₁⟩ hon
    refine (lensTurn_tame total s all hon.1).bind ?_
    rintro ⟨all₁, b₂⟩ ⟨hgrow, hon₂⟩
    simp only at hgrow
    exact (ih all₁ hon₂.1 (by omega)).mono fun r hr => (hon.trans hon₂).trans hr

theorem readTrees_tame (h : Inside src b) :
    Tame (fun r => Onward src b r.2.2) (readTrees src b) := by
  refine (pbGet_onward 5 h).bind ?_
  rintro ⟨hlit, b₁⟩ hon₁
  refine (pbGet_onward 5 hon₁.1).bind ?_
  rintro ⟨hdist, b₂⟩ hon₂
  refine (pbGet_onward 4 hon₂.1).bind ?_
  rintro ⟨hcl, b₃⟩ hon₃
  refine (readCcode_tame _ _ hon₃.1).bind ?_
  rintro ⟨ccode, b₄⟩ hon₄
  refine defBuild_tame.bind fun dcl _ => ?_
  refine (lensLoop_tame dcl _ _ [] hon₄.1 (by simp)).bind ?_
  rintro ⟨all, b₅⟩ hon₅
  refine defBuild_tame.bind fun dlit _ => defBuild_tame.bind fun ddist _ => ?_
  exact .ok ((((hon₁.trans hon₂).trans hon₃).trans hon₄).trans hon₅)

variable {dcap : ℕ}

theorem emit_tame {out : List UInt8} (v : UInt8) (h : out.length < dcap) :
    Tame (fun out' => out'.length = out.length + 1) (emit dcap out v) := by
  rw [emit_eq v h]
  exact .ok length_append

theorem copyBack_tame (k srcp : ℕ) {out : List UInt8} (hback : srcp < out.length ∨ k = 0)
    (hfits : out.length + k ≤ dcap) :
    Tame (fun out' => out'.length = out.length + k) (copyBack dcap k srcp out) := by
  induction k generalizing srcp out with
  | zero => exact .ok rfl
  | succ k ih =>
    have hlt : srcp < out.length := hback.resolve_right (Nat.succ_ne_zero k)
    simp only [copyBack, getElem?_eq_getElem hlt]
    refine (emit_tame _ (by omega)).bind fun out₁ hlength => ?_
    exact (ih (srcp + 1) (by omega) (by omega)).mono fun out' hout => by omega

def Settled (src : List UInt8) (dcap : ℕ) (b : PxBit) (r : PxBit × List UInt8) : Prop :=
  Onward src b r.1 ∧ r.2.length ≤ dcap

theorem defMatch_tame (ddist : Trie ℕ) (s : ℕ) {out : List UInt8} (h : Inside src b)
    (hout : out.length ≤ dcap) : Tame (Settled src dcap b) (defMatch src dcap ddist s b out) := by
  unfold defMatch
  refine tame_ite (fun _ => .fail _) fun _ => ?_
  refine (pbGet_onward _ h).bind ?_
  rintro ⟨ext, b₁⟩ hon₁
  refine (defHuff_onward ddist hon₁.1).bind ?_
  rintro ⟨dsym, b₂⟩ hon₂
  refine tame_ite (fun _ => .fail _) fun _ => ?_
  refine (pbGet_onward _ hon₂.1).bind ?_
  rintro ⟨dext, b₃⟩ hon₃
  refine tame_ite (fun _ => .fail _) fun hgood => ?_
  refine (copyBack_tame _ _ (by omega) (by omega)).bind fun out₁ hlength => ?_
  exact .ok ⟨(hon₁.trans hon₂).trans hon₃, by simp only; omega⟩

theorem codesLoop_tame (dlit ddist : Trie ℕ) (turns : ℕ) {b : PxBit} {out : List UInt8}
    (h : Inside src b) (hout : out.length ≤ dcap) (hturns : 8 * src.length < b.index + turns) :
    Tame (Settled src dcap b) (codesLoop src dcap dlit ddist turns b out) := by
  induction turns generalizing b out with
  | zero => exact absurd h.index_le (Nat.not_le.mpr hturns)
  | succ turns ih =>
    refine (defHuff_tame dlit h).bind ?_
    rintro ⟨s, b₁⟩ ⟨hin, hmoved⟩
    simp only at hin hmoved ⊢
    refine tame_ite (fun _ => .ok ⟨⟨hin, hmoved.le⟩, hout⟩) fun _ =>
      tame_ite (fun _ => ?_) fun _ => ?_
    · refine tame_ite (fun _ => .fail _) fun hroom => ?_
      refine (emit_tame _ (Nat.not_le.mp hroom)).bind fun out₁ hlength => ?_
      refine (ih hin (by omega) (by omega)).mono fun r hr => ⟨?_, hr.2⟩
      exact ⟨hr.1.1, hmoved.le.trans hr.1.2⟩
    · refine (defMatch_tame ddist s hin hout).bind ?_
      rintro ⟨b₂, out₂⟩ ⟨hon, hout₂⟩
      have hle := hon.2
      simp only at hle
      refine (ih hon.1 hout₂ (by simp only; omega)).mono fun r hr => ⟨?_, hr.2⟩
      exact ⟨hr.1.1, (hmoved.le.trans hle).trans hr.1.2⟩

theorem codes_tame (dlit ddist : Trie ℕ) {out : List UInt8} (h : Inside src b)
    (hout : out.length ≤ dcap) : Tame (Settled src dcap b) (codes src dcap dlit ddist b out) :=
  codesLoop_tame dlit ddist _ h hout (by omega)

end Reading

section Stored

variable {src : List UInt8} {b : PxBit} {dcap : ℕ} {out : List UInt8}

def field16 (src : List UInt8) (i : ℕ) : ℕ :=
  (src.getD i 0).toNat ||| (src.getD (i + 1) 0).toNat <<< 8

def HeaderOk (src : List UInt8) (dcap : ℕ) (pos : ℕ) (out : List UInt8) : Prop :=
  field16 src pos ^^^ 0xFFFF = field16 src (pos + 2) ∧ field16 src pos ≤ dcap - out.length

def StoredWraps (src : List UInt8) (dcap : ℕ) (b : PxBit) (out : List UInt8) : Prop :=
  2 ^ 32 ≤ b.aligned + 4 ∨ (b.aligned + 4 ≤ src.length ∧ HeaderOk src dcap b.aligned out ∧
      2 ^ 32 ≤ b.aligned + 4 + field16 src b.aligned)

theorem Inside.aligned_le (h : Inside src b) : b.aligned ≤ src.length ∧
    b.index ≤ 8 * b.aligned := by
  have hbit := h.bit_lt
  have hindex := h.index_le
  unfold PxBit.index at hindex ⊢
  unfold PxBit.aligned
  split_ifs <;> omega

theorem byteAt_getD (hi : i < src.length) : byteAt src i = .ok (src.getD i 0).toNat := by
  rw [getD_eq_getElem src 0 hi]
  exact byteAt_eq (getElem?_eq_getElem hi)

theorem byteAt_wild (hi : src.length ≤ i) : byteAt src i = .error .wild := by
  rw [byteAt, getElem?_eq_none hi]

variable (hsmall : src.length < 2 ^ 32)
include hsmall

theorem byteAt_wrap (hi : i < src.length) : byteAt src (wrap32 i) = .ok (src.getD i 0).toNat := by
  rw [wrap32_eq (by omega)]
  exact byteAt_getD hi

theorem copyStored_tame (k i : ℕ) {out : List UInt8} (hin : i + k ≤ src.length)
    (hfits : out.length + k ≤ dcap) :
    Tame (fun out' => out'.length = out.length + k) (copyStored src dcap k i out) := by
  induction k generalizing i out with
  | zero => exact .ok rfl
  | succ k ih =>
    simp only [copyStored, byteAt_wrap hsmall (show i < src.length by omega)]
    refine (emit_tame _ (by omega)).bind fun out₁ hlength => ?_
    exact (ih (i + 1) (by omega) (by omega)).mono fun out' hout => by omega

/-- A copy that goes beyond the end of the input gets there. -/
theorem copyStored_wild (k i : ℕ) {out : List UInt8} (hin : i ≤ src.length)
    (hout : src.length < i + k) (hfits : out.length + k ≤ dcap) :
    copyStored src dcap k i out = .error .wild := by
  induction k generalizing i out with
  | zero => omega
  | succ k ih =>
    rw [copyStored]
    by_cases hi : i < src.length
    · rw [byteAt_wrap hsmall hi, ok_bind, emit_eq _ (by omega)]
      exact ih (i + 1) hi (by omega) (by rw [length_append, length_singleton]; omega)
    · rw [wrap32_eq (by omega), byteAt_wild (Nat.not_lt.mp hi)]
      rfl

theorem stored_header (hin : b.aligned + 4 ≤ src.length) :
    stored src dcap b out = if field16 src b.aligned ^^^ 0xFFFF ≠ field16 src (b.aligned + 2) ∨
          dcap - out.length < field16 src b.aligned then .error (.fail (-1))
      else if src.length < wrap32 (b.aligned + 4 + field16 src b.aligned) then .error (.fail (-1))
      else do
        let out ← copyStored src dcap (field16 src b.aligned) (b.aligned + 4) out
        return (⟨wrap32 (b.aligned + 4 + field16 src b.aligned), 0⟩, out) := by
  have hheader : ¬ src.length < wrap32 (b.aligned + 4) := by
    rw [wrap32_eq (by omega)]
    omega
  unfold stored
  simp only [if_neg hheader]
  rw [byteAt_wrap hsmall (by omega), byteAt_wrap hsmall (by omega), byteAt_wrap hsmall (by omega),
    byteAt_wrap hsmall (by omega)]
  rfl

omit hsmall in
theorem field16_lt (src : List UInt8) (i : ℕ) : field16 src i < 2 ^ 16 := by
  have hlow := (src.getD i 0).toNat_lt
  have hhigh := (src.getD (i + 1) 0).toNat_lt
  apply Nat.or_lt_two_pow
  · omega
  · rw [Nat.shiftLeft_eq]
    omega

theorem stored_tame (h : Inside src b) (hout : out.length ≤ dcap)
    (hfits : ¬ StoredWraps src dcap b out) :
    Tame (fun r => Inside src r.1 ∧ b.index < r.1.index ∧ r.2.length ≤ dcap)
      (stored src dcap b out) := by
  obtain ⟨hle, hindex⟩ := h.aligned_le
  have hnarrow : b.aligned + 4 < 2 ^ 32 := by
    by_contra hwide
    exact hfits (.inl (Nat.not_lt.mp hwide))
  by_cases hin : b.aligned + 4 ≤ src.length
  · rw [stored_header hsmall hin]
    refine tame_ite (fun _ => .fail _) fun hgood => ?_
    have hend : b.aligned + 4 + field16 src b.aligned < 2 ^ 32 := by
      by_contra hwide
      exact hfits (.inr ⟨hin, ⟨by omega, by omega⟩, Nat.not_lt.mp hwide⟩)
    rw [wrap32_eq hend]
    refine tame_ite (fun _ => .fail _) fun hbody => ?_
    refine (copyStored_tame hsmall _ _ (by omega) (by omega)).bind fun out₁ hlength => ?_
    refine .ok ⟨⟨by norm_num, ?_⟩, ?_, ?_⟩
    · unfold PxBit.index
      simp only
      omega
    · change b.index < 8 * (b.aligned + 4 + field16 src b.aligned) + 0
      omega
    · simp only
      omega
  · unfold stored
    dsimp only
    rw [wrap32_eq hnarrow, if_pos (Nat.not_le.mp hin)]
    exact .fail _

/-- A sum that wraps passes the check, and the copy reads beyond the input. -/
theorem stored_wild (h : Inside src b) (hout : out.length ≤ dcap)
    (hwraps : StoredWraps src dcap b out) : stored src dcap b out = .error .wild := by
  obtain ⟨hle, -⟩ := h.aligned_le
  rcases hwraps with hheader | ⟨hin, hok, hbody⟩
  · -- the input ends within the four bytes
    obtain ⟨i, hi⟩ := Nat.exists_eq_add_of_le hle
    have hcheck : ¬ src.length < wrap32 (b.aligned + 4) := by
      unfold wrap32
      omega
    have hbeyond : byteAt src (wrap32 (b.aligned + i)) = .error .wild := by
      rw [wrap32_eq (by omega)]
      exact byteAt_wild hi.le
    unfold stored
    simp only [if_neg hcheck]
    match i with
    | 0 =>
      rw [show byteAt src (wrap32 b.aligned) = .error .wild from hbeyond]
      rfl
    | 1 =>
      rw [byteAt_wrap hsmall (by omega), hbeyond]
      rfl
    | 2 =>
      rw [byteAt_wrap hsmall (by omega), byteAt_wrap hsmall (by omega), hbeyond]
      rfl
    | 3 =>
      rw [byteAt_wrap hsmall (by omega), byteAt_wrap hsmall (by omega),
        byteAt_wrap hsmall (by omega), hbeyond]
      rfl
    | i + 4 => omega
  · have hlt := field16_lt src b.aligned
    rw [stored_header hsmall hin, if_neg (by have h₁ := hok.1; have h₂ := hok.2; omega), if_neg,
      copyStored_wild hsmall _ _ hin (by omega) (by have h₂ := hok.2; omega)]
    · rfl
    · unfold wrap32
      omega

end Stored

section Blocks

variable {src : List UInt8} {dcap : ℕ}

def BlockWraps (src : List UInt8) (dcap : ℕ) (b : PxBit) (out : List UInt8) : Prop :=
  ∃ fin b₁ b₂, pbGet src 1 b = .ok (fin, b₁) ∧ pbGet src 2 b₁ = .ok (0, b₂) ∧
    StoredWraps src dcap b₂ out

structure Between (src : List UInt8) (dcap : ℕ) (b : PxBit) (out : List UInt8) : Prop where
  inside : Inside src b
  room : out.length ≤ dcap

inductive Reaches (src : List UInt8) (dcap : ℕ) : PxBit → List UInt8 → Prop where
  | start : Reaches src dcap ⟨0, 0⟩ []
  | step {b b' : PxBit} {out out' : List UInt8} (h : Reaches src dcap b out)
      (hblock : block src dcap b out = .ok (false, b', out')) : Reaches src dcap b' out'

def NeverWraps (src : List UInt8) (dcap : ℕ) : Prop :=
  ∀ b out, Reaches src dcap b out → ¬ BlockWraps src dcap b out

variable {b : PxBit} {out : List UInt8}

theorem Reaches.turns (h : Reaches src dcap b out) :
    ∃ k, ∀ n, defInflate (n + k) src dcap = blocksLoop src dcap n b out := by
  induction h with
  | start => exact ⟨0, fun n => rfl⟩
  | step h hblock ih =>
    obtain ⟨k, hk⟩ := ih
    refine ⟨k + 1, fun n => ?_⟩
    rw [← add_assoc, add_right_comm, hk (n + 1)]
    simp only [blocksLoop, hblock]
    rfl

variable (hsmall : src.length < 2 ^ 32)
include hsmall

/-- A block ends behind where it began, so the loop comes to an end. -/
theorem block_tame (h : Between src dcap b out) (hfits : ¬ BlockWraps src dcap b out) :
    Tame (fun r => Between src dcap r.2.1 r.2.2 ∧ b.index < r.2.1.index)
      (block src dcap b out) := by
  refine tame_ite (fun _ => .fail _) fun _ => ?_
  refine (pbGet_tame 1 h.inside).bind_of_eq ?_
  rintro ⟨fin, b₁⟩ hfin ⟨hin₁, hindex₁⟩
  refine (pbGet_tame 2 hin₁).bind_of_eq ?_
  rintro ⟨type, b₂⟩ htype ⟨hin₂, hindex₂⟩
  simp only at hin₁ hindex₁ hin₂ hindex₂ ⊢
  -- the symbols of a block leave the reader behind its header
  have hcodes : ∀ dlit ddist b₃, Onward src b₂ b₃ →
      Tame (fun r => Between src dcap r.2.1 r.2.2 ∧ b.index < r.2.1.index)
        (codes src dcap dlit ddist b₃ out >>= fun r => pure (fin.testBit 0, r.1, r.2)) := by
    intro dlit ddist b₃ hon
    refine (codes_tame dlit ddist hon.1 h.room).bind ?_
    rintro ⟨b₄, out₁⟩ ⟨hon', hroom⟩
    have hle := (hon.trans hon').2
    simp only at hle
    exact .ok ⟨⟨hon'.1, hroom⟩, by simp only; omega⟩
  refine tame_ite (fun hzero => ?_) fun _ => tame_ite (fun _ => ?_) fun _ =>
    tame_ite (fun _ => ?_) fun _ => .fail _
  · have hnot : ¬ StoredWraps src dcap b₂ out := by
      intro hwraps
      rw [hzero] at htype
      exact hfits ⟨fin, b₁, b₂, hfin, htype, hwraps⟩
    refine (stored_tame hsmall hin₂ h.room hnot).bind ?_
    rintro ⟨b₃, out₁⟩ ⟨hin₃, hmoved, hroom⟩
    simp only at hmoved
    exact .ok ⟨⟨hin₃, hroom⟩, by simp only; omega⟩
  · refine defBuild_tame.bind fun dlit _ => defBuild_tame.bind fun ddist _ => ?_
    exact hcodes dlit ddist b₂ ⟨hin₂, le_rfl⟩
  · refine (readTrees_tame hin₂).bind ?_
    rintro ⟨dlit, ddist, b₃⟩ hon
    exact hcodes dlit ddist b₃ hon

theorem block_wild (h : Between src dcap b out) (hwraps : BlockWraps src dcap b out) :
    block src dcap b out = .error .wild := by
  obtain ⟨fin, b₁, b₂, hfin, htype, hstored⟩ := hwraps
  have hin₂ := inside_of_pbGet (inside_of_pbGet h.inside hfin) htype
  have hbefore : ¬ src.length ≤ b.pos := by
    intro hend
    simp only [pbGet, pbLoop, pbBit, if_pos hend] at hfin
    cases hfin
  simp only [block, if_neg hbefore, hfin, ok_bind, htype, stored_wild hsmall hin₂ h.room hstored]
  rfl

theorem block_between {out' : List UInt8} {fin : Bool} (h : Between src dcap b out)
    (hblock : block src dcap b out = .ok (fin, b', out')) :
    Between src dcap b' out' := by
  have hfits : ¬ BlockWraps src dcap b out := by
    intro hwraps
    rw [block_wild hsmall h hwraps] at hblock
    cases hblock
  exact ((block_tame hsmall h hfits).of_ok hblock).1

theorem Reaches.between (h : Reaches src dcap b out) : Between src dcap b out := by
  induction h with
  | start => exact ⟨⟨by norm_num, zero_le _⟩, zero_le _⟩
  | step h hblock ih => exact block_between hsmall ih hblock

theorem blocksLoop_tame (hnever : NeverWraps src dcap) (turns : ℕ) (h : Reaches src dcap b out)
    (hturns : 8 * src.length < b.index + turns) :
    Tame (fun _ => True) (blocksLoop src dcap turns b out) := by
  induction turns generalizing b out with
  | zero => exact absurd (h.between hsmall).inside.index_le (Nat.not_le.mpr hturns)
  | succ turns ih =>
    refine (block_tame hsmall (h.between hsmall) (hnever b out h)).bind_of_eq ?_
    rintro ⟨fin, b₁, out₁⟩ hblock ⟨-, hmoved⟩
    simp only at hmoved ⊢
    cases fin with
    | true => exact .ok trivial
    | false => exact ih (h.step hblock) (by omega)

/-- However few turns it gets, the decompressor stays inside the buffers. -/
theorem blocksLoop_ne_wild (hnever : NeverWraps src dcap) (turns : ℕ) (h : Reaches src dcap b out) :
    blocksLoop src dcap turns b out ≠ .error .wild := by
  induction turns generalizing b out with
  | zero =>
    intro heq
    cases heq
  | succ turns ih =>
    have htame := block_tame hsmall (h.between hsmall) (hnever b out h)
    unfold blocksLoop
    cases hblock : block src dcap b out with
    | error e =>
      rw [hblock] at htame
      intro heq
      cases htame with
      | fail code => cases heq
    | ok r =>
      obtain ⟨fin, b₁, out₁⟩ := r
      cases fin with
      | true =>
        intro heq
        cases heq
      | false => exact ih (h.step hblock)

end Blocks

structure Source where
  bytes : List UInt8
  fits : bytes.length < 2 ^ 32

/-- Valid streams that fit are decompressed, every run ends, and it stays inside the two buffers. -/
structure Keeps (src : List UInt8) (dcap : ℕ) : Prop where
  valid : ∀ data, Valid src data → data.length ≤ dcap →
    ∃ turns, defInflate turns src dcap = .ok data
  ends : ∃ turns, defInflate turns src dcap ≠ .error .running
  inside : ∀ turns, defInflate turns src dcap ≠ .error .wild

/-- The promise is kept on exactly those inputs where no stored block wraps around. -/
theorem defInflate_keeps_iff (src : Source) (dcap : ℕ) :
    Keeps src.bytes dcap ↔ NeverWraps src.bytes dcap := by
  constructor
  · intro hkeeps b out hreach hwraps
    obtain ⟨k, hk⟩ := hreach.turns
    apply hkeeps.inside (1 + k)
    rw [hk 1]
    simp only [blocksLoop, block_wild src.fits (hreach.between src.fits) hwraps]
    rfl
  · intro hnever
    refine ⟨fun data hvalid hfits => ?_, ?_, fun turns => ?_⟩
    · exact ⟨_, defInflate_valid src.fits hvalid hfits le_rfl⟩
    · refine ⟨8 * src.bytes.length + 1, ?_⟩
      exact (blocksLoop_tame src.fits hnever _ .start
        (by simp only [PxBit.index]; omega)).ne_running
    · exact blocksLoop_ne_wild src.fits hnever turns .start

def storedBlock (data : List UInt8) : List UInt8 :=
  [0, UInt8.ofNat data.length, UInt8.ofNat (data.length / 2 ^ 8),
    UInt8.ofNat (2 ^ 16 - 1 - data.length),
      UInt8.ofNat ((2 ^ 16 - 1 - data.length) / 2 ^ 8)] ++ data

theorem octets_append (xs ys : List UInt8) : octets (xs ++ ys) = octets xs ++ octets ys :=
  flatMap_append

theorem octets_storedBlock (data : List UInt8) :
    octets (storedBlock data) = false :: (word 2 0 ++ (replicate 5 false ++
      (word 16 data.length ++ (word 16 (2 ^ 16 - 1 - data.length) ++ octets data)))) := by
  rw [word_sixteen, word_sixteen]
  have hfirst : octets [0] = false :: (word 2 0 ++ replicate 5 false) := by decide
  have hsplit : storedBlock data = [0] ++ ([UInt8.ofNat data.length,
      UInt8.ofNat (data.length / 2 ^ 8)] ++ ([UInt8.ofNat (2 ^ 16 - 1 - data.length),
        UInt8.ofNat ((2 ^ 16 - 1 - data.length) / 2 ^ 8)] ++ data)) := rfl
  rw [hsplit, octets_append, octets_append, octets_append, hfirst]
  simp

theorem storedBlock_length (data : List UInt8) : (storedBlock data).length = 5 + data.length := by
  simp only [storedBlock, length_append, length_cons, length_nil]

section Wrapping

variable {src : List UInt8} {dcap : ℕ}

theorem at_append (hsrc : src = pre ++ post) : At src ⟨pre.length, 0⟩ (octets post) := by
  refine ⟨by norm_num, ?_, ?_⟩
  · rw [hsrc, length_append]
    change 8 * pre.length + 0 ≤ _
    omega
  · rw [hsrc, drop_left, drop_zero]

theorem Reaches.stored (hsmall : src.length < 2 ^ 32) {data out : List UInt8}
    (hsrc : src = pre ++ (storedBlock data ++ post)) (hlen : data.length < 2 ^ 16)
    (hfits : (out ++ data).length ≤ dcap) (h : Reaches src dcap ⟨pre.length, 0⟩ out) :
    Reaches src dcap ⟨pre.length + (5 + data.length), 0⟩ (out ++ data) := by
  have hat := at_append hsrc
  rw [octets_append, octets_storedBlock] at hat
  have hblock : Block ((⟨pre.length, 0⟩ : PxBit).index + 1) out
    (word 2 0 ++ (replicate 5 false ++
      (word 16 data.length ++ (word 16 (2 ^ 16 - 1 - data.length) ++ octets data))))
        (out ++ data) :=
    .stored out data _ (by simp) (by simp [PxBit.index]; omega) hlen
  obtain ⟨b', hstep, hat'⟩ := block_eq hsmall false hblock hfits hat
  have hplace : b' = ⟨pre.length + (5 + data.length), 0⟩ := by
    have hlength := hat'.length
    have hbit := hat'.bit_lt
    rw [octets_length, hsrc, length_append, length_append, storedBlock_length,
      PxBit.index] at hlength
    obtain ⟨pos, bitpos⟩ := b'
    simp only at hlength hbit
    simp only [PxBit.mk.injEq]
    omega
  exact hplace ▸ h.step hstep

def emptyBlocks (n : ℕ) : List UInt8 :=
  storedBlock [0, 0, 0] ++ (replicate n (storedBlock [])).flatten ++ [0, 0]

theorem flatten_empty_length (n : ℕ) : (replicate n (storedBlock [])).flatten.length = 5 * n := by
  induction n with
  | zero => rfl
  | succ n ih =>
    rw [replicate_succ, flatten_cons, length_append, storedBlock_length, length_nil]
    omega

theorem front_length (n : ℕ) :
    (storedBlock [0, 0, 0] ++ (replicate n (storedBlock [])).flatten).length = 8 + 5 * n := by
  rw [length_append, flatten_empty_length]
  rfl

theorem emptyBlocks_length (n : ℕ) : (emptyBlocks n).length = 10 + 5 * n := by
  rw [emptyBlocks, length_append, front_length, length_cons, length_singleton]
  omega

theorem emptyBlocks_reaches (hsmall : (emptyBlocks n).length < 2 ^ 32) (k : ℕ) (hk : k ≤ n) :
    Reaches (emptyBlocks n) 3 ⟨8 + 5 * k, 0⟩ [0, 0, 0] := by
  induction k with
  | zero =>
    have hsrc : emptyBlocks n = [] ++ (storedBlock [0, 0, 0] ++
        ((replicate n (storedBlock [])).flatten ++ [0, 0])) := by
      rw [emptyBlocks, nil_append, append_assoc]
    exact Reaches.stored hsmall hsrc (by norm_num) (by decide) .start
  | succ k ih =>
    obtain ⟨m, rfl⟩ := Nat.exists_eq_add_of_le hk
    have hsrc : emptyBlocks (k + 1 + m) =
        (storedBlock [0, 0, 0] ++ (replicate k (storedBlock [])).flatten) ++
          (storedBlock [] ++ ((replicate m (storedBlock [])).flatten ++ [0, 0])) := by
      rw [emptyBlocks, replicate_add, replicate_add]
      simp
    have hbefore := ih (by omega)
    rw [← front_length] at hbefore
    have hnext := Reaches.stored hsmall hsrc (by norm_num) (by simp) hbefore
    rw [front_length] at hnext
    simpa [mul_add, add_assoc] using hnext

theorem emptyBlocks_wraps (hn : 8 + 5 * n = 2 ^ 32 - 3) :
    BlockWraps (emptyBlocks n) 3 ⟨8 + 5 * n, 0⟩ [0, 0, 0] := by
  have hat : At (emptyBlocks n) ⟨8 + 5 * n, 0⟩
    (word 1 0 ++ (word 2 0 ++ replicate 13 false)) := by
    rw [← front_length]
    exact at_append rfl
  obtain ⟨b₁, hfin, hat₁, hindex₁⟩ := hat.get (by norm_num)
  obtain ⟨b₂, htype, hat₂, hindex₂⟩ := hat₁.get (by norm_num)
  refine ⟨0, b₁, b₂, hfin, htype, .inl ?_⟩
  have hbit := hat₂.bit_lt
  unfold PxBit.index at hindex₁ hindex₂
  unfold PxBit.aligned
  split_ifs <;> simp only at hindex₁ <;> omega

theorem emptyBlocks_wild (hn : 8 + 5 * n = 2 ^ 32 - 3) :
    ∃ turns, defInflate turns (emptyBlocks n) 3 = .error .wild := by
  have hsmall : (emptyBlocks n).length < 2 ^ 32 := by
    rw [emptyBlocks_length]
    omega
  have hreach := emptyBlocks_reaches hsmall n le_rfl
  obtain ⟨k, hk⟩ := hreach.turns
  refine ⟨1 + k, ?_⟩
  rw [hk 1]
  simp only [blocksLoop, block_wild hsmall (hreach.between hsmall) (emptyBlocks_wraps hn)]
  rfl

end Wrapping

/-- An input of `2 ^ 32 - 1` bytes is read beyond its end. -/
theorem emptyBlocks_read_outside :
    (emptyBlocks 858993457).length = 2 ^ 32 - 1 ∧
      ∃ turns, defInflate turns (emptyBlocks 858993457) 3 = .error .wild := by
  refine ⟨?_, emptyBlocks_wild (by norm_num)⟩
  rw [emptyBlocks_length]
  norm_num

end Vnu.Px
