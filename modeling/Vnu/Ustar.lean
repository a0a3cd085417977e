import Mathlib.Data.List.GetD
import Mathlib.Logic.Relation
import Mathlib.Tactic.NormNum

/-!
The reader of the initial ramdisk, a ustar archive in memory. A walk moves forward and stays inside
the image exactly when the two sums it checks do not wrap around modulo `2 ^ 64`.
-/
namespace Vnu.Ustar

open Option List

variable {off next : ℕ}

structure Image where
  bytes : List UInt8
  fits : bytes.length < 2 ^ 64

def Image.size (img : Image) : ℕ := img.bytes.length

structure Entry where
  name : List UInt8
  /-- Where the data of a regular file starts in the image; none for a directory. -/
  data : Option ℕ
  size : ℕ
  mode : UInt32
  type : UInt8
  deriving DecidableEq, Repr

def space : UInt8 := 32
def dot : UInt8 := 46
def slash : UInt8 := 47
def regular : UInt8 := 48
def directory : UInt8 := 53

def octal : List UInt8 → Option UInt64
  | [] => none
  | b :: rest =>
    if b &&& 0x80 ≠ 0 then
      some (rest.foldl (fun v c => v <<< 8 ||| c.toUInt64) (b &&& 0x7f).toUInt64)
    else
      let digits := (b :: rest).dropWhile fun c => c == space || c == 48
      let isOctal := fun c : UInt8 => 48 ≤ c && c ≤ 55
      if (digits.dropWhile isOctal).all fun c => c == space || c == 0 then
        some ((digits.takeWhile isOctal).foldl (fun v c => v <<< 3 ||| (c - 48).toUInt64) 0)
      else none

def field (h : List UInt8) (start len : ℕ) : List UInt8 := (h.drop start).take len

def checksumOk (h : List UInt8) : Bool :=
  match octal (field h 148 8) with
  | none => false
  | some want =>
    let bytes := h.take 148 ++ replicate 8 space ++ h.drop 156
    let sum : UInt32 := bytes.foldl (fun acc b => acc + b.toUInt32) 0
    sum == want.toUInt32

def text (p : List UInt8) : List UInt8 := p.takeWhile (· ≠ 0)

def stripLead : List UInt8 → List UInt8
  | a :: b :: rest =>
    if a == dot && b == slash then stripLead rest
    else if a == slash then stripLead (b :: rest)
    else a :: b :: rest
  | [a] => if a == slash then [] else [a]
  | [] => []

/-- Prefix and name joined, in 260 bytes, and cut to 256. -/
def path (h : List UInt8) : List UInt8 :=
  let pre := text (field h 345 155)
  let joined := (if pre = [] then [] else pre ++ [slash]) ++ text (field h 0 100)
  (stripLead (joined.take 259)).take 255

def stripTrail (name : List UInt8) : List UInt8 := (name.reverse.dropWhile (· == slash)).reverse

@[irreducible] def wrap (n : ℕ) : ℕ := n % 2 ^ 64

def roundUp (size : ℕ) : ℕ := wrap (size + 511) / 512 * 512

inductive Visit where
  /-- The end of the archive. -/
  | stop
  | malformed
  | skip (next : ℕ)
  | member (next : ℕ) (e : Entry)
  deriving DecidableEq, Repr

def Image.header (img : Image) (off : ℕ) : List UInt8 := (img.bytes.drop off).take 512

def typeOf (h : List UInt8) : UInt8 := if h.getD 156 0 = 0 then regular else h.getD 156 0

def memberAt (img : Image) (off : ℕ) (h : List UInt8) (size : ℕ) : Visit :=
  let type := typeOf h
  let dataOff := wrap (off + 512)
  let next := wrap (dataOff + roundUp size)
  if img.size < wrap (dataOff + size) ∨ img.size < next then .malformed
  -- extension headers (`x`, `g`, `L`, `K`), links and devices
  else if type ≠ regular ∧ type ≠ directory then .skip next
  else
    .member next
      { name := if type = directory then stripTrail (path h) else path h
        data := if type = regular then some dataOff else none
        size := size
        mode := ((octal (field h 100 8)).getD 0).toUInt32
        type := type }

def visit (img : Image) (off : ℕ) : Visit :=
  if wrap (off + 512) ≤ img.size then
    let h := img.header off
    if h.all (· == 0) then .stop
    else if field h 257 5 ≠ [117, 115, 116, 97, 114] then .malformed
    else if checksumOk h = false then .malformed
    else
      match octal (field h 124 12) with
      | none => .malformed
      | some size => memberAt img off h size.toNat
  else .stop

def ustarNext (img : Image) : ℕ → ℕ → Option Visit
  | 0, _ => none
  | fuel + 1, off =>
    match visit img off with
    | .skip next => ustarNext img fuel next
    | v => some v

def unpack (img : Image) : ℕ → ℕ → Option (List Entry × Bool)
  | 0, _ => none
  | fuel + 1, off =>
    match ustarNext img (fuel + 1) off with
    | none => none
    | some (.member next e) => (unpack img fuel next).map fun r => (e :: r.1, r.2)
    | some .stop => some ([], true)
    | some _ => some ([], false)

def onward (img : Image) (off : ℕ) : Option ℕ :=
  match visit img off with
  | .skip next | .member next _ => some next
  | _ => none

def Reached (img : Image) (off : ℕ) : Prop :=
  Relation.ReflTransGen (fun a b => onward img a = some b) 0 off

structure Walks (img : Image) : Prop where
  forward : ∀ off next, Reached img off → onward img off = some next → off < next
  inside : ∀ off next e start, Reached img off → visit img off = .member next e →
    e.data = some start → start + e.size ≤ img.size
  ends : ∃ fuel, (unpack img fuel 0).isSome

def sizeAt (img : Image) (off : ℕ) : ℕ := ((octal (field (img.header off) 124 12)).getD 0).toNat

def Fits (img : Image) (off : ℕ) : Prop :=
  off + 512 + roundUp (sizeAt img off) < 2 ^ 64 ∧
    (typeOf (img.header off) = regular → off + 512 + sizeAt img off < 2 ^ 64)

theorem roundUp_le (size : ℕ) : roundUp size ≤ 2 ^ 64 - 512 := by
  unfold roundUp wrap
  omega

structure Passed (img : Image) (off next : ℕ) : Prop where
  next_eq : next = wrap (wrap (off + 512) + roundUp (sizeAt img off))
  next_le : next ≤ img.size
  end_le : wrap (wrap (off + 512) + sizeAt img off) ≤ img.size

theorem visit_onward {img : Image} (h : onward img off = some next) :
    visit img off = memberAt img off (img.header off) (sizeAt img off) := by
  unfold onward at h
  unfold visit at h ⊢
  unfold sizeAt
  simp only at h ⊢
  split_ifs at h ⊢
  cases hsize : octal (field (img.header off) 124 12) with
  | none =>
    simp only [hsize] at h
    cases h
  | some size => rfl

theorem passed_of_onward {img : Image} (h : onward img off = some next) : Passed img off next := by
  have hvisit := visit_onward h
  unfold onward at h
  rw [hvisit] at h
  unfold memberAt at h
  simp only at h
  split_ifs at h with hbad hskip
  all_goals
    obtain rfl := some.inj h
    rw [not_or, not_lt, not_lt] at hbad
    exact ⟨rfl, hbad.2, hbad.1⟩

theorem member_data {img : Image} {start : ℕ} {e : Entry}
    (h : visit img off = .member next e) (hdata : e.data = some start) :
    Passed img off next ∧ typeOf (img.header off) = regular ∧ start = wrap (off + 512) ∧
      e.size = sizeAt img off := by
  have honward : onward img off = some next := by
    unfold onward
    rw [h]
  have hvisit := visit_onward honward
  rw [h] at hvisit
  unfold memberAt at hvisit
  simp only at hvisit
  refine ⟨passed_of_onward honward, ?_⟩
  by_cases hreg : typeOf (img.header off) = regular
  · rw [if_pos hreg] at hvisit
    split_ifs at hvisit
    all_goals
      obtain ⟨-, rfl⟩ := Visit.member.inj hvisit
      exact ⟨hreg, (some.inj hdata).symm, rfl⟩
  · rw [if_neg hreg] at hvisit
    split_ifs at hvisit
    all_goals
      obtain ⟨-, rfl⟩ := Visit.member.inj hvisit
      cases hdata

theorem member_of_regular {img : Image} (h : onward img off = some next)
    (hreg : typeOf (img.header off) = regular) :
    ∃ e, visit img off = .member next e ∧ e.data = some (wrap (off + 512)) ∧
      e.size = sizeAt img off := by
  have hvisit := visit_onward h
  unfold onward at h
  rw [hvisit] at h ⊢
  unfold memberAt at h ⊢
  simp only [if_pos hreg] at h ⊢
  split_ifs at h ⊢ with hbad hskip
  · exact absurd hreg hskip.1
  all_goals
    obtain rfl := some.inj h
    exact ⟨_, rfl, rfl, rfl⟩

/-- The walk moves forward exactly when the end of the member does not wrap around. -/
theorem Passed.forward_iff {img : Image} (h : Passed img off next) (_ : off < 2 ^ 64) :
    off < next ↔ off + 512 + roundUp (sizeAt img off) < 2 ^ 64 := by
  have hround := roundUp_le (sizeAt img off)
  rw [h.next_eq]
  unfold wrap
  omega

theorem Passed.inside_iff {img : Image} (h : Passed img off next) (hroom : off + 512 < 2 ^ 64) :
    wrap (off + 512) + sizeAt img off ≤ img.size ↔ off + 512 + sizeAt img off < 2 ^ 64 := by
  have hsize : img.size < 2 ^ 64 := img.fits
  have hend := h.end_le
  unfold wrap at *
  omega

theorem Reached.le_size {img : Image} (h : Reached img off) : off ≤ img.size := by
  rcases Relation.ReflTransGen.cases_tail h with rfl | ⟨before, -, hlast⟩
  · exact Nat.zero_le _
  · exact (passed_of_onward hlast).next_le

section Ends

variable {img : Image} (hfit : ∀ off next, Reached img off → onward img off = some next →
  off + 512 ≤ next)

include hfit

/-- Members that are skipped inside a call move the walk on as well. -/
theorem ustarNext_returns (fuel : ℕ) (hoff : Reached img off)
    (hfuel : img.size < off + 512 * fuel) :
    ∃ v, ustarNext img fuel off = some v ∧
      ∀ next e, v = .member next e → Reached img next ∧ off + 512 ≤ next := by
  induction fuel generalizing off with
  | zero =>
    have hle := hoff.le_size
    omega
  | succ fuel ih =>
    unfold ustarNext
    cases hvisit : visit img off with
    | stop | malformed => exact ⟨_, rfl, fun _ _ h => nomatch h⟩
    | member next e =>
      have honward : onward img off = some next := by
        unfold onward
        rw [hvisit]
      refine ⟨_, rfl, fun next' e' h => ?_⟩
      obtain ⟨rfl, -⟩ := Visit.member.inj h
      exact ⟨hoff.tail honward, hfit off next hoff honward⟩
    | skip next =>
      have honward : onward img off = some next := by
        unfold onward
        rw [hvisit]
      have hstep := hfit off next hoff honward
      obtain ⟨v, hv, hrest⟩ := ih (hoff.tail honward) (by omega)
      refine ⟨v, hv, fun next' e' h => ?_⟩
      obtain ⟨hreach, hle⟩ := hrest next' e' h
      exact ⟨hreach, by omega⟩

theorem unpack_ends (fuel : ℕ) (hoff : Reached img off)
    (hfuel : img.size < off + 512 * fuel) : (unpack img fuel off).isSome := by
  induction fuel generalizing off with
  | zero =>
    have hle := hoff.le_size
    omega
  | succ fuel ih =>
    obtain ⟨v, hv, hrest⟩ := ustarNext_returns hfit (fuel + 1) hoff hfuel
    unfold unpack
    rw [hv]
    cases v with
    | member next e =>
      obtain ⟨hreach, hle⟩ := hrest next e rfl
      simpa using ih hreach (by omega)
    | stop => rfl
    | malformed => rfl
    | skip next => rfl

end Ends

/-- The walk over an archive is in order exactly when at no header it passes the end of the member
wraps around 64 bits. -/
theorem walks_iff (img : Image) :
    Walks img ↔ ∀ off next, Reached img off → onward img off = some next → Fits img off := by
  have hsmall : ∀ off, Reached img off → off < 2 ^ 64 := by
    intro off hoff
    have hsize : img.size < 2 ^ 64 := img.fits
    have hle := hoff.le_size
    omega
  constructor
  · intro hwalk off next hoff honward
    have hpassed := passed_of_onward honward
    have hroom := (hpassed.forward_iff (hsmall off hoff)).mp (hwalk.forward off next hoff honward)
    refine ⟨hroom, fun hreg => ?_⟩
    obtain ⟨e, hmember, hdata, hsize⟩ := member_of_regular honward hreg
    have hin := hwalk.inside off next e _ hoff hmember hdata
    rw [hsize] at hin
    exact (hpassed.inside_iff (by omega)).mp hin
  intro hfits
  have hforward : ∀ off next, Reached img off → onward img off = some next → off + 512 ≤ next := by
    intro off next hoff honward
    have hroom := (hfits off next hoff honward).1
    rw [(passed_of_onward honward).next_eq]
    unfold wrap
    omega
  refine ⟨fun off next hoff honward => ?_, ?_, ?_⟩
  · have hle := hforward off next hoff honward
    omega
  · intro off next e start hoff hmember hdata
    obtain ⟨hpassed, hreg, rfl, hsize⟩ := member_data hmember hdata
    have honward : onward img off = some next := by
      unfold onward
      rw [hmember]
    obtain ⟨hroom, hend⟩ := hfits off next hoff honward
    rw [hsize]
    exact (hpassed.inside_iff (by omega)).mpr (hend hreg)
  · exact ⟨img.size + 1, unpack_ends hforward _ Relation.ReflTransGen.refl (by omega)⟩

def selfLoop : Image where
  bytes := replicate 124 0 ++ [0x80, 0, 0, 0, 255, 255, 255, 255, 255, 255, 254, 0] ++
    replicate 12 0 ++ [48, 48, 53, 51, 51, 52, 0, 32] ++ [53] ++ replicate 100 0 ++
    [117, 115, 116, 97, 114] ++ replicate 250 0
  fits := by decide +kernel

/-- Every call returns the same directory again. -/
theorem selfLoop_never_ends :
    visit selfLoop 0 = .member 0 ⟨[], none, 2 ^ 64 - 512, 0, 53⟩ ∧
      ∀ fuel, unpack selfLoop fuel 0 = none := by
  have hvisit : visit selfLoop 0 = .member 0 ⟨[], none, 2 ^ 64 - 512, 0, 53⟩ := by
    decide +kernel
  refine ⟨hvisit, fun fuel => ?_⟩
  induction fuel with
  | zero => rfl
  | succ fuel ih =>
    have hnext : ustarNext selfLoop (fuel + 1) 0 =
        some (.member 0 ⟨[], none, 2 ^ 64 - 512, 0, 53⟩) := by
      unfold ustarNext
      rw [hvisit]
    unfold unpack
    rw [hnext]
    simp [ih]

end Vnu.Ustar
