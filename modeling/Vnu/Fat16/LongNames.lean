import Mathlib.Tactic.IntervalCases
import Vnu.Fat16.ShortNames

/-!
Long names. Their slots carry thirteen characters each, the last ones first, and give the name back,
cut to what the entry of the source has room for.
-/
namespace Vnu.Fat16

open List Nat

variable {k n : ℕ} {st : Lfn} {chk : UInt8}

def lfnChar (name : List UInt8) (g : ℕ) : UInt8 := UInt8.ofNat (lfnUnit name g)

theorem lfnSlot_seq {seq : ℕ} (hlo : 1 ≤ seq) (hhi : seq ≤ 20) (name : List UInt8) (chk : UInt8)
    (last : Bool) :
    ¬ (lfnSlot name chk seq last 0 = 0x00 ∨ lfnSlot name chk seq last 0 = 0xE5 ∨
      lfnSlot name chk seq last 11 &&& 0x3F ≠ 0x0F) ∧
      (lfnSlot name chk seq last 0 &&& 0x1F).toNat = seq := by
  have hseq : ∀ n < 21, 1 ≤ n → ∀ b : Bool, ¬ ((UInt8.ofNat n ||| if b then 0x40 else 0) = 0x00 ∨
        (UInt8.ofNat n ||| if b then 0x40 else 0) = 0xE5 ∨ (0x0F : UInt8) &&& 0x3F ≠ 0x0F) ∧
      ((UInt8.ofNat n ||| if b then 0x40 else 0) &&& 0x1F).toNat = n := by decide
  exact hseq seq (by omega) hlo last

theorem lfnSlot_char (name : List UInt8) (chk : UInt8) (seq : ℕ) (last : Bool) (hk : k < 13) :
    lfnSlot name chk seq last (charOff.getD k 0) = lfnChar name ((seq - 1) * 13 + k) := by
  interval_cases k <;> rfl

theorem take_slot {name : List UInt8} (hk : k < 20)
    (hchk : st.pos = [] ∨ st.chk = chk) (hroom : st.pos.length < 20) (last : Bool) (here : ℕ) :
    st.take here (lfnSlot name chk (k + 1) last) =
      { text := fun g => if k * 13 ≤ g ∧ g < k * 13 + 13 ∧ g < 256 then lfnChar name g
          else (st.begin chk).text g
        pos := st.pos ++ [here]
        maxSeq := max (st.begin chk).maxSeq (k + 1)
        chk := chk } := by
  obtain ⟨-, hseq⟩ := lfnSlot_seq (le_add_left 1 k) hk name chk last
  have h13 : lfnSlot name chk (k + 1) last 13 = chk := rfl
  have hbegin : (st.begin chk).chk = chk ∧ (st.begin chk).pos = st.pos := by
    rw [Lfn.begin]
    split
    · exact ⟨rfl, rfl⟩
    · rename_i hne
      exact ⟨hchk.resolve_left hne, rfl⟩
  unfold Lfn.take
  simp only [hseq, h13, hbegin.1, hbegin.2, maxLfn]
  rw [if_neg (by simp only [ne_eq, not_true_eq_false, false_or]; omega)]
  congr 1
  funext g
  simp only [Nat.add_sub_cancel]
  split
  · rename_i hg
    rw [lfnSlot_char _ _ _ _ (by omega)]
    congr 1
    omega
  · rfl

theorem text_step (k g : ℕ) (c t : UInt8) :
    (if g < k * 13 ∧ g < 256 then c
      else if k * 13 ≤ g ∧ g < k * 13 + 13 ∧ g < 256 then c else t) =
      if g < (k + 1) * 13 ∧ g < 256 then c else t := by
  grind

/-- Read back from the last part on, the slots give the characters of the name. -/
theorem foldLfn_slots {name : List UInt8} (pos : ℕ)
    (hchk : st.chk = chk) (hne : st.pos ≠ []) (hroom : st.pos.length + k ≤ 20)
    (hmax : k ≤ st.maxSeq) :
    foldLfn st pos (lfnSlots name chk n k) = some
      { text := fun g => if g < k * 13 ∧ g < 256 then lfnChar name g else st.text g
        pos := st.pos ++ places pos k
        maxSeq := st.maxSeq
        chk := chk } := by
  induction k generalizing st pos with
  | zero =>
    simp only [lfnSlots, foldLfn, zero_mul, Nat.not_lt_zero, false_and, if_false, places,
      range_zero, map_nil, append_nil, ← hchk]
  | succ k ih =>
    obtain ⟨hkind, -⟩ := lfnSlot_seq (le_add_left 1 k) (show k + 1 ≤ 20 by omega) name chk
      (k + 1 == n)
    have hbegin : st.begin chk = st := if_neg hne
    have hstep : st.take pos (lfnSlot name chk (k + 1) (k + 1 == n)) = _ :=
      take_slot (show k < 20 by omega) (Or.inr hchk) (show st.pos.length < 20 by omega) _ pos
    rw [hbegin, max_eq_left hmax] at hstep
    rw [lfnSlots, foldLfn, if_neg hkind, hstep, ih]
    · rw [places_succ, append_assoc]
      congr 2
      funext g
      exact text_step k g _ _
    · rfl
    · simp
    · simp
      omega
    · simp
      omega

def longSt (name : List UInt8) (chk : UInt8) (n : ℕ) : Lfn where
  text g := if g < n * 13 ∧ g < 256 then lfnChar name g else 0
  pos := []
  maxSeq := n
  chk := chk

theorem foldLfn_long (name : List UInt8) (chk : UInt8) (hlo : 1 ≤ n) (hhi : n ≤ 20)
    (pos : ℕ) : foldLfn Lfn.start pos (lfnSlots name chk n n) =
      some { longSt name chk n with pos := places pos n } := by
  obtain ⟨k, rfl⟩ : ∃ k, n = k + 1 := ⟨n - 1, by omega⟩
  obtain ⟨hkind, -⟩ := lfnSlot_seq hlo hhi name chk (k + 1 == k + 1)
  have hstep : Lfn.start.take pos (lfnSlot name chk (k + 1) (k + 1 == k + 1)) = _ :=
    take_slot (show k < 20 by omega) (Or.inl rfl) (by decide) _ pos
  rw [lfnSlots, foldLfn, if_neg hkind, hstep, foldLfn_slots _ rfl (by simp)]
  · rw [places_succ]
    congr 2
    funext g
    exact text_step k g _ _
  · simp only [Lfn.start, nil_append, length_singleton]
    omega
  · exact (le_succ k).trans (le_max_right _ _)

theorem lfnSlots_length (name : List UInt8) (chk : UInt8) (n k : ℕ) :
    (lfnSlots name chk n k).length = k := by
  induction k with
  | zero => rfl
  | succ k ih => rw [lfnSlots, length_cons, ih]

theorem lfnChar_lt {name : List UInt8} {g : ℕ} (h : g < name.length) : lfnChar name g =
    name[g] := by
  simp [lfnChar, lfnUnit, h]

theorem lfnChars_eq (name : List UInt8) (m : ℕ) :
    (m ≤ name.length ∧ (range m).map (lfnChar name) = name.take m) ∨
      (name.length < m ∧ ∃ rest, (range m).map (lfnChar name) = name ++ 0 :: rest) := by
  have hfront : ∀ k ≤ name.length, (range k).map (lfnChar name) = name.take k := by
    intro k hk
    apply ext_getElem
    · simp [hk]
    · intro i h1 h2
      simp only [length_map, length_range] at h1
      simp only [getElem_map, getElem_range, getElem_take]
      exact lfnChar_lt (by omega)
  by_cases hm : m ≤ name.length
  · exact Or.inl ⟨hm, hfront m hm⟩
  obtain ⟨k, rfl⟩ : ∃ k, m = name.length + (1 + k) := ⟨m - name.length - 1, by omega⟩
  refine Or.inr ⟨by omega, (range k).map fun i => lfnChar name (name.length + (1 + i)), ?_⟩
  rw [range_add, map_append, hfront _ le_rfl, range_add]
  have h0 : lfnChar name name.length = 0 := by simp [lfnChar, lfnUnit]
  simp [h0, Function.comp_def]

def storedName (name : List UInt8) : List UInt8 :=
  if isNative name then nativeName name else cstr (name.take 255)

theorem cstr_append_zero (cs rest : List UInt8) : cstr (cs ++ 0 :: rest) = cstr cs := by
  induction cs with
  | nil => rfl
  | cons c cs ih =>
    simp only [cstr, cons_append, takeWhile_cons] at ih ⊢
    rw [ih]

theorem longSt_name {name : List UInt8} (h : name.length ≤ n * 13) (chk : UInt8)
    (pos : List ℕ) : Lfn.name { longSt name chk n with pos := pos } = cstr (name.take 255) := by
  have htext : (range (min (n * 13) 255)).map (longSt name chk n).text =
      (range (min (n * 13) 255)).map (lfnChar name) := by
    apply map_congr_left
    intro g hg
    rw [mem_range] at hg
    exact if_pos ⟨by omega, by omega⟩
  change cstr ((range (min (n * 13) 255)).map (longSt name chk n).text) = _
  rw [htext]
  obtain ⟨hm, heq⟩ | ⟨hm, rest, heq⟩ := lfnChars_eq name (min (n * 13) 255)
  · rw [heq]
    by_cases hlen : name.length ≤ 255
    · rw [take_of_length_le (by omega), take_of_length_le hlen]
    · rw [show min (n * 13) 255 = 255 by omega]
  · rw [heq, cstr_append_zero, take_of_length_le (by omega)]

section

variable (fs : Fs) (dir : ℕ) (name : List UInt8) {attr : UInt8}
  (hattr : attr = attrArch ∨ attr = attrDir) (cluster size : ℕ) (d : Disk)

theorem newSfn_first : ∃ c cs, newSfn fs dir name d = c :: cs ∧ c ≠ 0x00 ∧ c ≠ 0xE5 := by
  have hlen := newSfn_length fs dir name d
  have hbytes := newSfn_bytes fs dir name d
  cases hsfn : newSfn fs dir name d with
  | nil => simp [hsfn] at hlen
  | cons c cs =>
    have hc : SfnByte c := hbytes c (hsfn ▸ mem_cons_self)
    refine ⟨c, cs, rfl, ?_, ?_⟩
    · rintro rfl
      exact absurd hc (by decide)
    · rintro rfl
      exact absurd hc (by decide)

include hattr in
theorem attr_kind : attr &&& 0x3F = attr ∧ attr &&& 0x3F ≠ 0x0F := by
  obtain rfl | rfl := hattr <;> decide

def newEntry (attr : UInt8) (slots pos : ℕ) : Entry where
  pos := pos + 32 * (slots - 1)
  cluster := cluster % 65536
  size := size % 2 ^ 32
  attr := attr
  sfn := newSfn fs dir name d
  name := storedName name
  lfnPos := places pos (slots - 1)

include hattr in
/-- What `build_entries` returns is one group, which is read back as the new entry. -/
theorem buildEntries_spec {es : List Slot}
    (h : buildEntries fs dir name attr cluster size d = some es) :
    ∃ g : Group, g.slots = es ∧
      ∀ pos, g.entry pos = newEntry fs dir name cluster size d attr es.length pos := by
  obtain ⟨c, cs, hsfn, hc0, hcE5⟩ := newSfn_first fs dir name d
  have hlen := newSfn_length fs dir name d
  obtain ⟨hmask, hkind⟩ := attr_kind hattr
  have hfirst : ∀ nt, shortSlot (newSfn fs dir name d) attr nt cluster size 0 ≠ 0x00 ∧
      shortSlot (newSfn fs dir name d) attr nt cluster size 0 ≠ 0xE5 := by
    intro nt
    rw [hsfn]
    exact ⟨hc0, hcE5⟩
  have hsum : ∀ nt, (shortSlot (newSfn fs dir name d) attr nt cluster size).bytes 0 11 =
      newSfn fs dir name d := fun nt => shortSlot_bytes hlen attr nt cluster size
  have h11 : ∀ nt, shortSlot (newSfn fs dir name d) attr nt cluster size 11 = attr := fun _ => rfl
  simp only [buildEntries] at h
  by_cases hnat : isNative name = true
  · rw [if_pos hnat, Option.some.injEq] at h
    subst h
    refine ⟨Group.bare _ (hfirst _) hkind, rfl, ?_⟩
    intro pos
    have hname : buildSfnName (shortSlot (newSfn fs dir name d) attr (buildShort name).nt
        cluster size) = nativeName name := by
      rw [newSfn, if_pos hnat]
      exact buildSfnName_native hnat attr cluster size
    simp only [Group.entry, Group.bare, shortEntry, newEntry, shortSlot_cluster, shortSlot_size,
      hsum, h11, hmask, hname, storedName, if_pos hnat]
    simp [places]
  rw [if_neg hnat] at h
  split at h
  · cases h
  rename_i hroom
  rw [Option.some.injEq] at h
  have hlo : 1 ≤ lfnChunks name := le_max_left _ _
  have hhi : lfnChunks name ≤ 20 := Nat.le_of_not_lt hroom
  have hchars : name.length ≤ lfnChunks name * 13 := by
    rw [lfnChunks]
    omega
  have hcount := lfnSlots_length name (sfnChecksum (newSfn fs dir name d)) (lfnChunks name)
    (lfnChunks name)
  subst h
  refine ⟨⟨lfnSlots name (sfnChecksum (newSfn fs dir name d)) (lfnChunks name)
    (lfnChunks name), shortSlot (newSfn fs dir name d) attr 0 cluster size,
    longSt name (sfnChecksum (newSfn fs dir name d)) (lfnChunks name),
    hfirst 0, hkind, ?_, fun _ => (congrArg sfnChecksum (hsum 0)).symm⟩, rfl, ?_⟩
  · intro pos
    rw [hcount]
    exact foldLfn_long name _ hlo hhi pos
  intro pos
  have hplaces : places pos (lfnChunks name) ≠ [] := by
    simp only [places, ne_eq, map_eq_nil_iff, range_eq_nil]
    omega
  have hlong : ((longSt name (sfnChecksum (newSfn fs dir name d))
      (lfnChunks name)).chk = sfnChecksum (newSfn fs dir name d)) := rfl
  have hname := longSt_name hchars (sfnChecksum (newSfn fs dir name d))
    (places pos (lfnChunks name))
  simp only [Group.entry, shortEntry, newEntry, shortSlot_cluster, shortSlot_size, hsum,
    hcount, storedName, if_neg hnat, hplaces, hlong, ne_eq, length_append]
  congr 1

end

end Vnu.Fat16
