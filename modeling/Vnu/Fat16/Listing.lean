import Vnu.Fat16.Directory

/-!
The scans of the driver over a directory on the disk, as scans over its list of slots.
-/
namespace Vnu.Fat16

open Lib List Option Nat

variable {fuel pos next : ℕ} {st : Lfn} {ev : Entry}

def Entry.isListed (ev : Entry) : Bool := !ev.isVolume && !isDots ev.name

theorem scanUntil_eq (fs : Fs) (dir total : ℕ) (d : Disk) (p : Entry → Bool) (fuel pos : ℕ) :
    (scanUntil fs dir total d p fuel pos).map Prod.fst =
      (entriesFrom fs dir total d fuel pos).find? p := by
  induction fuel generalizing pos with
  | zero => rfl
  | succ fuel ih =>
    unfold scanUntil entriesFrom
    rcases scanNext fs dir total d pos with ⟨_ | ev, next⟩
    · rfl
    · by_cases hp : p ev
      · simp [hp]
      · simp [hp, ih]

theorem scanFor_eq (fs : Fs) (dir : ℕ) (d : Disk) (p : Entry → Bool) :
    scanFor fs dir d p = (entries fs dir d).find? p :=
  scanUntil_eq fs dir _ d p _ 0

theorem findEntry_eq (fs : Fs) (dir : ℕ) (name : List UInt8) (d : Disk) :
    findEntry fs dir name d =
      (entries fs dir d).find? fun ev => !ev.isVolume && ciEqual ev.name name := by
  unfold findEntry
  split
  · rename_i htotal
    simp [entries, entriesFrom, scanNext, scanLoop, htotal]
  · exact scanFor_eq fs dir d _

theorem dirHasSfn_eq (fs : Fs) (dir : ℕ) (sfn : List UInt8) (d : Disk) :
    dirHasSfn fs dir sfn d =
      (entries fs dir d).any fun ev => !ev.isVolume && sfnEqual ev.sfn sfn := by
  rw [dirHasSfn, scanFor_eq, isSome_find?]

theorem dirOccupied_eq (fs : Fs) (dir : ℕ) (d : Disk) :
    dirOccupied fs dir d = (entries fs dir d).any fun ev => !isDots ev.name := by
  rw [dirOccupied, scanFor_eq, isSome_find?]

section

variable {fs : Fs} {dir total : ℕ} {d : Disk}

theorem scanLoop_forward (h : scanLoop fs dir total d fuel st pos = (some ev, next)) :
    pos + 32 ≤ next ∧ next ≤ total := by
  induction fuel generalizing st pos with
  | zero => simp [scanLoop] at h
  | succ fuel ih =>
    unfold scanLoop at h
    by_cases hin : pos + 32 ≤ total
    · rw [if_pos hin] at h
      cases hread : dirReadSector fs dir (pos / 512) d with
      | none => simp [hread] at h
      | some buf =>
        rw [hread] at h
        dsimp only at h
        cases hslot : scanSlot st pos (slotAt buf (pos % 512)) with
        | stop => simp [hslot] at h
        | skip st' =>
          rw [hslot] at h
          obtain ⟨hle, htotal⟩ := ih h
          exact ⟨by omega, htotal⟩
        | found e =>
          rw [hslot] at h
          obtain ⟨-, rfl⟩ := Prod.mk.inj h
          exact ⟨le_refl _, hin⟩
    · simp [hin] at h

theorem scanNext_forward
    (h : scanNext fs dir total d pos = (some ev, next)) : pos + 32 ≤ next ∧ next ≤ total :=
  scanLoop_forward h

theorem entriesFrom_fuel {fuel' : ℕ} (h : (total - pos) / 32 < fuel)
    (h' : (total - pos) / 32 < fuel') :
    entriesFrom fs dir total d fuel pos = entriesFrom fs dir total d fuel' pos := by
  induction fuel generalizing fuel' pos with
  | zero => omega
  | succ fuel ih =>
    cases fuel' with
    | zero => omega
    | succ fuel' =>
      unfold entriesFrom
      rcases hscan : scanNext fs dir total d pos with ⟨_ | ev, next⟩
      · rfl
      · obtain ⟨hle, htotal⟩ := scanNext_forward hscan
        simp only [cons.injEq, true_and]
        exact ih (by omega) (by omega)

theorem scanUntil_cases (p : Entry → Bool) (h : (total - pos) / 32 < fuel) :
    (scanUntil fs dir total d p fuel pos = none ∧
      (entriesFrom fs dir total d fuel pos).filter p = []) ∨
    ∃ ev next, pos + 32 ≤ next ∧ next ≤ total ∧
      scanUntil fs dir total d p fuel pos = some (ev, next) ∧
      (entriesFrom fs dir total d fuel pos).filter p =
        ev :: (entriesFrom fs dir total d fuel next).filter p := by
  induction fuel generalizing pos with
  | zero => omega
  | succ fuel ih =>
    have hmore : ∀ next, pos + 32 ≤ next → next ≤ total →
        entriesFrom fs dir total d fuel next = entriesFrom fs dir total d (fuel + 1) next := by
      intro next hle htotal
      exact entriesFrom_fuel (by omega) (by omega)
    unfold scanUntil
    rw [entriesFrom]
    rcases hscan : scanNext fs dir total d pos with ⟨_ | ev, next⟩
    · exact .inl ⟨rfl, rfl⟩
    obtain ⟨hle, htotal⟩ := scanNext_forward hscan
    dsimp only
    split_ifs with hp
    · rw [filter_cons_of_pos hp, hmore next hle htotal]
      exact .inr ⟨ev, next, hle, htotal, rfl, rfl⟩
    rw [filter_cons_of_neg hp]
    have hfuel : (total - next) / 32 < fuel := by omega
    rcases ih hfuel with hnone | ⟨ev', k, hle', htotal', h1, h2⟩
    · exact .inl hnone
    · rw [hmore k (by omega) htotal'] at h2
      exact .inr ⟨ev', k, by omega, htotal', h1, h2⟩

theorem readdirWalk_eq (cap : ℕ) {seen : ℕ} (h : (total - pos) / 32 < fuel) :
    readdirWalk fs cap d fuel ⟨dir, pos, total, seen⟩ =
      ((entriesFrom fs dir total d (total / 32 + 1) pos).filter Entry.isListed).map fun ev =>
        ev.name.take (cap - 1) := by
  induction fuel generalizing pos seen with
  | zero => omega
  | succ fuel ih =>
    unfold readdirWalk readdir
    have hfuel : (total - pos) / 32 < total / 32 + 1 := by omega
    rcases scanUntil_cases Entry.isListed hfuel with
      ⟨hnone, hall⟩ | ⟨ev, next, hle, htotal, hsome, hall⟩
    · unfold Entry.isListed at hnone
      rw [hall]
      simp [hnone]
    · unfold Entry.isListed at hsome
      rw [hall]
      simp only [hsome, map_some, map_cons]
      rw [ih (by omega)]

theorem readdirAll_eq (cap : ℕ) :
    readdirAll fs dir cap d =
      ((entries fs dir d).filter Entry.isListed).map fun ev => ev.name.take (cap - 1) :=
  readdirWalk_eq cap (by omega)

theorem length_entriesFrom_le (fuel pos : ℕ) :
    (entriesFrom fs dir total d fuel pos).length ≤ fuel := by
  induction fuel generalizing pos with
  | zero => exact le_refl _
  | succ fuel ih =>
    unfold entriesFrom
    rcases scanNext fs dir total d pos with ⟨_ | ev, next⟩
    · exact zero_le _
    · rw [length_cons]
      exact Nat.succ_le_succ (ih next)

theorem chainLenLoop_le {n c len : ℕ} (hn : n ≤ fs.maxCluster + 2)
    (h : chainLenLoop fs d fuel n c = some len) : len ≤ fs.maxCluster + 2 := by
  induction fuel generalizing n c with
  | zero => simp [chainLenLoop] at h
  | succ fuel ih =>
    unfold chainLenLoop at h
    split_ifs at h with hc hmax
    · cases hnext : fatNext fs c d with
      | none => simp [hnext] at h
      | some nx =>
        rw [hnext] at h
        dsimp only at h
        split_ifs at h with hz
        · obtain rfl := some.inj h
          omega
        · exact ih (by omega) h
    · obtain rfl := some.inj h
      exact hn

theorem length_entries_lt (hg : Geometry fs) : (entries fs dir d).length < 2 ^ 32 := by
  have hlen : (entries fs dir d).length ≤ dirTotalBytes fs dir d / 32 + 1 :=
    length_entriesFrom_le _ _
  have htotal : dirTotalBytes fs dir d ≤ 65525 * (128 * 512) := by
    unfold dirTotalBytes
    split_ifs with hdir
    · rw [hg.rootSectors]
      omega
    cases hchain : chainLen fs dir d with
    | none => exact zero_le _
    | some len =>
      have hle := chainLenLoop_le (zero_le _) hchain
      have hmax := hg.max_le
      calc len * fs.spc * 512 ≤ 65525 * 128 * 512 := by
            have hspc := hg.spc_le
            gcongr
            omega
        _ = 65525 * (128 * 512) := by rw [mul_assoc]
  omega

end

section

variable {fs : Fs} (hg : Geometry fs) (d : Disk) {dir : ℕ} {bl : List ℕ}
  (h : Area fs (view fs d).fat dir bl)
include hg h

theorem dirTotalBytes_slots :
    dirTotalBytes fs dir d = 32 * ((view fs d).slots fs dir bl).length := by
  rw [dirTotalBytes_eq hg d h, slots_length, area_bytes]
  omega

/-- The scan of the device agrees with the scan of the list of slots. -/
theorem scanLoop_spec {es : List Slot} (hes : (view fs d).slots fs dir bl = es) (fuel : ℕ)
    (st : Lfn) (k : ℕ) (hfuel : es.length - k < fuel) :
    ((∃ p, scanLoop fs dir (dirTotalBytes fs dir d) d fuel st (32 * k) = (none, p)) ∧
      scanAll st (32 * k) (es.drop k) = []) ∨
    ∃ ev k', k < k' ∧ k' ≤ es.length ∧
      scanLoop fs dir (dirTotalBytes fs dir d) d fuel st (32 * k) = (some ev, 32 * k') ∧
      scanAll st (32 * k) (es.drop k) = ev :: scanAll Lfn.start (32 * k') (es.drop k') := by
  induction fuel generalizing st k with
  | zero => omega
  | succ fuel ih =>
    subst hes
    have htotal := dirTotalBytes_slots hg d h
    unfold scanLoop
    by_cases hk : k < ((view fs d).slots fs dir bl).length
    · obtain ⟨buf, hread, hslot⟩ := readSlot_eq hg d h hk
      have hin : 32 * k + 32 ≤ dirTotalBytes fs dir d := by omega
      rw [drop_eq_getElem_cons hk, scanAll]
      simp only [hin, hread, hslot]
      cases hs : scanSlot st (32 * k) ((view fs d).slots fs dir bl)[k] with
      | stop => exact .inl ⟨⟨_, rfl⟩, rfl⟩
      | skip st' =>
        rcases ih st' (k + 1) (by omega) with hnone | ⟨ev, k', hk', hle, h1, h2⟩
        · exact .inl hnone
        · exact .inr ⟨ev, k', by omega, hle, h1, h2⟩
      | found ev =>
        exact .inr ⟨ev, k + 1, by omega, by omega, rfl, rfl⟩
    · have hout : ¬ 32 * k + 32 ≤ dirTotalBytes fs dir d := by omega
      rw [drop_eq_nil_of_le (by omega)]
      simp only [hout]
      exact .inl ⟨⟨_, rfl⟩, rfl⟩

theorem entriesFrom_eq {es : List Slot} (hes : (view fs d).slots fs dir bl = es) (fuel k : ℕ)
    (hfuel : es.length - k < fuel) :
    entriesFrom fs dir (dirTotalBytes fs dir d) d fuel (32 * k) =
      scanAll Lfn.start (32 * k) (es.drop k) := by
  induction fuel generalizing k with
  | zero => omega
  | succ fuel ih =>
    have htotal := dirTotalBytes_slots hg d h
    rw [hes] at htotal
    unfold entriesFrom scanNext
    rcases scanLoop_spec hg d h hes (dirTotalBytes fs dir d / 32 + 1) Lfn.start k (by omega) with
      ⟨⟨p, hscan⟩, hall⟩ | ⟨ev, k', hk, hle, hscan, hall⟩
    · rw [hscan, hall]
    · rw [hscan, hall]
      simp [ih k' (by omega)]

theorem entries_eq : entries fs dir d = scanAll Lfn.start 0 ((view fs d).slots fs dir bl) := by
  have htotal := dirTotalBytes_slots hg d h
  exact entriesFrom_eq hg d h rfl (dirTotalBytes fs dir d / 32 + 1) 0 (by omega)

/-- The end is where the used slots end, since none of them starts with a zero. -/
theorem endLoop_eq {used tail : List Slot}
    (hslots : (view fs d).slots fs dir bl = used ++ tail) (hused : ∀ e ∈ used, e 0 ≠ 0)
    (htail : Ended tail) (fuel k : ℕ) (hk : k ≤ used.length) (hfuel : used.length - k < fuel) :
    endLoop fs dir (dirTotalBytes fs dir d) d fuel (32 * k) = some (32 * used.length) := by
  induction fuel generalizing k with
  | zero => omega
  | succ fuel ih =>
    have htotal := dirTotalBytes_slots hg d h
    rw [hslots, length_append] at htotal
    unfold endLoop
    by_cases hend : k < (used ++ tail).length
    · obtain ⟨buf, hread, hslot⟩ := readSlot_eq hg d h (hslots ▸ hend)
      simp only [hslots] at hslot
      rw [length_append] at hend
      have hin : 32 * k + 32 ≤ dirTotalBytes fs dir d := by omega
      have hfirst : buf (32 * k % 512) = (used ++ tail)[k] 0 := by
        rw [← hslot]
        rfl
      simp only [hin, if_true, hread, hfirst]
      by_cases hku : k < used.length
      · have hne : (used ++ tail)[k] 0 ≠ 0 := by
          rw [getElem_append_left hku]
          exact hused _ (getElem_mem hku)
        rw [if_neg hne]
        exact ih (k + 1) (by omega) (by omega)
      obtain rfl : k = used.length := by omega
      have hzero : (used ++ tail)[used.length] 0 = 0 := by
        cases tail with
        | nil =>
          simp only [length_nil] at hend
          omega
        | cons e tail =>
          have hget : (used ++ e :: tail)[used.length] = e := by simp
          rw [hget]
          exact htail e rfl
      rw [if_pos hzero]
    · rw [length_append] at hend
      have hout : ¬ 32 * k + 32 ≤ dirTotalBytes fs dir d := by omega
      obtain rfl : k = used.length := by omega
      simp [hout]

end

theorem foldLfn_first {st' : Lfn} {lfn : List Slot}
    (h : foldLfn st pos lfn = some st') : ∀ e ∈ lfn, e 0 ≠ 0 := by
  induction lfn generalizing st pos with
  | nil => simp
  | cons e lfn ih =>
    unfold foldLfn at h
    split at h
    · simp at h
    rename_i hkind
    intro e' he'
    rcases mem_cons.mp he' with rfl | he'
    · exact fun h0 => hkind (Or.inl h0)
    · exact ih h e' he'

theorem itemSlots_first (items : List Item) : ∀ e ∈ itemSlots items, e 0 ≠ 0 := by
  intro e he
  obtain ⟨i, -, hi⟩ := mem_flatMap.mp he
  cases i with
  | dead e' he' =>
    obtain rfl := mem_singleton.mp hi
    rw [he']
    decide
  | live g =>
    rcases mem_append.mp hi with hi | hi
    · exact foldLfn_first (g.folds 0) e hi
    · obtain rfl := mem_singleton.mp hi
      exact g.first.1

end Vnu.Fat16
