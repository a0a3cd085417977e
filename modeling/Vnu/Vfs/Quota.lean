import Mathlib.Algebra.Order.BigOperators.Group.Finset
import Vnu.Lib.Tally
import Vnu.Vfs.Yields

/-!
The quota of a user. What a user holds is summed up anew at every write that would make a file
longer, so no file has to be charged when it is opened or deleted.
-/
namespace Vnu.Vfs

open Lib List Function Nat

variable {uid : ℕ} {s s' : State}

def charge (uid : ℕ) (n : Node) : ℕ := if n.plain && n.uid == uid then n.size else 0

def held (s : State) (uid : ℕ) : ℕ := ∑ i, charge uid (s.nodes i)

theorem quotaUsed_eq (s : State) (uid : ℕ) :
    quotaUsed s.nodes uid = min (word - 1) (held s uid) := by
  have hfold : ∀ (l : List (Fin maxN)) (t : ℕ), t ≤ word - 1 → l.foldl (fun total i =>
        if (s.nodes i).plain && (s.nodes i).uid == uid then
          min (word - 1) (total + (s.nodes i).size)
        else total) t = min (word - 1) (t + (l.map fun i => charge uid (s.nodes i)).sum) := by
    intro l
    induction l with
    | nil =>
      intro t ht
      exact (min_eq_right ht).symm
    | cons i l ih =>
      intro t ht
      rw [foldl_cons, map_cons, sum_cons, charge]
      split_ifs
      · rw [ih _ (min_le_left _ _)]
        omega
      · rw [ih t ht, zero_add]
  rw [quotaUsed, hfold _ 0 (zero_le _), zero_add, held, Fin.sum_univ_def]

theorem held_le (h : ∀ j, (s'.nodes j).plain = true →
    (s'.nodes j).size = 0 ∨ s'.nodes j = s.nodes j) : held s' uid ≤ held s uid := by
  refine Finset.sum_le_sum fun j _ => ?_
  cases hj : (s'.nodes j).plain with
  | false => simp [charge, hj]
  | true =>
    obtain hzero | hsame := h j hj
    · simp [charge, hzero]
    · rw [hsame]

theorem held_of_nodes (h : s'.nodes = s.nodes) : held s' uid = held s uid := by
  rw [held, held, h]

inductive Metered where
  | file (a : FileCall)
  | unlink (path : Str)

def Metered.step (s : State) : Metered → State
  | .file a => Vfs.step s a.op
  | .unlink path => Vfs.step s (.unlink path)

theorem held_unlink (path : Str) (s : State) : held (unlink path s).2 uid ≤ held s uid := by
  rw [unlink, Act.bind_of_some (look_run s)]
  cases mountFor s (normalize s.cwd path) with
  | some p => exact (held_of_nodes (nodes_of_aside (aside_unlinkMount p.1 p.2))).le
  | none =>
    dsimp only
    rw [unlinkRam, Act.bind_of_some (look_run s)]
    cases findIndex s.nodes (normalize s.cwd path) with
    | none => exact le_rfl
    | some i =>
      dsimp only
      split_ifs
      · exact le_rfl
      cases parentDir s.nodes (normalize s.cwd path) with
      | none => exact le_rfl
      | some par =>
        dsimp only
        split_ifs
        · exact le_rfl
        refine held_le fun j hj => ?_
        have hji : j ≠ i := by
          rintro rfl
          have hused : (update s.nodes j _ j).used = true := (plain_fields hj).1
          rw [update_self] at hused
          cases hused
        exact .inr (update_of_ne hji ..)

theorem write_refused {e : Errno} {fd : ℕ} {bytes : Str}
    (h : (write fd bytes s).1 = some (.error e)) : (write fd bytes s).2.nodes = s.nodes := by
  obtain ⟨-, hsame, -⟩ | ⟨i, f, ni, ha⟩ := write_cases fd bytes s
  · exact hsame
  obtain ⟨-, hnone, -⟩ | ⟨-, -, s', hrun, -⟩ := write_run ha rfl rfl rfl rfl rfl
  · rw [hnone] at h
    cases h
  · rw [hrun] at h
    cases h

/-- A file that gets longer was within the limit, and stays there. -/
theorem held_grown {ni : Fin maxN} {n : Node} {last limit : ℕ} (hlimit : limit ≠ 0)
    (hword : limit < word) (hfixed : quotaLimit s uid = limit)
    (hq : overQuota s (s.nodes ni) last = false) (hplain : n.plain = (s.nodes ni).plain)
    (huid : n.uid = (s.nodes ni).uid) (hsize : n.size ≤ max (s.nodes ni).size last)
    (hnodes : s'.nodes = Function.update s.nodes ni n) : held s' uid ≤ max limit (held s uid) := by
  have hsum := Tally.sum_update (charge uid) s.nodes ni n
  rw [← hnodes] at hsum
  change held s' uid + _ = held s uid + _ at hsum
  rw [charge, charge, hplain, huid] at hsum
  split_ifs at hsum with hmine
  · obtain rfl : (s.nodes ni).uid = uid := by simpa using (Bool.and_eq_true_iff.mp hmine).2
    have hused := quotaUsed_eq s (s.nodes ni).uid
    simp only [overQuota, hfixed, hused] at hq
    simp [hlimit] at hq
    omega
  · omega

/-- A write never takes its owner beyond the limit, and one that is over it already not further. -/
theorem held_write {limit : ℕ} (hlimit : limit ≠ 0) (hword : limit < word)
    (hfixed : quotaLimit s uid = limit) (fd : ℕ) (bytes : Str) :
    held (write fd bytes s).2 uid ≤ max limit (held s uid) := by
  obtain ⟨-, hsame, -⟩ | ⟨i, f, ni, ha⟩ := write_cases fd bytes s
  · exact (held_of_nodes hsame).le.trans (le_max_right _ _)
  have hq := ha.quota
  generalize hpos : (s.nodes ni).start f = pos at hq
  generalize hdata : bytes.take (word - 1 - pos) = data at hq
  have hran := ran_fields s ni (pos + data.length)
  obtain ⟨n, hn⟩ : ∃ n, n = (s.nodes ni).ran (reserved s ni (pos + data.length)) := ⟨_, rfl⟩
  rw [← hn] at hran
  obtain ⟨-, -, hnodes⟩ | ⟨-, -, s', hrun, hnodes⟩ := write_run ha hpos.symm hdata.symm rfl rfl hn
  · refine held_grown hlimit hword hfixed hq ?_ ?_ ?_ hnodes <;> rw [hran]
    · rfl
    · exact le_max_left _ _
  rw [hrun]
  refine held_grown hlimit hword hfixed hq ?_ ?_ ?_ hnodes
  · rw [hran]
    rfl
  · rw [hran]
    rfl
  rw [Node.written, hran]
  refine max_le_max le_rfl (Nat.add_le_add_left ?_ _)
  cases reserved s ni (pos + data.length) with
  | refused => exact (length_take_le' ..)
  | _ => exact le_rfl

theorem held_open (path : Str) (flags : ℕ) (s : State) :
    held («open» path flags s).2 uid ≤ held s uid :=
  held_le fun _ hj => ((openRun_open s path flags).node_cases hj).imp (·.1) (·.2)

theorem held_step {limit : ℕ} (hlimit : limit ≠ 0) (hword : limit < word)
    (hfixed : quotaLimit s uid = limit) (c : Metered) :
    held (Metered.step s c) uid ≤ max limit (held s uid) := by
  cases c with
  | unlink path =>
    rw [Metered.step, step, perform, ignore_snd]
    exact (held_unlink path s).trans (le_max_right _ _)
  | file a =>
    cases hq : a.quiet with
    | true => exact (held_of_nodes (quiet_nodes hq s)).le.trans (le_max_right _ _)
    | false =>
      cases a with
      | «open» path flags =>
        rw [Metered.step, step, FileCall.op, perform, ignore_snd]
        exact (held_open path flags s).trans (le_max_right _ _)
      | write fd bytes =>
        rw [Metered.step, step, FileCall.op, perform, ignore_snd]
        exact held_write hlimit hword hfixed fd bytes
      | _ => cases hq

/-- What a user holds never exceeds a fixed limit, or what it was at the start; and a write that is
refused for the quota changes no file. -/
theorem quota_kept (s : State) (uid limit : ℕ) (hlimit : limit ≠ 0) (hword : limit < word)
    (calls : List Metered)
    (hfixed : Always Metered.step (fun s => quotaLimit s uid = limit) s calls) :
    held (after Metered.step s calls) uid ≤ max limit (held s uid) ∧
      ∀ fd bytes, (write fd bytes (after Metered.step s calls)).1 = some (.error .dquot) →
        (write fd bytes (after Metered.step s calls)).2.nodes =
          (after Metered.step s calls).nodes := by
  refine ⟨?_, fun fd bytes => write_refused⟩
  induction calls generalizing s with
  | nil => exact le_max_right _ _
  | cons c calls ih =>
    rw [always_cons] at hfixed
    exact (ih (c.step s) hfixed.2).trans
      (max_le (le_max_left _ _) (held_step hlimit hword hfixed.1 c))

/-- A user with a limit of 2 makes `/a` and writes two bytes to it; a third is refused. -/
theorem quota_kept_two : held (after Metered.step { roomy.state with quotaDefault := 2 }
      [.file (.open [slash, 97] (oCreat + oRdwr)), .file (.write 3 [1, 2]), .file (.write 3 [3])])
        0 ≤ max 2 (held { roomy.state with quotaDefault := 2 } 0) := by
  refine (quota_kept _ 0 2 (by decide) (by decide) _ ?_).1
  simp only [always_cons, always_nil]
  exact ⟨rfl, by decide +kernel, by decide +kernel, by decide +kernel⟩

end Vnu.Vfs
