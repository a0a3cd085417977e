import Vnu.Fat16.Chains

/-!
Freeing and growing chains. A chain grows by free clusters that come back zeroed; an allocation that
fails keeps what it linked before.
-/
namespace Vnu.Fat16

open Lib Lib.Links List Option Act Nat

variable {first c : ℕ} {v' : View} {new : List ℕ} {d₁ : Disk}

open Classical in
noncomputable def View.free (v : View) (l : List ℕ) : View :=
  { v with fat := fun c => if c ∈ l then 0 else v.fat c }

theorem free_nil (v : View) : v.free [] = v := by
  simp [View.free]

/-- The walk frees exactly the clusters of the chain. -/
theorem freeChainLoop_ends {fs : Fs} (hg : Geometry fs) (d : Disk) {l : List ℕ}
    (k fuel : ℕ) (h : Chain fs (view fs d).fat first l) (hfuel : l.length < fuel)
    (hk : k + l.length ≤ fs.maxCluster + 2) :
    (freeChainLoop fs fuel k first).Ends d (fun _ d' => view fs d' = (view fs d).free l)
      fun _ => False := by
  induction l generalizing d first k fuel with
  | nil =>
    obtain ⟨fuel, rfl⟩ : ∃ m, fuel = m + 1 := ⟨fuel - 1, by omega⟩
    obtain rfl : first = 0 := h.head
    have hr : ¬ fs.InRange 0 := fun hr => absurd hr.1 (by omega)
    simp only [freeChainLoop, hr, if_false, ends_pure, free_nil]
  | cons a l ih =>
    obtain ⟨fuel, rfl⟩ : ∃ m, fuel = m + 1 := ⟨fuel - 1, by omega⟩
    obtain ⟨hr, hrest⟩ := h.tail hg
    obtain rfl : first = a := h.head
    simp only [length_cons] at hfuel hk
    have hguard : ¬ k + 1 > fs.maxCluster + 2 := by omega
    simp only [freeChainLoop, hr, if_true, hguard, if_false, ends_bind,
      ends_query_some (fatNext_eq hg d hr.2)]
    refine (fatSet_ends hg d hr.2 (by omega)).mono ?_ fun _ h => h
    intro _ d₁ hd₁
    have hnd := nodup_cons.mp (h.nodup hg)
    have hkept : ∀ x ∈ l, (view fs d₁).fat x = (view fs d).fat x := by
      intro x hx
      rw [hd₁, setFat_fat, Function.update_of_ne]
      rintro rfl
      exact hnd.1 hx
    refine (ih d₁ (k + 1) fuel (hrest.congr hkept) (by omega) (by omega)).mono ?_ fun _ h => h
    intro _ d₂ hd₂
    rw [hd₂, hd₁]
    apply View.ext
    · funext c
      by_cases hc : c = first
      · subst hc
        simp [View.free]
      · simp [View.free, hc]
    · rfl

theorem freeChain_ends {fs : Fs} (hg : Geometry fs) (d : Disk) {l : List ℕ}
    (h : Chain fs (view fs d).fat first l) :
    (freeChain fs first).Ends d (fun _ d' => view fs d' = (view fs d).free l) fun _ => False := by
  have hlen := h.length_le hg
  exact freeChainLoop_ends hg d 0 _ h (by omega) (by omega)

theorem dropChain_ends {fs : Fs} (hg : Geometry fs) (d : Disk) {l : List ℕ}
    (h : Chain fs (view fs d).fat first l) :
    (dropChain fs first).Ends d (fun _ d' => view fs d' = (view fs d).free l) fun _ => False := by
  unfold dropChain
  split
  · rename_i hfirst
    subst hfirst
    rw [h.eq_nil]
    exact (free_nil _).symm
  · exact freeChain_ends hg d h

/-- The list `l` was continued by clusters that were free, and nothing else changed. -/
structure Grown (fs : Fs) (v v' : View) (l new : List ℕ) : Prop where
  nodup : new.Nodup
  fresh : ∀ x ∈ new, fs.InRange x ∧ v.fat x = 0
  links : Linked v'.fat 0xFFFF (l ++ new)
  fat : ∀ x, x ∉ new → l.getLast? ≠ some x → v'.fat x = v.fat x
  dat : ∀ x, x ∉ new → v'.dat x = v.dat x
  zero : ∀ x ∈ new, v'.dat x = fun _ => 0
  nil : new = [] → v' = v

theorem Grown.refl {fs : Fs} {v : View} {l : List ℕ} (h : Linked v.fat 0xFFFF l) :
    Grown fs v v l [] :=
  ⟨nodup_nil, by simp, by simpa using h, by simp, by simp, by simp, fun _ => rfl⟩

theorem Grown.range {fs : Fs} {v : View} {l : List ℕ} (h : Grown fs v v' l new)
    (hl : ∀ x ∈ l, fs.InRange x) : ∀ x ∈ l ++ new, fs.InRange x := by
  intro x hx
  rcases mem_append.mp hx with hx | hx
  · exact hl x hx
  · exact (h.fresh x hx).1

theorem Grown.chain {fs : Fs} {v : View} {l : List ℕ} (h : Grown fs v v' l new)
    (hl : ∀ x ∈ l, fs.InRange x) : Chain fs v'.fat ((l ++ new).headD 0) (l ++ new) :=
  ⟨rfl, h.links, h.range hl⟩

theorem view_dat_out {fs : Fs} (d : Disk) {r i : ℕ} (h : fs.regionBytes r ≤ i) :
    (view fs d).dat r i = 0 := by
  have hno : ¬ (fs.Region r ∧ i < fs.regionBytes r) := fun hin => absurd hin.2 (by omega)
  simp only [view, hno, if_false]

theorem alloc_fat (v : View) (fs : Fs) (prev c x : ℕ) : (v.alloc fs prev c).fat x =
    if x = prev ∧ prev ≠ 0 then c else if x = c then 0xFFFF else v.fat x := by
  unfold View.alloc View.link
  by_cases hp : prev = 0
  · subst hp
    by_cases hx : x = c <;> simp [hx]
  by_cases hxp : x = prev
  · simp [hp, hxp]
  · by_cases hx : x = c
    · subst hx
      simp [hp, hxp]
    · simp [hp, hxp, hx]

theorem alloc_dat_other {v : View} {fs : Fs} {prev : ℕ} {x : ℕ} (h : x ≠ c) :
    (v.alloc fs prev c).dat x = v.dat x := by
  unfold View.alloc
  rw [patch_dat_other _ _ _ _ h]
  unfold View.link
  split <;> rfl

theorem alloc_dat_new {fs : Fs} (d : Disk) (prev : ℕ) (hc : fs.InRange c) :
    ((view fs d).alloc fs prev c).dat c = fun _ => 0 := by
  have hdat : (((view fs d).setFat c 0xFFFF).link prev c).dat = (view fs d).dat := by
    unfold View.link
    split <;> rfl
  funext i
  unfold View.alloc
  by_cases hi : i < fs.cb
  · rw [patch_dat_in (zero_le i) (by omega)]
  · rw [patch_dat_out (by omega), hdat, view_dat_out]
    rw [regionBytes_cluster hc]
    omega

theorem getLastD_of_ne_nil {l : List ℕ} (h : l ≠ []) : l.getLastD 0 = l.getLast h := by
  rw [getLastD_eq_getLast?, getLast?_eq_some_getLast h, getD_some]

theorem Grown.snoc {fs : Fs} (hg : Geometry fs) {v : View} {l : List ℕ}
    (h : Grown fs v (view fs d₁) l new) (hl : ∀ x ∈ l, fs.InRange x) (hc : fs.InRange c)
    (hfree : (view fs d₁).fat c = 0) :
    Grown fs v ((view fs d₁).alloc fs ((l ++ new).getLastD 0) c) l (new ++ [c]) := by
  have hchain := h.chain hl
  have hnot : c ∉ l ++ new := fun hmem => hchain.used hmem hfree
  have hnd := hchain.nodup hg
  simp only [mem_append, not_or] at hnot
  have hold : v.fat c = 0 := by
    rw [← h.fat c hnot.2 ?_]
    · exact hfree
    · intro hlast
      exact hnot.1 (mem_of_getLast? hlast)
  refine ⟨?_, ?_, ?_, ?_, ?_, ?_, ?_⟩
  · exact nodup_append'.mpr ⟨h.nodup, nodup_singleton c, by simpa using hnot.2⟩
  · intro x hx
    rcases mem_append.mp hx with hx | hx
    · exact h.fresh x hx
    · obtain rfl := mem_singleton.mp hx
      exact ⟨hc, hold⟩
  · rw [← append_assoc, linked_append]
    refine ⟨?_, ?_⟩
    · by_cases hne : l ++ new = []
      · rw [hne]
        trivial
      apply linked_retarget h.links hne
      · intro x hx
        have hmem := mem_of_mem_dropLast hx
        have hxc : x ≠ c := by
          rintro rfl
          exact (mem_append.mp hmem).elim hnot.1 hnot.2
        have hxl : x ≠ (l ++ new).getLastD 0 := by
          rw [getLastD_of_ne_nil hne]
          rintro rfl
          have hsplit := dropLast_append_getLast hne
          rw [← hsplit] at hnd
          exact (nodup_append'.mp hnd).2.2 hx (mem_singleton_self _)
        rw [alloc_fat, if_neg (fun hcon => hxl hcon.1), if_neg hxc]
      · have hge := (hchain.range _ (getLast_mem hne)).1
        rw [alloc_fat, if_pos]
        · rfl
        · rw [getLastD_of_ne_nil hne]
          exact ⟨rfl, by omega⟩
    · refine ⟨?_, trivial⟩
      rw [alloc_fat, if_neg, if_pos rfl]
      · rfl
      rintro ⟨heq, hne0⟩
      have hne : l ++ new ≠ [] := by
        intro hnil
        rw [hnil] at hne0
        exact hne0 rfl
      rw [getLastD_of_ne_nil hne] at heq
      rw [heq] at hnot
      exact (mem_append.mp (getLast_mem hne)).elim hnot.1 hnot.2
  · intro x hx hlx
    simp only [mem_append, mem_singleton, not_or] at hx
    rw [alloc_fat, if_neg, if_neg hx.2]
    · exact h.fat x hx.1 hlx
    rintro ⟨heq, hne0⟩
    have hne : l ++ new ≠ [] := by
      intro hnil
      rw [hnil] at hne0
      exact hne0 rfl
    rw [getLastD_eq_getLast?] at heq
    cases hnew : new.getLast? with
    | none =>
      have : new = [] := getLast?_eq_none_iff.mp hnew
      subst this
      rw [append_nil] at heq hne
      rw [getLast?_eq_some_getLast hne, getD_some] at heq
      exact hlx (by rw [getLast?_eq_some_getLast hne, heq])
    | some y =>
      rw [getLast?_append, hnew] at heq
      have hy : x = y := by simpa using heq
      exact hx.1 (hy ▸ mem_of_getLast? hnew)
  · intro x hx
    simp only [mem_append, mem_singleton, not_or] at hx
    rw [alloc_dat_other hx.2]
    exact h.dat x hx.1
  · intro x hx
    rcases mem_append.mp hx with hx | hx
    · have hxc : x ≠ c := fun hcon => hnot.2 (hcon ▸ hx)
      rw [alloc_dat_other hxc]
      exact h.zero x hx
    · obtain rfl := mem_singleton.mp hx
      exact alloc_dat_new d₁ _ hc
  · simp

def View.Full (fs : Fs) (v : View) : Prop := ∀ c, fs.InRange c → v.fat c ≠ 0

section

variable {fs : Fs} (hg : Geometry fs) {v : View} {l : List ℕ} (hl : ∀ x ∈ l, fs.InRange x)
include hg hl

omit hg in
theorem Grown.last_le (h : Grown fs v v' l new) : (l ++ new).getLastD 0 ≤ fs.maxCluster := by
  by_cases hne : l ++ new = []
  · rw [hne]
    exact zero_le _
  · rw [getLastD_of_ne_nil hne]
    exact (h.range hl _ (getLast_mem hne)).2

/-- Either all `n` clusters are added, or the volume is full and fewer were. -/
theorem growChain_ends (n : ℕ) (h : Grown fs v (view fs d₁) l new) :
    (growChain fs n ((l ++ new).getLastD 0)).Ends d₁
      (fun _ d' => ∃ new', Grown fs v (view fs d') l new' ∧ new'.length = new.length + n ∧
        new'.head? = (new ++ new').head?)
      (fun d' => ∃ new', Grown fs v (view fs d') l new' ∧ new'.length < new.length + n ∧
        (view fs d').Full fs) := by
  induction n generalizing d₁ new with
  | zero =>
    refine ⟨new, h, rfl, ?_⟩
    cases new <;> rfl
  | succ n ih =>
    simp only [growChain, ends_bind]
    refine (clusterAlloc_ends hg d₁ (h.last_le hl)).mono ?_ ?_
    · rintro c d₂ ⟨hc, hfree, hview⟩
      have hgrown := h.snoc hg hl hc hfree
      rw [← hview] at hgrown
      have hlast : (l ++ (new ++ [c])).getLastD 0 = c := by
        simp
      have hrec := ih hgrown
      rw [hlast] at hrec
      simp only [length_append, length_singleton] at hrec
      refine hrec.mono ?_ ?_
      · rintro _ d' ⟨new', h1, h2, h3⟩
        refine ⟨new', h1, by omega, ?_⟩
        cases new with
        | nil => cases new' <;> rfl
        | cons a new => simpa using h3
      · rintro d' ⟨new', h1, h2, h3⟩
        exact ⟨new', h1, by omega, h3⟩
    · rintro d' ⟨rfl, hfull⟩
      exact ⟨new, h, by omega, hfull⟩

end

/-- A chain that cannot be made long enough stays as long as it has become. -/
theorem ensureChain_ends {fs : Fs} (hg : Geometry fs) (d : Disk) {need : ℕ} {l : List ℕ}
    (h : Chain fs (view fs d).fat first l) :
    (ensureChain fs first need).Ends d
      (fun nf d' => ∃ new, Grown fs (view fs d) (view fs d') l new ∧ nf = (l ++ new).headD 0 ∧
        need ≤ (l ++ new).length ∧ (need ≤ l.length → new = []))
      (fun d' => ∃ new, Grown fs (view fs d) (view fs d') l new ∧ (l ++ new).length < need ∧
        (view fs d').Full fs) := by
  have hrefl : Grown fs (view fs d) (view fs d) l [] := Grown.refl h.links
  unfold ensureChain
  split
  · rename_i hneed
    exact ⟨[], hrefl, by simpa using h.head, by omega, fun _ => rfl⟩
  simp only [ends_bind, ends_query_some (fileChainLen_eq hg d h)]
  split
  · rename_i hle
    exact ⟨[], hrefl, by simpa using h.head, by simpa using hle, fun _ => rfl⟩
  rename_i hneed hlt
  split
  · -- A file without clusters gets a first one, linked behind nothing.
    rename_i hlen
    obtain rfl := eq_nil_of_length_eq_zero hlen
    simp only [ends_bind]
    refine (clusterAlloc_ends hg d (zero_le _)).mono ?_ ?_
    · rintro c d₁ ⟨hc, hfree, hview⟩
      have hgrown := hrefl.snoc hg (by simp) hc hfree
      simp only [getLastD_nil, nil_append] at hgrown
      rw [← hview] at hgrown
      have hgrow := growChain_ends hg (by simp) (need - 1) hgrown
      simp only [length_singleton] at hgrow
      refine hgrow.mono ?_ ?_
      · rintro _ d' ⟨new, h1, h2, h3⟩
        refine ⟨new, h1, ?_, by simp only [nil_append]; omega, fun hle => ?_⟩
        · cases new with
          | nil =>
            omega
          | cons a new =>
            have ha : a = c := by simpa using h3
            simpa using ha.symm
        · simp only [length_nil] at hle
          omega
      · rintro d' ⟨new, h1, h2, h3⟩
        exact ⟨new, h1, by simp only [nil_append]; omega, h3⟩
    · rintro d' ⟨rfl, hfull⟩
      exact ⟨[], hrefl, by simp only [append_nil]; omega, hfull⟩
  · rename_i hlen
    have hne : l ≠ [] := fun hnil => hlen (by rw [hnil]; rfl)
    have hpos : l.length - 1 < l.length := by omega
    have hlast : l.get ⟨l.length - 1, hpos⟩ = (l ++ []).getLastD 0 := by
      rw [append_nil, getLastD_of_ne_nil hne, get_eq_getElem, getLast_eq_getElem]
    simp only [ends_bind, ends_query_some (chainAt_eq hg d h hpos)]
    rw [hlast]
    refine (growChain_ends hg h.range (need - l.length) hrefl).mono ?_ ?_
    · rintro _ d' ⟨new, h1, h2, -⟩
      refine ⟨new, h1, ?_, ?_, fun hle => absurd hle hlt⟩
      · rw [h.head]
        cases l with
        | nil => exact absurd rfl hne
        | cons a l => rfl
      · simp only [length_append] at h2 ⊢
        omega
    · rintro d' ⟨new, h1, h2, h3⟩
      refine ⟨new, h1, ?_, h3⟩
      simp only [length_append, length_nil] at h2 ⊢
      omega

end Vnu.Fat16
