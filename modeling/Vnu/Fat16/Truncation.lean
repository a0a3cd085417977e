import Vnu.Fat16.Writing

/-!
`truncate` on a volume that holds a layout. A file grows by zeroed clusters and shrinks by a cut in
the chain.
-/
namespace Vnu.Fat16

open Lib Lib.Links Lib.Blocks Lib.Overlay List Act Nat

variable {keep size : ℕ} {l : List ℕ} {ev : Entry}

section

variable {fs : Fs} (hg : Geometry fs)
include hg

structure Cut (fs : Fs) (v v' : View) (first : ℕ) (l : List ℕ) (keep : ℕ) : Prop where
  chain : Chain fs v'.fat first (l.take keep)
  fat : ∀ x, x ∉ l → v'.fat x = v.fat x
  freed : ∀ x ∈ l.drop keep, v'.fat x = 0
  dat : v'.dat = v.dat

/-- The chain ends behind its first `keep` clusters and the others are free. -/
theorem cut_ends (d : Disk) {first : ℕ} (h : Chain fs (view fs d).fat first l)
    (hpos : 0 < keep) (hkeep : keep ≤ l.length) :
    (do
      let last ← query (chainAt fs first (keep - 1))
      let rest ← query (fatNext fs last)
      cutBehind fs last rest : Act Disk Unit).Ends d
      (fun _ d' => Cut fs (view fs d) (view fs d') first l keep) fun _ => False := by
  have hlt : keep - 1 < l.length := by omega
  have hnd := h.nodup hg
  have hin := h.range _ (get_mem l ⟨keep - 1, hlt⟩)
  have hnext : fatNext fs (l.get ⟨keep - 1, hlt⟩) d = some (l.getD keep 0) := by
    rw [fatNext_eq hg d hin.2, h.next hg hlt]
    congr 2
    omega
  simp only [ends_bind, ends_query_some (chainAt_eq hg d h hlt)]
  rw [ends_query_some hnext]
  have hsplit : l = l.take keep ++ l.drop keep := (take_append_drop keep l).symm
  have hlinks : Linked (view fs d).fat ((l.drop keep).headD 0xFFFF) (l.take keep) ∧
      Linked (view fs d).fat 0xFFFF (l.drop keep) := by
    rw [← linked_append, ← hsplit]
    exact h.links
  have hfirst : first = (l.take keep).headD 0 := by
    rw [h.head]
    cases l with
    | nil => simp
    | cons a l =>
      obtain ⟨k, rfl⟩ : ∃ k, keep = k + 1 := ⟨keep - 1, by omega⟩
      rfl
  have hrange : ∀ x ∈ l.take keep, fs.InRange x := fun x hx => h.range x (mem_of_mem_take hx)
  have hdisj : ∀ x ∈ l.take keep, x ∉ l.drop keep := fun x hx hx' =>
    disjoint_take_drop hnd le_rfl hx hx'
  by_cases hall : keep = l.length
  · have hzero : l.getD keep 0 = 0 := by
      rw [getD_eq_default _ _ (by omega)]
    rw [hzero]
    refine ⟨?_, fun _ _ => rfl, ?_, rfl⟩
    · rwa [take_of_length_le (by omega)]
    · rw [drop_eq_nil_of_le (by omega)]
      simp
  have hklt : keep < l.length := by omega
  have hrest : l.getD keep 0 = (l.drop keep).headD 0 := by
    rw [drop_eq_getElem_cons hklt, headD_cons, getD_eq_getElem _ _ hklt]
  have hchain : Chain fs (view fs d).fat ((l.drop keep).headD 0) (l.drop keep) :=
    ⟨rfl, hlinks.2, fun x hx => h.range x (mem_of_mem_drop hx)⟩
  have hne : l.drop keep ≠ [] := by
    rw [ne_eq, drop_eq_nil_iff]
    omega
  have hlast : l.get ⟨keep - 1, hlt⟩ ∈ l.take keep := by
    exact mem_take_iff_getElem.mpr ⟨keep - 1, by omega, rfl⟩
  rw [hrest, cutBehind, if_neg (hchain.ne_zero hne), ends_bind]
  refine (freeChain_ends hg d hchain).imp ?_
  intro _ d₁ hview₁
  refine (fatSet_ends hg d₁ hin.2 (by decide)).imp ?_
  intro _ d₂ hview₂
  have hfat : ∀ x, (view fs d₂).fat x = if x = l.get ⟨keep - 1, hlt⟩ then 0xFFFF
      else if x ∈ l.drop keep then 0 else (view fs d).fat x := by
    intro x
    rw [hview₂, hview₁, setFat_fat, Function.update_apply]
    rfl
  refine ⟨⟨hfirst, ?_, hrange⟩, ?_, ?_, ?_⟩
  · have htake : l.take keep ≠ [] := ne_nil_of_mem hlast
    have hget : (l.take keep).getLast htake = l.get ⟨keep - 1, hlt⟩ := by
      rw [getLast_eq_getElem, getElem_take]
      congr 1
      rw [length_take]
      omega
    refine linked_retarget hlinks.1 htake ?_ ?_
    · intro x hx
      have hxt := mem_of_mem_dropLast hx
      have hxl : x ≠ l.get ⟨keep - 1, hlt⟩ := by
        rintro rfl
        have hndt : (l.take keep).Nodup := hnd.sublist (take_sublist _ _)
        rw [← dropLast_concat_getLast htake, hget, nodup_append] at hndt
        exact hndt.2.2 _ hx _ (mem_singleton_self _) rfl
      rw [hfat, if_neg hxl, if_neg (hdisj x hxt)]
    · rw [hget, hfat, if_pos rfl]
  · intro x hx
    rw [hfat, if_neg, if_neg]
    · exact fun hxd => hx (mem_of_mem_drop hxd)
    · rintro rfl
      exact hx (get_mem l _)
  · intro x hx
    rw [hfat, if_neg, if_pos hx]
    rintro rfl
    exact hdisj _ hlast hx
  · rw [hview₂, hview₁]
    rfl

end

theorem bytes_take {fs : Fs} (v : View) {k : ℕ} (hk : k ≤ l.length) :
    v.bytes fs (l.take k) (k * fs.cb) = (v.bytes fs l (l.length * fs.cb)).take (k * fs.cb) := by
  have hle := Nat.mul_le_mul_right fs.cb hk
  have hlen : (l.take k).length = k := by
    rw [length_take]
    omega
  rw [View.bytes, View.bytes, ← map_take, take_range, min_eq_left hle]
  apply map_congr_left
  intro i hi
  rw [mem_range] at hi
  change flat v.dat fs.cb (l.take k) i = flat v.dat fs.cb l i
  conv_rhs => rw [← take_append_drop k l]
  rw [flat_append_left (by rwa [hlen])]

def Layout.Truncated (fs : Fs) (L L' : Layout) (q : ℕ) (ev : Entry) (size : ℕ) : Prop :=
  ∃ front g back nf l bs, L.items q = front ++ .live g :: back ∧
    ev = g.entry (32 * (itemSlots front).length) ∧
    L' = L.edit q (front ++ .live (g.located nf size) :: back) ev.pos l bs ∧
    ((ev.size < size ∧ fs.clustersFor size ≤ l.length ∧ ∃ new,
        l = L.regions (.file q ev.pos) ++ new ∧
        bs = L.data (.file q ev.pos) ++ replicate (new.length * fs.cb) 0) ∨
      (size < ev.size ∧ fs.clustersFor size = 0 ∧ l = [] ∧ bs = []) ∨
      (size < ev.size ∧ 0 < fs.clustersFor size ∧
        fs.clustersFor size ≤ (L.regions (.file q ev.pos)).length ∧
        l = (L.regions (.file q ev.pos)).take (fs.clustersFor size) ∧
        bs = (L.data (.file q ev.pos)).take size ++
          replicate (fs.clustersFor size * fs.cb - size) 0))

section

variable {fs : Fs} (hg : Geometry fs) {d : Disk} {L : Layout} (h : Holds fs (view fs d) L) {q : ℕ}
  (hq : q ∈ L.dirs)
include h hq

theorem Holds.cut {v' : View} (hev : ev ∈ L.kids q) (hfile : ev.isDir = false) (hpos : 0 < keep)
    (hkeep : keep ≤ (L.regions (.file q ev.pos)).length)
    (hc : Cut fs (view fs d) v' ev.cluster (L.regions (.file q ev.pos)) keep) :
    Staged fs v' L q ev ((L.regions (.file q ev.pos)).take keep) := by
  have hne : L.regions (.file q ev.pos) ≠ [] := by
    intro hnil
    rw [hnil, length_nil] at hkeep
    omega
  refine Or.inl ⟨hne, h.changeFile hq hev hfile hc.chain ?_ ?_ ?_⟩
  · intro o ho x hx
    exact ⟨hc.fat x (h.owns.notMem ho hx), by rw [hc.dat]⟩
  · exact fun x hx => Or.inl (mem_of_mem_take hx)
  intro x _ hx
  by_cases hxl : x ∈ L.regions (.file q ev.pos)
  · have hdrop : x ∈ (L.regions (.file q ev.pos)).drop keep := by
      rw [← take_append_drop keep (L.regions (.file q ev.pos)), mem_append] at hxl
      exact hxl.resolve_left hx
    simp [hc.freed x hdrop, hxl]
  · simp [hc.fat x hxl, hxl]

include hg

theorem Holds.drop_ends {front back : List Item} {g : Group} {d₁ : Disk}
    (hitems : L.items q = front ++ .live g :: back) (hev : g.entry (endOf front) ∈ L.kids q)
    (hfile : (g.entry (endOf front)).isDir = false) (hview : view fs d₁ = (view fs d).free
      (L.regions (.file q (g.entry (endOf front)).pos))) :
    (updateEntry fs q (g.entry (endOf front)).pos 0 size).Ends d₁
      (fun _ d' => Holds fs (view fs d') (L.edit q (front ++ .live (g.located 0 size) :: back)
        (g.entry (endOf front)).pos [] []))
      fun _ => False := by
  obtain ⟨harea, tail, hslots, htail⟩ := h.freed_dir hq
    (fun x hx => h.owns.notMem (by simp) hx) hview
  rw [hitems] at hslots
  refine (updateEntry_group hg d₁ harea hslots 0 size).imp ?_
  rintro _ d' ⟨hw, hs⟩
  obtain ⟨v', hfree, hw', hdat⟩ := Within.unfree hview hw
  rw [hfree]
  apply h.reclaim_file
  have hnew : ∀ ev ∈ entriesAt (endOf front) [.live (g.located 0 size)],
      ev.pos = (g.entry (endOf front)).pos ∧ ev.isDir = false ∧
        Chain fs (view fs d).fat ev.cluster [] := by
    intro ev he
    simp only [entriesAt, mem_singleton] at he
    subst he
    exact ⟨rfl, hfile, rfl, trivial, by simp⟩
  have hlen : (itemSlots [.live (g.located 0 size)]).length = g.slots.length := by
    simp [Item.slots, Group.slots, Group.located]
  exact h.replace_nil hq hitems (Layout.mem_kids.mp hev).2 hlen hw'
    ((slots_congr fun r _ => by rw [hdat]).trans hs) htail hnew

omit h hq in
theorem clustersFor_pred (hpos : 0 < fs.clustersFor size) (hsize : size < 2 ^ 32) :
    (fs.clustersFor size - 1) * fs.cb < size ∧ size ≤ fs.clustersFor size * fs.cb := by
  have hcb := hg.cb_pos
  have hwrap : size + fs.cb ≤ 2 ^ 32 := by
    by_contra hno
    rw [clustersFor_wrap (by omega) hsize] at hpos
    omega
  refine ⟨?_, le_clustersFor hg hwrap⟩
  rw [Fs.clustersFor, Nat.mod_eq_of_lt (by omega)] at hpos ⊢
  have hdiv := Nat.div_mul_le_self (size + fs.cb - 1) fs.cb
  have hle := (Nat.div_pos_iff.mp hpos).2
  rw [Nat.sub_mul]
  omega

theorem Holds.shrinkTo_ends (hev : ev ∈ L.kids q)
    (hfile : ev.isDir = false) (hpos : 0 < fs.clustersFor size) (hsize : size < 2 ^ 32) :
    (shrinkTo fs ev.cluster (fs.clustersFor size) size).Ends d
      (fun _ d' => fs.clustersFor size ≤ (L.regions (.file q ev.pos)).length ∧
        Staged fs (view fs d') L q ev ((L.regions (.file q ev.pos)).take (fs.clustersFor size)) ∧
        Chain fs (view fs d').fat ev.cluster
          ((L.regions (.file q ev.pos)).take (fs.clustersFor size)) ∧
        (view fs d').bytes fs ((L.regions (.file q ev.pos)).take (fs.clustersFor size))
            (((L.regions (.file q ev.pos)).take (fs.clustersFor size)).length * fs.cb) =
          (L.data (.file q ev.pos)).take size ++ replicate (fs.clustersFor size * fs.cb - size) 0)
      (fun d' => d' = d) := by
  have hchain := (h.dir q hq).file ev hev hfile
  have hbytes := h.data q ev.pos
  obtain ⟨hlo, hhi⟩ := clustersFor_pred hg hpos hsize
  generalize hkeep : fs.clustersFor size = keep at *
  generalize hl : L.regions (.file q ev.pos) = l at *
  by_cases hle : keep ≤ l.length
  · suffices hcut : (do
        let last ← query (chainAt fs ev.cluster (keep - 1))
        let rest ← query (fatNext fs last)
        cutBehind fs last rest : Act Disk Unit).Ends d
        (fun _ d₁ => (if size - (keep - 1) * fs.cb < fs.cb then
          rangeWrite fs ev.cluster size (fun _ => 0) (fs.cb - (size - (keep - 1) * fs.cb))
          else pure ()).Ends d₁ _ fun d' => d' = d) fun d' => d' = d by
      simpa only [shrinkTo, ends_bind] using hcut
    refine (cut_ends hg d hchain hpos hle).imp ?_
    intro _ d₁ hc
    have hst : Staged fs (view fs d₁) L q ev (l.take keep) := by
      rw [← hl] at hc hle ⊢
      exact h.cut hq hev hfile hpos hle hc
    have htake : (l.take keep).length = keep := by
      rw [length_take]
      omega
    have hdata : (view fs d₁).bytes fs (l.take keep) ((l.take keep).length * fs.cb) =
        (L.data (.file q ev.pos)).take (keep * fs.cb) := by
      have hsame : (view fs d₁).bytes fs l (l.length * fs.cb) =
          (view fs d).bytes fs l (l.length * fs.cb) :=
        view_bytes_congr (fun x _ => by rw [hc.dat]) le_rfl
      rw [htake, bytes_take _ hle, hsame, hbytes]
    have hone : keep * fs.cb = (keep - 1) * fs.cb + fs.cb := by
      rw [Nat.sub_mul]
      have := Nat.le_mul_of_pos_left fs.cb hpos
      omega
    split_ifs with htail
    · refine (rangeWrite_ends hg d₁ _ hc.chain hst.reserved (by omega)).mono ?_ ?_
      · rintro _ d' ⟨hfit, hs⟩
        refine ⟨hle, hst.store hq hev hfile hs.within, hc.chain.congr fun x _ => by rw [hs.fat], ?_⟩
        rw [hs.bytes hfit, hdata, map_const', length_range, overlay, take_take,
          drop_eq_nil_of_le, append_nil, min_eq_left hhi]
        · congr 2
          omega
        · rw [length_replicate, length_take]
          omega
      · rintro d' ⟨hshort, -⟩
        rw [htake] at hshort
        omega
    · refine ⟨hle, hst, hc.chain, ?_⟩
      have hsize : size = keep * fs.cb := by omega
      rw [hdata, hsize, Nat.sub_self, replicate_zero, append_nil]
  · have hnone := chainAt_none hg d hchain h.reserved (show l.length ≤ keep - 1 by omega)
    rw [shrinkTo, ends_bind, ends_query_none hnone]

/-- A `truncate` that fails may have made the chain longer, but neither size nor bytes change. -/
theorem truncate_ends {name : List UInt8} (hsize : size < 2 ^ 32) :
    (truncate fs q name size).Ends d
      (fun _ d' => ∃ ev, findEntry fs q name d = some ev ∧ ev.isDir = false ∧ ev ∈ L.kids q ∧
        ((size = ev.size ∧ d' = d) ∨ (size ≠ ev.size ∧
          ∃ L', L.Truncated fs L' q ev size ∧ Holds fs (view fs d') L')))
      (fun d' => (d' = d ∧ ∀ ev, findEntry fs q name d = some ev → ev.isDir = true ∨
          size < ev.size) ∨
        ∃ ev l, findEntry fs q name d = some ev ∧ ev.isDir = false ∧
        ev ∈ L.kids q ∧ ev.size < size ∧ Staged fs (view fs d') L q ev l ∧
        Starved fs (view fs d) (view fs d') (L.regions (.file q ev.pos)) l
          (fs.clustersFor size)) := by
  rw [truncate, ends_bind]
  cases hfind : findEntry fs q name d with
  | none =>
    rw [ends_query_none hfind]
    exact Or.inl ⟨rfl, fun ev hev => by cases hev⟩
  | some ev =>
    rw [ends_query_some hfind]
    by_cases hdir : ev.isDir = true
    · rw [if_pos hdir]
      exact Or.inl ⟨rfl, fun ev' hev' => Or.inl (Option.some.inj hev' ▸ hdir)⟩
    have hfile : ev.isDir = false := by simpa using hdir
    have hev := h.find_file hg hq hfind hfile
    rw [if_neg hdir]
    by_cases hsame : size = ev.size
    · rw [if_pos hsame]
      exact ⟨ev, rfl, hfile, hev, Or.inl ⟨hsame, rfl⟩⟩
    rw [if_neg hsame]
    by_cases hgrow : ev.size < size
    · rw [if_pos hgrow, ends_bind]
      refine (h.ensureChain_ends hg hq hev hfile _).mono ?_ ?_
      · rintro nf d₁ ⟨new, hst, hchain, hneed, -, hbytes⟩
        obtain ⟨front, g, back, hitems, rfl, -⟩ := Layout.kid_group hev
        refine (hst.updateEntry_ends hg hq hitems hev hfile hchain).imp ?_
        intro _ d' hd
        exact ⟨_, rfl, hfile, hev, Or.inr ⟨hsame, _, ⟨front, g, back, nf, _, _, hitems, rfl, rfl,
          Or.inl ⟨hgrow, hneed, new, rfl, hbytes⟩⟩, hd⟩⟩
      · rintro d' ⟨l, hst, hstarved⟩
        exact Or.inr ⟨ev, l, rfl, hfile, hev, hgrow, hst, hstarved⟩
    have hshrink : size < ev.size := by omega
    rw [if_neg hgrow]
    split_ifs with hzero
    · rw [ends_bind]
      refine (dropChain_ends hg d ((h.dir q hq).file ev hev hfile)).imp ?_
      intro _ d₁ hview
      obtain ⟨front, g, back, hitems, rfl, -⟩ := Layout.kid_group hev
      refine (h.drop_ends hg hq hitems hev hfile hview).imp ?_
      intro _ d' hd
      exact ⟨_, rfl, hfile, hev, Or.inr ⟨hsame, _, ⟨front, g, back, 0, _, _, hitems, rfl, rfl,
        Or.inr (Or.inl ⟨hshrink, hzero, rfl, rfl⟩)⟩, hd⟩⟩
    · rw [ends_bind]
      have hpos : 0 < fs.clustersFor size := Nat.pos_of_ne_zero hzero
      refine (h.shrinkTo_ends hg hq hev hfile hpos hsize).mono ?_ fun _ hd =>
        Or.inl ⟨hd, fun ev' hev' => Or.inr (Option.some.inj hev' ▸ hshrink)⟩
      rintro _ d₁ ⟨hkeep, hst, hchain, hbytes⟩
      obtain ⟨front, g, back, hitems, rfl, -⟩ := Layout.kid_group hev
      refine (hst.updateEntry_ends hg hq hitems hev hfile hchain).imp ?_
      intro _ d' hd
      exact ⟨_, rfl, hfile, hev, Or.inr ⟨hsame, _, ⟨front, g, back, _, _, _, hitems, rfl, rfl,
        Or.inr (Or.inr ⟨hshrink, hpos, hkeep, rfl, hbytes⟩)⟩, hd⟩⟩

end

end Vnu.Fat16
