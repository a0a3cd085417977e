import Vnu.Lib.History
import Vnu.Vfs.Edits

/-!
The node table as a tree. It can break in one way only, by an entry that is made below a regular
file.
-/
namespace Vnu.Vfs

open Lib List Function

variable {c path : Str} {cs : List Str} {i : Fin maxN} {d dir : Bool}

theorem lastSlash_append (pre : Str) (hc : slash ∉ c) :
    lastSlash (pre ++ slash :: c) = some pre.length := by
  have hidx : (pre ++ slash :: c).reverse.idxOf slash = c.length := by
    rw [reverse_append, reverse_cons, append_assoc, idxOf_append_of_notMem (by simpa using hc)]
    simp
  unfold lastSlash
  rw [hidx]
  simp

def Normal (path : Str) : Prop :=
  path.length < pathCap ∧ ∃ cs, (∀ c ∈ cs, IsComponent c) ∧ path = render cs

theorem normal_normalize {cwd : Str} (hcwd : IsCwd cwd) (arg : Str) : Normal (normalize cwd arg) :=
  ⟨(isCwd_normalize hcwd arg).fits, _, fun _ hc => isComponent_of_mem_walkWithin hc,
    normalize_eq hcwd arg⟩

theorem render_concat (cs : List Str) (c : Str) :
    render (cs ++ [c]) = (if cs = [] then [] else render cs) ++ slash :: c := by
  cases cs with
  | nil => simp [render]
  | cons d cs =>
    have happend : ∀ d : Str, intercalate [slash] (d :: (cs ++ [c])) =
        intercalate [slash] (d :: cs) ++ slash :: c := by
      induction cs with
      | nil =>
        intro d
        simp
      | cons e cs ih =>
        intro d
        have hstep : ∀ es : List Str, intercalate [slash] (d :: e :: es) =
            d ++ slash :: intercalate [slash] (e :: es) := by
          intro es
          simp
        rw [cons_append, hstep, ih]
        simp
    rw [render, cons_append, happend]
    rfl

theorem render_ne_root (hcs : ∀ c ∈ cs, IsComponent c) (hne : cs ≠ []) : render cs ≠ [slash] := by
  intro h
  have hc : components (render cs) = cs := components_render hcs
  rw [h] at hc
  exact hne (hc.symm.trans (by decide))

theorem isPrefixChild_render (hcs : ∀ d ∈ cs, IsComponent d)
    (hc : IsComponent c) : isPrefixChild (render cs) (render (cs ++ [c])) = true := by
  obtain ⟨hne, hfree⟩ := hc
  rw [render_concat]
  by_cases hnil : cs = []
  · subst hnil
    cases c with
    | nil => exact absurd rfl hne
    | cons b c => simpa [isPrefixChild, render] using hfree
  · unfold isPrefixChild
    rw [if_neg hnil, if_neg (render_ne_root hcs hnil)]
    simp [hne, hfree]

theorem parentPath_render (hc : IsComponent c) (hfits : (render (cs ++ [c])).length < pathCap) :
    parentPath (render (cs ++ [c])) = render cs := by
  rw [render_concat] at hfits ⊢
  have hlast := lastSlash_append (if cs = [] then [] else render cs) hc.2
  unfold parentPath
  rw [hlast]
  by_cases hnil : cs = []
  · subst hnil
    rfl
  rw [if_neg hnil] at hfits ⊢
  have hparent : (copy (render cs ++ slash :: c) pathCap).take (render cs).length = render cs := by
    unfold copy
    rw [take_take, take_append_of_le_length (by omega)]
    apply take_of_length_le
    rw [length_append] at hfits
    omega
  exact hparent

theorem isPrefixChild_parentPath (h : Normal path) (hroot : path ≠ [slash]) :
    isPrefixChild (parentPath path) path = true := by
  obtain ⟨hfits, cs, hcs, rfl⟩ := h
  rcases eq_nil_or_concat cs with rfl | ⟨cs, c, rfl⟩
  · exact absurd rfl hroot
  · rw [concat_eq_append] at hfits hcs ⊢
    have hc : IsComponent c := hcs c (by simp)
    rw [parentPath_render hc hfits]
    exact isPrefixChild_render (fun d hd => hcs d (mem_append_left _ hd)) hc

structure IsTree (s : State) : Prop where
  distinct : ∀ i j path d e, tree s i = some (path, d) → tree s j = some (path, e) → i = j
  parent : ∀ i path d, tree s i = some (path, d) → path ≠ [slash] →
    ∃ j, tree s j = some (parentPath path, true)

structure Written (s : State) : Prop where
  cwd : IsCwd s.cwd
  normal : ∀ i path d, tree s i = some (path, d) → Normal path

def MadeInDirectory (s : State) (op : Op) : Prop :=
  ∀ i path d, tree s i = none → tree (step s op) i = some (path, d) →
    ∃ j, tree s j = some (parentPath path, true)

section

variable {s s' : State}

theorem written_step (hs : Written s) (op : Op) : Written (step s op) := by
  obtain ⟨hedit, hcwd⟩ := step_edit s hs.cwd op
  refine ⟨hcwd, fun j path d hj => ?_⟩
  cases hedit with
  | same htree =>
    rw [htree] at hj
    exact hs.normal j path d hj
  | born i new dir free fresh parent written htree =>
    rw [htree] at hj
    by_cases hij : j = i
    · subst hij
      rw [update_self] at hj
      obtain ⟨rfl, rfl⟩ := Prod.mk.inj (Option.some.inj hj)
      obtain ⟨arg, harg⟩ := written
      rw [harg]
      exact normal_normalize hs.cwd arg
    · rw [update_of_ne hij] at hj
      exact hs.normal j path d hj
  | died i old dir was leaf htree =>
    rw [htree] at hj
    by_cases hij : j = i
    · subst hij
      rw [update_self] at hj
      cases hj
    · rw [update_of_ne hij] at hj
      exact hs.normal j path d hj

theorem hasChild_of_tree {child : Str}
    (hi : tree s i = some (child, d)) (h : isPrefixChild path child = true) :
    hasChild s.nodes path = true := by
  obtain ⟨hused, hpath, -⟩ := used_of_tree hi
  unfold hasChild
  rw [any_eq_true]
  exact ⟨i, mem_finRange i, by rw [hused, hpath, h]; rfl⟩

/-- What goes is a file or an empty directory. -/
theorem IsTree.died (hw : Written s) (ht : IsTree s) {old : Str} (was : tree s i = some (old, dir))
    (leaf : dir = true → old ≠ [slash] ∧ hasChild s.nodes old = false)
    (htree : tree s' = update (tree s) i none) : IsTree s' := by
  have hold : ∀ j e, tree s' j = some e → j ≠ i ∧ tree s j = some e := by
    intro j e hj
    rw [htree] at hj
    by_cases hij : j = i
    · subst hij
      rw [update_self] at hj
      cases hj
    · rw [update_of_ne hij] at hj
      exact ⟨hij, hj⟩
  refine ⟨fun j k path d e hj hk => ?_, fun j path d hj hroot => ?_⟩
  · exact ht.distinct j k path d e (hold j _ hj).2 (hold k _ hk).2
  have hj' := (hold j _ hj).2
  obtain ⟨k, hk⟩ := ht.parent j path d hj' hroot
  refine ⟨k, ?_⟩
  have hki : k ≠ i := by
    rintro rfl
    -- the parent is the directory that goes, which has no child
    obtain ⟨hpath, hdir⟩ := Prod.mk.inj (Option.some.inj (was.symm.trans hk))
    have hchild := hasChild_of_tree hj' (isPrefixChild_parentPath (hw.normal j path d hj') hroot)
    rw [← hpath, (leaf hdir).2] at hchild
    cases hchild
  rw [htree, update_of_ne hki]
  exact hk

/-- The parent was looked up by its path only, and may be a regular file. -/
theorem isTree_born_iff (ht : IsTree s) {new : Str}
    (free : tree s i = none) (fresh : ¬ Used s new) (parent : Used s (parentPath new))
    (htree : tree s' = update (tree s) i (some (new, dir))) :
    IsTree s' ↔ ∃ j, tree s j = some (parentPath new, true) := by
  have hnew : tree s' i = some (new, dir) := by
    rw [htree, update_self]
  have hkept : ∀ j e, tree s j = some e → tree s' j = some e := by
    intro j e hj
    have hji : j ≠ i := by
      rintro rfl
      rw [free] at hj
      cases hj
    rw [htree, update_of_ne hji]
    exact hj
  have hback : ∀ j path d, tree s' j = some (path, d) → j ≠ i → tree s j = some (path, d) := by
    intro j path d hj hji
    rwa [htree, update_of_ne hji] at hj
  have hother : parentPath new ≠ new := fun h => fresh (h ▸ parent)
  constructor
  · intro h
    have hroot : new ≠ [slash] := by
      rintro rfl
      exact hother rfl
    obtain ⟨j, hj⟩ := h.parent i new dir hnew hroot
    refine ⟨j, hback j _ _ hj ?_⟩
    rintro rfl
    exact hother (congrArg Prod.fst (Option.some.inj (hj.symm.trans hnew)))
  rintro ⟨k, hk⟩
  refine ⟨fun j l path d e hj hl => ?_, fun j path d hj hroot => ?_⟩
  · by_cases hji : j = i
    · by_cases hli : l = i
      · rw [hji, hli]
      · subst hji
        have hpath : new = path := congrArg Prod.fst (Option.some.inj (hnew.symm.trans hj))
        exact absurd ⟨l, e, hpath ▸ hback l path e hl hli⟩ fresh
    · by_cases hli : l = i
      · subst hli
        have hpath : new = path := congrArg Prod.fst (Option.some.inj (hnew.symm.trans hl))
        exact absurd ⟨j, d, hpath ▸ hback j path d hj hji⟩ fresh
      · exact ht.distinct j l path d e (hback j path d hj hji) (hback l path e hl hli)
  · by_cases hji : j = i
    · subst hji
      have hpath : new = path := congrArg Prod.fst (Option.some.inj (hnew.symm.trans hj))
      rw [← hpath]
      exact ⟨k, hkept k _ hk⟩
    · obtain ⟨l, hl⟩ := ht.parent j path d (hback j path d hj hji) hroot
      exact ⟨l, hkept l _ hl⟩

theorem isTree_step_iff (hw : Written s) (ht : IsTree s) (op : Op) :
    IsTree (step s op) ↔ MadeInDirectory s op := by
  have hedit := (step_edit s hw.cwd op).1
  cases hedit with
  | same htree =>
    refine iff_of_true ⟨?_, ?_⟩ ?_
    · rw [htree]
      exact ht.distinct
    · rw [htree]
      exact ht.parent
    · intro i path d hnone hsome
      rw [htree, hnone] at hsome
      cases hsome
  | born i new dir free fresh parent written htree =>
    rw [isTree_born_iff ht free fresh parent htree]
    constructor
    · intro h j path d hnone hsome
      rw [htree] at hsome
      by_cases hji : j = i
      · subst hji
        rw [update_self] at hsome
        obtain ⟨rfl, rfl⟩ := Prod.mk.inj (Option.some.inj hsome)
        exact h
      · rw [update_of_ne hji, hnone] at hsome
        cases hsome
    · intro h
      refine h i new dir free ?_
      rw [htree, update_self]
  | died i old dir was leaf htree =>
    refine iff_of_true (ht.died hw was leaf htree) ?_
    intro j path d hnone hsome
    rw [htree] at hsome
    by_cases hji : j = i
    · subst hji
      rw [update_self] at hsome
      cases hsome
    · rw [update_of_ne hji, hnone] at hsome
      cases hsome

end

/-- The node table is a tree throughout a run exactly when every entry that is added lies in a
directory. -/
theorem tree_always_iff (s : State) (hw : Written s) (ht : IsTree s) (ops : List Op) :
    Always step IsTree s ops ↔ Throughout step MadeInDirectory s ops := by
  have hkeeps : ∀ s op, Written s → Written (step s op) := fun _ op h => written_step h op
  have hexact : ∀ s op, Written s → IsTree s → (IsTree (step s op) ↔ MadeInDirectory s op) :=
    fun _ op hs hp => isTree_step_iff hs hp op
  exact always_iff_throughout hkeeps hexact hw ht ops

theorem tree_bare (h : tree bare i = some (path, d)) :
    i = ⟨0, by decide⟩ ∧ path = [slash] ∧ d = true := by
  by_cases hi : i = ⟨0, by decide⟩
  · subst hi
    obtain ⟨rfl, rfl⟩ := Prod.mk.inj (Option.some.inj h)
    exact ⟨rfl, rfl, rfl⟩
  · have hnone : tree bare i = none := by simp [tree, bare, Node.entry, Node.empty, hi]
    rw [hnone] at h
    cases h

theorem isTree_bare : IsTree bare where
  distinct _ _ _ _ _ hi hj := (tree_bare hi).1.trans (tree_bare hj).1.symm
  parent _ _ _ hi hroot := absurd (tree_bare hi).2.1 hroot

theorem written_bare : Written bare where
  cwd := ⟨rfl, by decide⟩
  normal _ path _ hi := by
    rw [(tree_bare hi).2.1]
    exact ⟨by decide, [], by simp, rfl⟩

/-- A directory made in the root of the empty file system. -/
theorem tree_always_mkdir : Written bare ∧ IsTree bare ∧
    Always step IsTree bare [.mkdir [slash, 97]] := by
  have hentries : ∀ i, tree (step bare (.mkdir [slash, 97])) i ∈
      [none, some ([slash], true), some ([slash, 97], true)] := by
    decide +kernel
  have hroot : tree bare ⟨0, by decide⟩ = some ([slash], true) := rfl
  refine ⟨written_bare, isTree_bare, (tree_always_iff bare written_bare isTree_bare _).mpr
    (throughout_cons.mpr ⟨fun i path d _ hadded => ⟨_, hroot.trans ?_⟩, throughout_nil⟩)⟩
  have hi := hentries i
  rw [hadded] at hi
  simp only [mem_cons, reduceCtorEq, Option.some.injEq, Prod.mk.injEq, false_or, not_mem_nil,
    or_false] at hi
  obtain ⟨rfl, -⟩ | ⟨rfl, -⟩ := hi
  · rfl
  · rfl

/-- `touch /a` and then `touch /a/b` makes an entry below a regular file. -/
theorem touch_below_file :
    ¬ IsTree (after step bare [.touch [slash, 97], .touch [slash, 97, slash, 98]]) := by
  intro h
  have hfile : tree (after step bare [.touch [slash, 97], .touch [slash, 97, slash, 98]])
      ⟨1, by decide⟩ = some ([slash, 97], false) := by decide +kernel
  have hchild : tree (after step bare [.touch [slash, 97], .touch [slash, 97, slash, 98]])
      ⟨2, by decide⟩ = some ([slash, 97, slash, 98], false) := by decide +kernel
  obtain ⟨j, hj⟩ := h.parent _ _ _ hchild (by decide)
  have hj' : tree (after step bare [.touch [slash, 97], .touch [slash, 97, slash, 98]]) j =
      some ([slash, 97], true) := hj
  obtain rfl := h.distinct _ _ _ _ _ hfile hj'
  rw [hfile] at hj'
  cases hj'

end Vnu.Vfs
