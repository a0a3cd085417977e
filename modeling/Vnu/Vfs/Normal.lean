import Mathlib.Algebra.Order.BigOperators.Group.List
import Mathlib.Algebra.Order.Group.Nat
import Mathlib.Tactic.NormNum
import Vnu.Lib.Walk
import Vnu.Vfs.Nodes

/-!
What `normalize` makes of a path: a walk from the root, with room for sixteen components, along the
63 bytes that fit in its buffer. The lexical normalization is the walk without that limit along the
whole path. As long as the buffer loses no component, the two agree exactly for the paths that come
back to the root after every place that is too deep.
-/
namespace Vnu.Vfs

open Lib List Nat

variable {s c cwd : Str} {cs : List Str} {n : ℕ}

def components (s : Str) : List Str := (s.splitOn slash).filter (· ≠ [])

def segmentMove (seg : Str) : Move Str :=
  if seg = [dot] then .stay else if seg = [dot, dot] then .up else .down seg

def moves (s : Str) : List (Move Str) := (components s).map segmentMove

def joined (cwd path : Str) : Str :=
  if path = [] then cwd
  else if path.head? = some slash then path
  else (if cwd.getLast? = some slash then cwd else cwd ++ [slash]) ++ path

def lexical (cwd path : Str) : Str := render (walk (moves (joined cwd path)))

theorem components_slash (s : Str) : components (slash :: s) = components s := by
  unfold components splitOn
  rw [splitOnP_cons_eq_if_modifyHead]
  simp

theorem mem_takeWhile_ne {c : UInt8} (hc : c ∈ s.takeWhile (· != slash)) :
    (c == slash) = false := by
  have := mem_takeWhile_imp hc
  simpa using this

theorem components_segment (hs : s ≠ []) (hhead : s.head? ≠ some slash) :
    components s = s.takeWhile (· != slash) :: components (s.dropWhile (· != slash)) := by
  have hfirst : s.takeWhile (· != slash) ≠ [] := by
    cases s with
    | nil => exact absurd rfl hs
    | cons c s =>
      have hc : c ≠ slash := by simpa using hhead
      simp [hc]
  have hfree : ∀ c ∈ s.takeWhile (· != slash), (c == slash) = false :=
    fun c hc => mem_takeWhile_ne hc
  cases hrest : s.dropWhile (· != slash) with
  | nil =>
    have hall : s = s.takeWhile (· != slash) := by
      conv_lhs => rw [← takeWhile_append_dropWhile (p := (· != slash)) (l := s), hrest]
      simp
    have hsplit : s.splitOn slash = [s] := by
      rw [hall]
      exact splitOnP_eq_singleton hfree
    rw [components, hsplit, ← hall]
    simp [hs, components]
  | cons d rest =>
    have hd : d = slash := by
      have := head_dropWhile_not (· != slash) (l := s) (by rw [hrest]; simp)
      simpa [hrest] using this
    subst hd
    have hs' : s = s.takeWhile (· != slash) ++ slash :: rest := by
      conv_lhs => rw [← takeWhile_append_dropWhile (p := (· != slash)) (l := s), hrest]
    have hsplit : s.splitOn slash = s.takeWhile (· != slash) :: rest.splitOn slash := by
      conv_lhs => rw [hs']
      exact splitOnP_append_cons_of_forall_mem hfree slash (by simp) rest
    rw [components, hsplit, components_slash]
    simp [hfirst, components]

theorem components_dropWhile (s : Str) : components (s.dropWhile (· == slash)) = components s := by
  induction s with
  | nil => rfl
  | cons c s ih =>
    by_cases hc : c = slash
    · subst hc
      rw [dropWhile_cons_of_pos (by simp), components_slash, ih]
    · rw [dropWhile_cons_of_neg (by simpa using hc)]

def IsComponent (c : Str) : Prop := c ≠ [] ∧ slash ∉ c

/-- Induction along the components of a path. -/
theorem components_rec {P : Str → List Str → Prop}
    (done : ∀ s, s.dropWhile (· == slash) = [] → P s [])
    (seg : ∀ s r, s.dropWhile (· == slash) = r → r ≠ [] → IsComponent (r.takeWhile (· != slash)) →
      (r.dropWhile (· != slash)).length < s.length →
      P (r.dropWhile (· != slash)) (components (r.dropWhile (· != slash))) →
      P s (r.takeWhile (· != slash) :: components (r.dropWhile (· != slash)))) (s : Str) :
    P s (components s) := by
  induction hn : s.length using Nat.strong_induction_on generalizing s with
  | _ n ih =>
    subst hn
    generalize hr : s.dropWhile (· == slash) = r
    rw [← components_dropWhile, hr]
    by_cases hnil : r = []
    · subst hnil
      exact done s hr
    have hhead : r.head? ≠ some slash := by
      intro h
      have := head_dropWhile_not (· == slash) (l := s) (by rw [hr]; exact hnil)
      simp only [hr] at this
      rw [head?_eq_some_head hnil] at h
      simp [Option.some.inj h] at this
    rw [components_segment hnil hhead]
    have hfirst : r.takeWhile (· != slash) ≠ [] := by
      cases r with
      | nil => exact absurd rfl hnil
      | cons c r =>
        have hc : c ≠ slash := by simpa using hhead
        simp [hc]
    have hlt : (r.dropWhile (· != slash)).length < s.length := by
      have hsum := congrArg length
        (takeWhile_append_dropWhile (p := (· != slash)) (l := r))
      have hle : r.length ≤ s.length := by
        rw [← hr]
        exact (dropWhile_sublist _).length_le
      have hpos := length_pos_iff.mpr hfirst
      rw [length_append] at hsum
      omega
    refine seg s r hr hnil ⟨hfirst, ?_⟩ hlt (ih _ hlt _ rfl)
    intro hmem
    have := mem_takeWhile_ne hmem
    simp at this

theorem isComponent_of_mem : ∀ c ∈ components s, IsComponent c := by
  refine components_rec (P := fun _ cs => ∀ c ∈ cs, IsComponent c) ?_ ?_ s
  · intro _ _ c hc
    cases hc
  · intro s r _ _ hseg _ ih c hc
    rcases mem_cons.mp hc with rfl | hc
    · exact hseg
    · exact ih c hc

/-- Every component but possibly the first has a slash of its own before it. -/
theorem length_components_le (s : Str) :
    ((components s).map fun c => c.length + 1).sum ≤
      if s.head? = some slash then s.length else s.length + 1 := by
  refine components_rec
    (P := fun s cs => (cs.map fun c => c.length + 1).sum ≤
      if s.head? = some slash then s.length else s.length + 1) ?_ ?_ s
  · intro s _
    simp
  intro s r hr hnil _ _ ih
  rw [map_cons, sum_cons]
  have hsum := congrArg length (takeWhile_append_dropWhile (p := (· != slash)) (l := r))
  have hskip := congrArg length
    (takeWhile_append_dropWhile (p := (· == slash)) (l := s))
  rw [length_append] at hsum hskip
  rw [hr] at hskip
  -- what is left starts with a slash, or there is nothing left
  have hrest : ((components (r.dropWhile (· != slash))).map fun c => c.length + 1).sum ≤
      (r.dropWhile (· != slash)).length := by
    cases hd : r.dropWhile (· != slash) with
    | nil => exact le_refl 0
    | cons d rest =>
      have := head_dropWhile_not (· != slash) (l := r) (by rw [hd]; simp)
      have hslash : d = slash := by simpa [hd] using this
      rw [hd] at ih
      simpa [hslash] using ih
  split_ifs with hhead
  · have hpos : 0 < (s.takeWhile (· == slash)).length := by
      cases s with
      | nil => cases hhead
      | cons c s =>
        have hc : c = slash := by simpa using hhead
        simp [hc]
    omega
  · omega

theorem components_render (h : ∀ c ∈ cs, IsComponent c) : components (render cs) = cs := by
  rw [render, components_slash]
  cases cs with
  | nil => rfl
  | cons c cs =>
    have hsplit := splitOn_intercalate slash (fun l hl => (h l hl).2) (cons_ne_nil c cs)
    rw [components, hsplit, filter_eq_self]
    intro d hd
    simpa using (h d hd).1

theorem render_inj {ds : List Str} (hc : ∀ c ∈ cs, IsComponent c) (hd : ∀ c ∈ ds, IsComponent c)
    (h : render cs = render ds) : cs = ds := by
  rw [← components_render hc, h, components_render hd]

theorem length_intercalate_slash (c : Str) (cs : List Str) :
    (intercalate [slash] (c :: cs)).length = c.length + (cs.map fun d => d.length + 1).sum := by
  induction cs generalizing c with
  | nil => simp
  | cons d cs ih =>
    have hstep : intercalate [slash] (c :: d :: cs) =
        c ++ slash :: intercalate [slash] (d :: cs) := by
      simp
    rw [hstep, length_append, length_cons, ih, map_cons, sum_cons]
    omega

theorem length_render_le (hpos : 0 < n)
    (h : (cs.map fun d => d.length + 1).sum ≤ n) : (render cs).length ≤ n := by
  cases cs with
  | nil => exact hpos
  | cons c cs =>
    rw [render, length_cons, length_intercalate_slash]
    rw [map_cons, sum_cons] at h
    omega

theorem pushSegment_eq (segs : List Str) (seg : Str) :
    pushSegment segs seg = (segmentMove seg).goWithin maxDepth segs := by
  unfold pushSegment segmentMove
  by_cases hdot : seg = [dot]
  · rw [if_pos hdot, if_pos hdot]
    rfl
  rw [if_neg hdot, if_neg hdot]
  by_cases hup : seg = [dot, dot]
  · rw [if_pos hup, if_pos hup]
    rfl
  · rw [if_neg hup, if_neg hup]
    rfl

theorem segmentLoop_eq (s : Str) : ∀ fuel segs, s.length < fuel →
    segmentLoop fuel s segs = (components s).foldl pushSegment segs := by
  refine components_rec (P := fun s cs => ∀ fuel segs, s.length < fuel →
    segmentLoop fuel s segs = cs.foldl pushSegment segs) ?_ ?_ s
  · intro s hs fuel segs hfuel
    cases fuel with
    | zero => rfl
    | succ fuel => simp [segmentLoop, hs]
  · intro s r hr hnil _ hlt ih fuel segs hfuel
    cases fuel with
    | zero => exact absurd hfuel (Nat.not_lt_zero _)
    | succ fuel =>
      simp only [segmentLoop, hr, hnil]
      exact ih fuel _ (by omega)

theorem segments_eq (raw : Str) :
    segmentLoop (raw.length + 1) raw [] = walkWithin maxDepth (moves raw) := by
  rw [segmentLoop_eq raw _ _ (lt_succ_self _), walkWithin, moves, foldl_map]
  congr 1
  funext segs seg
  exact pushSegment_eq segs seg

theorem names_sublist (s : Str) : ((moves s).filterMap Move.name).Sublist (components s) := by
  unfold moves
  induction components s with
  | nil => exact Sublist.refl _
  | cons c cs ih =>
    rw [map_cons]
    unfold segmentMove
    split_ifs
    · exact ih.cons c
    · exact ih.cons c
    · exact ih.cons_cons c

theorem isComponent_of_mem_walk (h : c ∈ walk (moves s)) : IsComponent c :=
  isComponent_of_mem c (((walk_sublist _).trans (names_sublist s)).mem h)

theorem isComponent_of_mem_walkWithin (h : c ∈ walkWithin n (moves s)) : IsComponent c :=
  isComponent_of_mem c (((walkWithin_sublist n _).trans (names_sublist s)).mem h)

theorem length_render_walkWithin (n : ℕ) (h : s.head? = some slash) :
    (render (walkWithin n (moves s))).length ≤ s.length := by
  have hpos : 0 < s.length := by
    cases s with
    | nil => cases h
    | cons c s => exact Nat.succ_pos _
  apply length_render_le hpos
  have hsub := ((walkWithin_sublist n (moves s)).trans (names_sublist s)).map
    fun c : Str => c.length + 1
  have hle := length_components_le s
  rw [if_pos h] at hle
  exact (hsub.sum_le_sum (by simp)).trans hle

structure IsCwd (cwd : Str) : Prop where
  head : cwd.head? = some slash
  fits : cwd.length < pathCap

theorem IsCwd.ne_nil (h : IsCwd cwd) : cwd ≠ [] := by
  rintro rfl
  cases h.head

theorem head_take (h : s.head? = some slash) (hn : n ≠ 0) : (s.take n).head? = some slash := by
  rw [head?_take, if_neg hn, h]

theorem rawBase_head (hcwd : IsCwd cwd) (tail : Str) :
    (rawBase cwd ++ tail).head? = some slash := by
  have hbase := head_take (n := pathCap - 2) hcwd.head (by decide)
  have happend : ∀ tail, (cwd.take (pathCap - 2) ++ tail).head? = some slash := by
    intro tail
    rw [head?_append, hbase]
    rfl
  unfold rawBase
  simp only
  split_ifs
  · rw [append_assoc]
    exact happend _
  · exact happend _

theorem rawBase_length (cwd : Str) : (rawBase cwd).length < pathCap := by
  have hbase : (cwd.take (pathCap - 2)).length ≤ pathCap - 2 := length_take_le _ _
  have hcap : pathCap - 2 + 1 < pathCap := by decide
  unfold rawBase
  simp only
  split_ifs
  · rw [length_append, length_singleton]
    omega
  · omega

theorem rawPath_head (hcwd : IsCwd cwd) (path : Str) : (rawPath cwd path).head? = some slash := by
  unfold rawPath copy
  split_ifs with hnil habs
  · exact head_take hcwd.head (by decide)
  · exact head_take habs (by decide)
  · exact rawBase_head hcwd _

theorem rawPath_length (cwd path : Str) : (rawPath cwd path).length < pathCap := by
  have hcopy : ∀ s : Str, (copy s pathCap).length < pathCap := by
    intro s
    simp [copy, pathCap]
  unfold rawPath
  split_ifs
  · exact hcopy cwd
  · exact hcopy path
  · have hbase := rawBase_length cwd
    rw [length_append, length_take]
    omega

theorem normalize_eq (hcwd : IsCwd cwd) (path : Str) :
    normalize cwd path = render (walkWithin maxDepth (moves (rawPath cwd path))) := by
  unfold normalize copy
  simp only
  rw [segments_eq]
  apply take_of_length_le
  have hle := length_render_walkWithin maxDepth (rawPath_head hcwd path)
  have hlt := rawPath_length cwd path
  omega

/-- The path `chdir` stores is again a working directory. -/
theorem isCwd_normalize (hcwd : IsCwd cwd) (path : Str) : IsCwd (normalize cwd path) := by
  rw [normalize_eq hcwd]
  refine ⟨rfl, ?_⟩
  have hle := length_render_walkWithin maxDepth (rawPath_head hcwd path)
  have hlt := rawPath_length cwd path
  omega

/-- The buffer holds the first 63 bytes of the joined path, unless a working directory of 63 bytes
had to be cut to make room for its slash. -/
theorem rawPath_eq_take {path : Str} (hcwd : IsCwd cwd)
    (h : path = [] ∨ path.head? = some slash ∨ cwd.length + 1 < pathCap) :
    rawPath cwd path = (joined cwd path).take (pathCap - 1) := by
  unfold rawPath joined copy
  by_cases hnil : path = []
  · simp only [hnil, if_true]
  simp only [hnil, if_false]
  by_cases habs : path.head? = some slash
  · simp only [habs, if_true]
  simp only [habs, if_false]
  have hshort := (h.resolve_left hnil).resolve_left habs
  have hcut : cwd.take (pathCap - 2) = cwd := take_of_length_le (by omega)
  -- a working directory of one byte is the root, and ends in a slash
  have hbase : rawBase cwd = if cwd.getLast? = some slash then cwd else cwd ++ [slash] := by
    unfold rawBase
    simp only [hcut]
    by_cases hlast : cwd.getLast? = some slash
    · simp [hlast]
    have hlong : 1 < cwd.length := by
      by_contra hone
      have hone : cwd.length = 1 := by
        have := length_pos_iff.mpr hcwd.ne_nil
        omega
      obtain ⟨c, rfl⟩ := length_eq_one_iff.mp hone
      exact hlast hcwd.head
    simp [hlong]
  have hlen := rawBase_length cwd
  have hwhole : (rawBase cwd).take (pathCap - 1) = rawBase cwd := take_of_length_le (by omega)
  rw [← hbase, take_append, hwhole]

theorem segmentMove_of_mem_names (h : c ∈ (moves s).filterMap Move.name) :
    segmentMove c = .down c := by
  obtain ⟨m, hm, hname⟩ := mem_filterMap.mp h
  obtain ⟨d, -, rfl⟩ := mem_map.mp hm
  unfold segmentMove at hname ⊢
  split_ifs at hname with hdot hup
  · cases hname
  · cases hname
  · have hcd : d = c := Option.some.inj hname
    rw [← hcd, if_neg hdot, if_neg hup]

theorem moves_render_walkWithin (n : ℕ) (s : Str) :
    moves (render (walkWithin n (moves s))) = (walkWithin n (moves s)).map Move.down := by
  rw [moves, components_render fun c hc => isComponent_of_mem_walkWithin hc]
  apply map_congr_left
  intro c hc
  exact segmentMove_of_mem_names ((walkWithin_sublist n _).mem hc)

theorem normalize_normalize (hcwd : IsCwd cwd) (path : Str) :
    normalize cwd (normalize cwd path) = normalize cwd path := by
  have hnormal := isCwd_normalize hcwd path
  have hraw : rawPath cwd (normalize cwd path) = normalize cwd path := by
    have := hnormal.fits
    exact take_of_length_le (by omega)
  rw [normalize_eq hcwd (normalize cwd path), hraw, normalize_eq hcwd path,
    moves_render_walkWithin, walkWithin_down (length_walkWithin_le _ _)]

theorem components_append (s t : Str) :
    components (s ++ slash :: t) = components s ++ components t := by
  unfold components splitOn
  rw [splitOnP_append_cons s t (by simp), filter_append]

/-- Of the joined path the buffer loses slashes and `.` at most. -/
def Kept (cwd path : Str) : Prop :=
  (joined cwd path).length < pathCap ∨
    (path.head? = some slash ∨ cwd.length + 1 < pathCap) ∧
      ∃ rest, (joined cwd path).drop (pathCap - 1) = slash :: rest ∧
        ∀ c ∈ components rest, c = [dot]

theorem joined_short {path : Str} (h : (joined cwd path).length < pathCap) :
    path = [] ∨ path.head? = some slash ∨ cwd.length + 1 < pathCap := by
  by_contra hno
  rw [not_or, not_or] at hno
  obtain ⟨hnil, habs, hlong⟩ := hno
  have hpath : 0 < path.length := length_pos_iff.mpr hnil
  simp only [joined, hnil, habs, if_false, length_append] at h
  split_ifs at h
  · omega
  · rw [length_append] at h
    omega

theorem Kept.walkWithin {path : Str} (hcwd : IsCwd cwd) (h : Kept cwd path) :
    walkWithin maxDepth (moves (rawPath cwd path)) =
      walkWithin maxDepth (moves (joined cwd path)) := by
  rcases h with hshort | ⟨hfits, rest, hrest, hdots⟩
  · rw [rawPath_eq_take hcwd (joined_short hshort), take_of_length_le (by omega)]
  · have hmoves : moves (joined cwd path) = moves (rawPath cwd path) ++
        replicate (components rest).length .stay := by
      rw [rawPath_eq_take hcwd (.inr hfits)]
      conv_lhs => rw [← take_append_drop (pathCap - 1) (joined cwd path), hrest]
      rw [moves, components_append, map_append, ← moves]
      congr 1
      rw [map_congr_left fun c hc => congrArg segmentMove (hdots c hc)]
      exact map_const' ..
    rw [hmoves, walkWithin_append_stay]

/-- As long as no component is lost in the buffer of 64 bytes, `normalize` is the lexical
normalization exactly if the path comes back to the root after every place deeper than sixteen
components. -/
theorem normalize_lexical_iff (cwd path : Str) (hcwd : IsCwd cwd) (hkept : Kept cwd path) :
    normalize cwd path = lexical cwd path ↔ ComesBack maxDepth (moves (joined cwd path)) := by
  rw [normalize_eq hcwd, lexical, hkept.walkWithin hcwd, ← walkWithin_eq_iff]
  constructor
  · exact render_inj (fun c hc => isComponent_of_mem_walkWithin hc)
      (fun c hc => isComponent_of_mem_walk hc)
  · intro h
    rw [h]

/-- A path of 72 bytes, of which the buffer loses slashes. -/
theorem normalize_lexical_slashes : let path := [slash, 97] ++ replicate 70 slash
    pathCap ≤ path.length ∧ normalize [slash] path = lexical [slash] path := by
  refine ⟨by decide, (normalize_lexical_iff _ _ ⟨rfl, by decide⟩ ?_).mpr ?_⟩
  · exact .inr ⟨.inl rfl, replicate 8 slash, by decide, by decide⟩
  · exact comesBack_of_length_le (by decide)

/-- Of seventeen components `a` the last one is dropped. -/
theorem normalize_drops_component : let path := (replicate 17 [slash, 97]).flatten
    (lexical [slash] path).length < pathCap ∧ lexical [slash] path = path ∧
      normalize [slash] path = (replicate 16 [slash, 97]).flatten ∧
      normalize [slash] path ≠ lexical [slash] path := by
  decide +kernel

end Vnu.Vfs
