import Vnu.Fat16.Edits
import Vnu.Lib.Ownership
import Vnu.Lib.Overlay

/-!
What is on a volume, apart from where the bytes stand. `Holds` says that a disk stores a layout: no
region holds two things, and every entry leads to its subdirectory or to the chain of its file.
-/
namespace Vnu.Fat16

open Lib Lib.Ownership List

/-- What a region can belong to: a directory, or a file by its directory and place there. -/
inductive Obj where
  | dir (q : ℕ)
  | file (q pos : ℕ)
deriving DecidableEq

def Obj.home : Obj → ℕ
  | .dir q => q
  | .file q _ => q

structure Layout where
  dirs : Set ℕ
  /-- Directory and place of the entry a directory was made with. -/
  parent : ℕ → ℕ × ℕ
  items : ℕ → List Item
  regions : Obj → List ℕ
  data : Obj → List UInt8
  /-- Clusters that are not free and belong to nothing. -/
  lost : Set ℕ

def dotEntry (rest : List UInt8) (cluster : ℕ) : Group :=
  Group.bare (shortSlot ((0x2E :: rest).rightpad 11 0x20) attrDir 0 cluster 0)
    (show (0x2E : UInt8) ≠ 0 ∧ (0x2E : UInt8) ≠ 0xE5 by decide)
    (show attrDir &&& 0x3F ≠ 0x0F by decide)

def dotGroup (cluster : ℕ) : Group := dotEntry [] cluster

def dotdotGroup (cluster : ℕ) : Group := dotEntry [0x2E] cluster

/-- The entry is no label and not one of the two at the head of a subdirectory. -/
def isKid (q : ℕ) (ev : Entry) : Bool := !ev.isVolume && (q == 0 || decide (64 ≤ ev.pos))

namespace Layout

def entries (L : Layout) (q : ℕ) : List Entry := entriesAt 0 (L.items q)

def kids (L : Layout) (q : ℕ) : List Entry := (L.entries q).filter (isKid q)

def Has (L : Layout) : Obj → Prop
  | .dir q => q ∈ L.dirs
  | .file q pos => q ∈ L.dirs ∧ ∃ ev ∈ L.kids q, ev.isDir = false ∧ ev.pos = pos

theorem mem_kids {L : Layout} {q : ℕ} {ev : Entry} :
    ev ∈ L.kids q ↔ ev ∈ L.entries q ∧ isKid q ev = true := mem_filter

theorem kids_congr {L L' : Layout} {q : ℕ} (h : L'.items q = L.items q) : L'.kids q = L.kids q := by
  simp only [kids, entries, h]

theorem kids_pos_inj {L : Layout} {q : ℕ} {ev ev' : Entry} (h : ev ∈ L.kids q)
    (h' : ev' ∈ L.kids q) (heq : ev.pos = ev'.pos) : ev = ev' :=
  entriesAt_pos_inj (mem_kids.mp h).1 (mem_kids.mp h').1 heq

theorem Has.mono {L L' : Layout} {o : Obj} (h : L.Has o) (hdirs : ∀ q ∈ L.dirs, q ∈ L'.dirs)
    (hkids : ∀ q ∈ L.dirs, ∀ ev ∈ L.kids q, ev ∈ L'.kids q) : L'.Has o := by
  cases o with
  | dir q => exact hdirs q h
  | file q pos =>
    obtain ⟨hq, ev, hev, hfile, hpos⟩ := h
    exact ⟨hdirs q hq, ev, hkids q hq ev hev, hfile, hpos⟩

end Layout

structure DirOk (fs : Fs) (v : View) (L : Layout) (q : ℕ) : Prop where
  area : Area fs v.fat q (L.regions (.dir q))
  slots : ∃ tail, v.slots fs q (L.regions (.dir q)) = itemSlots (L.items q) ++ tail ∧ Ended tail
  dots : q ≠ 0 → ∃ rest,
    L.items q = .live (dotGroup q) :: .live (dotdotGroup (L.parent q).1) :: rest
  sub : ∀ ev ∈ L.kids q, ev.isDir = true → ev.cluster ∈ L.dirs ∧
    ev.cluster ≠ 0 ∧ ev.cluster ≠ q ∧ L.parent ev.cluster = (q, ev.pos)
  file : ∀ ev ∈ L.kids q, ev.isDir = false → Chain fs v.fat ev.cluster (L.regions (.file q ev.pos))

structure Holds (fs : Fs) (v : View) (L : Layout) : Prop where
  reserved : v.fat 0 = 0xFFF8
  root : 0 ∈ L.dirs
  dir : ∀ q ∈ L.dirs, DirOk fs v L q
  data : ∀ q pos, v.bytes fs (L.regions (.file q pos))
    ((L.regions (.file q pos)).length * fs.cb) = L.data (.file q pos)
  live : ∀ o, L.regions o ≠ [] → L.Has o
  owns : Owns fs.InRange (fun x => v.fat x ≠ 0) L.regions L.lost

def Keeps (v v' : View) (l : List ℕ) : Prop := ∀ x ∈ l, v'.fat x = v.fat x ∧ v'.dat x = v.dat x

section

variable {fs : Fs} {v v' : View} {L L' : Layout} {q : ℕ}

theorem view_bytes_congr {l : List ℕ} (h : ∀ x ∈ l, v'.dat x = v.dat x) {n : ℕ}
    (hn : n ≤ l.length * fs.cb) : v'.bytes fs l n = v.bytes fs l n := by
  apply map_congr_left
  intro i hi
  rw [mem_range] at hi
  exact Blocks.flat_congr h (by omega)

theorem DirOk.frame (h : DirOk fs v L q) (hitems : L'.items q = L.items q)
    (hregions : L'.regions (.dir q) = L.regions (.dir q)) (hparent : L'.parent q = L.parent q)
    (hkeep : Keeps v v' (L.regions (.dir q))) (hsub : ∀ ev ∈ L.kids q, ev.isDir = true →
      ev.cluster ∈ L'.dirs ∧ L'.parent ev.cluster = L.parent ev.cluster)
    (hfile : ∀ ev ∈ L.kids q, ev.isDir = false →
      Chain fs v'.fat ev.cluster (L'.regions (.file q ev.pos))) :
    DirOk fs v' L' q := by
  have hkids : L'.kids q = L.kids q := Layout.kids_congr hitems
  refine ⟨?_, ?_, ?_, ?_, ?_⟩
  · rw [hregions]
    exact h.area.congr fun x hx => (hkeep x hx).1
  · rw [hregions, hitems, slots_congr fun x hx => (hkeep x hx).2]
    exact h.slots
  · rw [hitems, hparent]
    exact h.dots
  · rw [hkids]
    intro ev hev hdir
    obtain ⟨hmem, hpar⟩ := hsub ev hev hdir
    rw [hpar]
    exact ⟨hmem, (h.sub ev hev hdir).2⟩
  · rw [hkids]
    exact hfile

namespace Holds

theorem region (h : Holds fs v L) {o : Obj} {x : ℕ} (hx : x ∈ L.regions o) :
    (o = .dir 0 ∧ x = 0) ∨ fs.InRange x := by
  have hhas := h.live o (ne_nil_of_mem hx)
  cases o with
  | dir q =>
    obtain ⟨rfl, hbl⟩ | ⟨-, hc⟩ := (h.dir q hhas).area
    · rw [hbl, mem_singleton] at hx
      exact Or.inl ⟨rfl, hx⟩
    · exact Or.inr (hc.range x hx)
  | file q pos =>
    obtain ⟨hq, ev, hev, hfile, rfl⟩ := hhas
    exact Or.inr (((h.dir q hq).file ev hev hfile).range x hx)

theorem root_region (h : Holds fs v L) : L.regions (.dir 0) = [0] := by
  obtain ⟨-, hbl⟩ | ⟨h0, -⟩ := (h.dir 0 h.root).area
  · exact hbl
  · exact absurd rfl h0

theorem taken (h : Holds fs v L) {o : Obj} {x : ℕ} (hx : x ∈ L.regions o) : v.fat x ≠ 0 := by
  obtain ⟨-, rfl⟩ | hr := h.region hx
  · rw [h.reserved]
    decide
  · exact (h.owns.used x hr).mpr (Or.inr ⟨o, hx⟩)

theorem reserved_of_keep (h : Holds fs v L) (hk : Keeps v v' (L.regions (.dir 0))) :
    v'.fat 0 = 0xFFF8 := by
  rw [h.root_region] at hk
  rw [(hk 0 (mem_singleton_self 0)).1, h.reserved]

theorem frame (h : Holds fs v L) {lost' : Set ℕ} (hkeep : ∀ o, Keeps v v' (L.regions o))
    (hlost : ∀ x ∈ lost', fs.InRange x ∧ ∀ o, x ∉ L.regions o)
    (hused : ∀ x, fs.InRange x → (∀ o, x ∉ L.regions o) → (v'.fat x ≠ 0 ↔ x ∈ lost')) :
    Holds fs v' { L with lost := lost' } where
  reserved := h.reserved_of_keep (hkeep _)
  root := h.root
  dir q hq := (h.dir q hq).frame rfl rfl rfl (hkeep _)
    (fun ev hev hdir => ⟨((h.dir q hq).sub ev hev hdir).1, rfl⟩)
    fun ev hev hfile => ((h.dir q hq).file ev hev hfile).congr fun x hx => (hkeep _ x hx).1
  data q pos := by
    rw [← h.data q pos]
    exact view_bytes_congr (fun x hx => (hkeep _ x hx).2) le_rfl
  live := h.live
  owns := h.owns.relabel hlost hused fun o x hx _ => by
    rw [(hkeep o x hx).1]
    exact h.taken hx

end Holds

end

end Vnu.Fat16
