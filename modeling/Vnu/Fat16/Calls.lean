import Vnu.Fat16.Truncation

/-!
What one call can do to the layout of a volume. Every later invariant is a case analysis on
`Change`.
-/
namespace Vnu.Fat16

open Lib Lib.Overlay List

inductive Op where
  | create (name : List UInt8)
  | write (name : List UInt8) (off : ℕ) (buf : List UInt8)
  | truncate (name : List UInt8) (size : ℕ)
  | unlink (name : List UInt8)
  | mkdir (name : List UInt8)
  | rmdir (name : List UInt8)

namespace Op

def run (fs : Fs) (q : ℕ) : Op → Act Disk Unit
  | create name => Fat16.create fs q name
  | write name off buf => do
    let _ ← Fat16.write fs q name off buf
    pure ()
  | truncate name size => Fat16.truncate fs q name size
  | unlink name => Fat16.unlink fs q name
  | mkdir name => Fat16.mkdir fs q name
  | rmdir name => Fat16.rmdir fs q name

def name : Op → List UInt8
  | create name => name
  | write name _ _ => name
  | truncate name _ => name
  | unlink name => name
  | mkdir name => name
  | rmdir name => name

def Fits : Op → Prop
  | write _ off buf => off < 2 ^ 32 ∧ buf.length < 2 ^ 32
  | truncate _ size => size < 2 ^ 32
  | _ => True

def need (fs : Fs) : Op → ℕ
  | write _ off buf => fs.clustersFor (off + buf.length)
  | truncate _ size => fs.clustersFor size
  | _ => 0

/-- Outside the root, `rmdir` is not called on the entries `.` and `..`. -/
def Proper (q : ℕ) : Op → Prop
  | rmdir name => q = 0 ∨ isDots name = false
  | _ => True

end Op

inductive Change (fs : Fs) (d : Disk) (L : Layout) (q : ℕ) : Op → Layout → Prop
  | extend (op : Op) (ext : List ℕ) : Change fs d L q op (L.append q [] ext)
  | create {name : List UInt8} {g : Group} (ext : List ℕ)
      (hfind : findEntry fs q name d = none)
      (hslots : buildEntries fs q name attrArch 0 0 d = some g.slots)
      (hentry : ∀ pos, g.entry pos = newEntry fs q name 0 0 d attrArch g.slots.length pos) :
      Change fs d L q (.create name) (L.append q [.live g] ext)
  | mkdir {name : List UInt8} {c : ℕ} {g : Group} (ext : List ℕ)
      (hfind : findEntry fs q name d = none) (hc : fs.InRange c) (hfree : (view fs d).fat c = 0)
      (hslots : buildEntries fs q name attrDir c 0 d = some g.slots)
      (hentry : ∀ pos, g.entry pos = newEntry fs q name c 0 d attrDir g.slots.length pos) :
      Change fs d L q (.mkdir name) ((L.addDir c q
        (g.entry (32 * (itemSlots (L.items q)).length)).pos).append q [.live g] ext)
  | unlink {name : List UInt8} {ev : Entry} {front back : List Item} {g : Group}
      (hfind : findEntry fs q name d = some ev) (hev : ev ∈ L.kids q) (hfile : ev.isDir = false)
      (hitems : L.items q = front ++ .live g :: back)
      (hentry : ev = g.entry (32 * (itemSlots front).length)) :
      Change fs d L q (.unlink name) (L.edit q (front ++ (g.erased ++ back)) ev.pos [] [])
  | rmdir {name : List UInt8} {ev : Entry} {front back : List Item} {g : Group}
      (hfind : findEntry fs q name d = some ev) (hev : ev ∈ L.kids q) (hdir : ev.isDir = true)
      (hitems : L.items q = front ++ .live g :: back)
      (hentry : ev = g.entry (32 * (itemSlots front).length))
      (hempty : ∀ e ∈ L.entries ev.cluster, isDots e.name = true) :
      Change fs d L q (.rmdir name) (L.unlinkDir q (front ++ (g.erased ++ back)) ev.pos ev.cluster)
  | write {name : List UInt8} {off : ℕ} {buf : List UInt8} {ev : Entry} {L' : Layout}
      (hfind : findEntry fs q name d = some ev) (hev : ev ∈ L.kids q) (hfile : ev.isDir = false)
      (hbuf : buf ≠ []) (hend : off + buf.length + fs.cb ≤ 2 ^ 32)
      (hw : L.Written fs L' q ev off buf) : Change fs d L q (.write name off buf) L'
  | truncate {name : List UInt8} {size : ℕ} {ev : Entry} {L' : Layout}
      (hfind : findEntry fs q name d = some ev) (hev : ev ∈ L.kids q) (hfile : ev.isDir = false)
      (ht : L.Truncated fs L' q ev size) : Change fs d L q (.truncate name size) L'
  /-- The rounded size of the write wrapped. -/
  | overrun {name : List UInt8} {off : ℕ} {buf : List UInt8} {ev : Entry} {bs : List UInt8}
      (hev : ev ∈ L.kids q) (hfile : ev.isDir = false)
      (hend : 2 ^ 32 < off + buf.length + fs.cb) (hlt : off + buf.length < 2 ^ 32)
      (hlen : bs.length = (L.data (.file q ev.pos)).length) :
      Change fs d L q (.write name off buf)
        (L.setFile q ev.pos (L.regions (.file q ev.pos)) bs)
  /-- The volume ran full while the chain of a file was extended. -/
  | starve {op : Op} {ev : Entry} {new : List ℕ}
      (hev : ev ∈ L.kids q) (hfile : ev.isDir = false) (hold : L.regions (.file q ev.pos) ≠ []) :
      Change fs d L q op (L.setFile q ev.pos (L.regions (.file q ev.pos) ++ new)
        (L.data (.file q ev.pos) ++ replicate (new.length * fs.cb) 0))
  /-- The same for a file without clusters: its entry does not get the new chain. -/
  | leak {op : Op} {ev : Entry} {l : List ℕ} {v' : View}
      (hfind : findEntry fs q op.name d = some ev) (hev : ev ∈ L.kids q)
      (hfile : ev.isDir = false) (hnil : L.regions (.file q ev.pos) = [])
      (hgrown : Grown fs (view fs d) v' [] l) (hshort : l.length < op.need fs)
      (hfull : v'.Full fs) :
      Change fs d L q op { L with lost := L.lost ∪ {x | x ∈ l} }

theorem Change.none {fs : Fs} {d : Disk} {L : Layout} {q : ℕ} (op : Op) : Change fs d L q op L := by
  have hc : Change fs d L q op (L.append q [] []) := .extend op []
  rwa [Layout.append_nil] at hc

def Changed (fs : Fs) (d : Disk) (L : Layout) (q : ℕ) (op : Op) (d' : Disk) : Prop :=
  ∃ L', Holds fs (view fs d') L' ∧ Change fs d L q op L'

section

variable {fs : Fs} (hg : Geometry fs) {d : Disk} {L : Layout} (h : Holds fs (view fs d) L) {q : ℕ}
  (hq : q ∈ L.dirs)

include h

theorem Holds.unchanged (op : Op) : Changed fs d L q op d := ⟨L, h, .none op⟩

theorem Holds.data_length (q pos : ℕ) :
    (L.data (.file q pos)).length = (L.regions (.file q pos)).length * fs.cb := by
  rw [← h.data q pos, bytes_length]

include hg hq

theorem create_changed (name : List UInt8) :
    (create fs q name).Ends d (fun _ d' => Changed fs d L q (.create name) d')
      (Changed fs d L q (.create name)) := by
  refine (create_ends hg h hq name).mono ?_ ?_
  · rintro _ d' ⟨hfind, g, ext, hslots, hentry, hd'⟩
    exact ⟨_, hd', .create ext hfind hslots hentry⟩
  · rintro d' ⟨⟨ext, hd'⟩, -⟩
    exact ⟨_, hd', .extend _ ext⟩

theorem mkdir_changed (name : List UInt8) :
    (mkdir fs q name).Ends d (fun _ d' => Changed fs d L q (.mkdir name) d')
      (Changed fs d L q (.mkdir name)) := by
  refine (mkdir_ends hg h hq name).mono ?_ ?_
  · rintro _ d' ⟨hfind, c, g, ext, hc, hfree, hslots, hentry, hd'⟩
    exact ⟨_, hd', .mkdir ext hfind hc hfree hslots hentry⟩
  · rintro d' ⟨ext, hd'⟩
    exact ⟨_, hd', .extend _ ext⟩

theorem unlink_changed (name : List UInt8) :
    (unlink fs q name).Ends d (fun _ d' => Changed fs d L q (.unlink name) d')
      (Changed fs d L q (.unlink name)) := by
  refine (unlink_ends hg h hq name).mono ?_ ?_
  · rintro _ d' ⟨ev, front, g, back, hfind, hev, hfile, hitems, hentry, hd'⟩
    exact ⟨_, hd', .unlink hfind hev hfile hitems hentry⟩
  · rintro d' ⟨rfl, -⟩
    exact h.unchanged _

theorem rmdir_changed {name : List UInt8} (hname : q = 0 ∨ isDots name = false) :
    (rmdir fs q name).Ends d (fun _ d' => Changed fs d L q (.rmdir name) d')
      (Changed fs d L q (.rmdir name)) := by
  refine (rmdir_ends hg h hq hname).mono ?_ ?_
  · rintro _ d' ⟨ev, front, g, back, hfind, hev, hdir, hitems, hentry, hempty, hd'⟩
    exact ⟨_, hd', .rmdir hfind hev hdir hitems hentry hempty⟩
  · rintro d' rfl
    exact h.unchanged _

theorem Holds.starved_changed {op : Op} {ev : Entry} {l : List ℕ} {d' : Disk}
    (hfind : findEntry fs q op.name d = some ev) (hev : ev ∈ L.kids q)
    (hfile : ev.isDir = false) (hst : Staged fs (view fs d') L q ev l)
    (hstarved : Starved fs (view fs d) (view fs d') (L.regions (.file q ev.pos)) l
      (op.need fs)) : Changed fs d L q op d' := by
  obtain ⟨new, rfl, hgrown⟩ := hstarved.grown
  rcases hst with ⟨hold, hd'⟩ | ⟨hnil, -, hd'⟩
  · have hchain := (h.dir q hq).file ev hev hfile
    rw [hgrown.bytes hg.cb_pos fun x hx => hchain.used hx, h.data] at hd'
    exact ⟨_, hd', .starve hev hfile hold⟩
  · have hshort := hstarved.short
    rw [hnil] at hd' hgrown hshort
    exact ⟨_, hd', .leak hfind hev hfile hnil hgrown hshort hstarved.full⟩

theorem write_changed {name : List UInt8} {ev : Entry} {off : ℕ} {buf : List UInt8}
    (hfind : findEntry fs q name d = some ev) (hbuf : buf.length < 2 ^ 32) :
    (write fs q name off buf).Ends d (fun _ d' => Changed fs d L q (.write name off buf) d')
      (Changed fs d L q (.write name off buf)) := by
  refine (write_found_ends hg h hq hfind hbuf).mono ?_ ?_
  · rintro n d' ⟨-, hfile, hev, ⟨-, rfl⟩ | ⟨hne, hend, L', hw, hd'⟩⟩
    · exact h.unchanged _
    · exact ⟨_, hd', .write hfind hev hfile hne hend hw⟩
  rintro d' (⟨rfl, -⟩ | ⟨hfile, hev, l, hst, ⟨hend, hlt, rfl⟩ | hstarved⟩)
  · exact h.unchanged _
  · rcases hst with ⟨-, hd'⟩ | ⟨hnil, -, hd'⟩
    · refine ⟨_, hd', .overrun hev hfile hend hlt ?_⟩
      rw [bytes_length, h.data_length]
    · simp only [hnil, not_mem_nil, Set.ofPred_false, Set.union_empty] at hd'
      exact ⟨L, hd', .none _⟩
  · exact h.starved_changed hg hq hfind hev hfile hst hstarved

theorem truncate_changed {name : List UInt8} {size : ℕ} (hsize : size < 2 ^ 32) :
    (truncate fs q name size).Ends d (fun _ d' => Changed fs d L q (.truncate name size) d')
      (Changed fs d L q (.truncate name size)) := by
  refine (truncate_ends hg h hq hsize).mono ?_ ?_
  · rintro _ d' ⟨ev, hfind, hfile, hev, ⟨-, rfl⟩ | ⟨-, L', ht, hd'⟩⟩
    · exact h.unchanged _
    · exact ⟨_, hd', .truncate hfind hev hfile ht⟩
  · rintro d' (⟨rfl, -⟩ | ⟨ev, l, hfind, hfile, hev, -, hst, hstarved⟩)
    · exact h.unchanged _
    · exact h.starved_changed hg hq hfind hev hfile hst hstarved

end

end Vnu.Fat16
