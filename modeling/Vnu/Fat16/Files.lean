import Vnu.Fat16.Runs

/-!
What a call does to the files of a volume. `FileStep` says where size and bytes of a file come from
after one call.
-/
namespace Vnu.Fat16

open Lib Lib.Overlay List Function Nat

variable {more front back : List Item} {g : Group} {pos c : ℕ} {l : List ℕ} {bs : List UInt8}
  {v : View}

inductive FileStep (fs : Fs) (d : Disk) (L : Layout) (q : ℕ) : Op → ℕ → List UInt8 → Prop
  | kept {op : Op} {q' : ℕ} {ev : Entry} (hq' : q' ∈ L.dirs) (hev : ev ∈ L.kids q')
      (hfile : ev.isDir = false) : FileStep fs d L q op ev.size (L.data (.file q' ev.pos))
  | fresh {op : Op} : FileStep fs d L q op 0 []
  | written {name buf : List UInt8} {off m : ℕ} {ev : Entry} (hev : ev ∈ L.kids q)
      (hfile : ev.isDir = false)
      (hroom : off + buf.length ≤
        (L.data (.file q ev.pos) ++ replicate (m * fs.cb) (0 : UInt8)).length) :
      FileStep fs d L q (.write name off buf) (max ev.size (off + buf.length))
        (overlay (fill 0 (L.data (.file q ev.pos) ++ replicate (m * fs.cb) 0) ev.size off)
          off buf)
  | grown {name : List UInt8} {size m : ℕ} {ev : Entry} (hfind : findEntry fs q name d = some ev)
      (hev : ev ∈ L.kids q) (hfile : ev.isDir = false) (hlt : ev.size < size)
      (hroom : fs.clustersFor size * fs.cb ≤ (L.data (.file q ev.pos)).length + m * fs.cb) :
      FileStep fs d L q (.truncate name size) size
        (L.data (.file q ev.pos) ++ replicate (m * fs.cb) 0)
  | emptied {name : List UInt8} {size : ℕ} {ev : Entry} (hev : ev ∈ L.kids q)
      (hfile : ev.isDir = false) (hlt : size < ev.size) (hnone : fs.clustersFor size = 0) :
      FileStep fs d L q (.truncate name size) size []
  | cut {name : List UInt8} {size : ℕ} {ev : Entry} (hev : ev ∈ L.kids q)
      (hfile : ev.isDir = false) (hlt : size < ev.size) :
      FileStep fs d L q (.truncate name size) size ((L.data (.file q ev.pos)).take size ++
        replicate (fs.clustersFor size * fs.cb - size) 0)
  | overrun {name buf : List UInt8} {off : ℕ} {ev : Entry} {bs : List UInt8}
      (hev : ev ∈ L.kids q) (hfile : ev.isDir = false)
      (hend : 2 ^ 32 < off + buf.length + fs.cb) (hlt : off + buf.length < 2 ^ 32)
      (hlen : bs.length = (L.data (.file q ev.pos)).length) :
      FileStep fs d L q (.write name off buf) ev.size bs
  | starved {op : Op} {m : ℕ} {ev : Entry} (hev : ev ∈ L.kids q) (hfile : ev.isDir = false) :
      FileStep fs d L q op ev.size (L.data (.file q ev.pos) ++ replicate m 0)

section

variable {L : Layout} {q : ℕ}

theorem Layout.entries_append (L : Layout) (q : ℕ) (more : List Item) (ext : List ℕ) :
    (L.append q more ext).entries q = L.entries q ++ entriesAt (endOf (L.items q)) more := by
  simp only [Layout.entries, Layout.append, update_self, entriesAt_append, zero_add]

theorem Layout.append_slots (L : Layout) (q : ℕ) (more : List Item) (ext : List ℕ) :
    (itemSlots ((L.append q more ext).items q)).length =
      (itemSlots (L.items q)).length + (itemSlots more).length := by
  simp [Layout.append]

theorem Layout.append_data (L : Layout) (q : ℕ) (more : List Item) (ext : List ℕ) :
    (L.append q more ext).data = L.data := rfl

theorem Layout.kid_append {ext : List ℕ} {q' : ℕ} {ev : Entry}
    (h : ev ∈ (L.append q more ext).kids q') : ev ∈ L.kids q' ∨
      (q' = q ∧ ev ∈ entriesAt (endOf (L.items q)) more) := by
  by_cases hne : q' = q
  · subst hne
    rw [Layout.mem_kids, Layout.entries_append, mem_append] at h
    obtain ⟨hold | hnew, hkid⟩ := h
    · exact Or.inl (Layout.mem_kids.mpr ⟨hold, hkid⟩)
    · exact Or.inr ⟨rfl, hnew⟩
  · left
    rwa [Layout.kids_congr (L := L) (update_of_ne hne _ _)] at h

theorem Layout.kid_edit (mid : List Item) (hitems : L.items q = front ++ .live g :: back)
    (hlen : (itemSlots mid).length = g.slots.length) {q' : ℕ} {ev : Entry}
    (h : ev ∈ (L.edit q (front ++ (mid ++ back)) pos l bs).kids q') :
    (ev ∈ L.kids q' ∧ (q' = q → ev.pos ≠ (g.entry (endOf front)).pos)) ∨
      (q' = q ∧ ev ∈ entriesAt (endOf front) mid) := by
  by_cases hne : q' = q
  · subst hne
    rcases Holds.kid_cases hitems hlen (update_self _ _ _) h with ⟨hev, hpos⟩ | hev
    · exact Or.inl ⟨hev, fun _ => hpos⟩
    · exact Or.inr ⟨rfl, hev⟩
  · left
    rw [Layout.kids_congr (L := L) (update_of_ne hne _ _)] at h
    exact ⟨h, fun heq => absurd heq hne⟩

theorem Layout.edit_data {items : List Item} {pos' q' : ℕ} (h : ¬ (q' = q ∧ pos' = pos)) :
    (L.edit q items pos l bs).data (.file q' pos') = L.data (.file q' pos') := by
  apply update_of_ne
  intro heq
  exact h ⟨(Obj.file.inj heq).1, (Obj.file.inj heq).2⟩

end

section

variable {fs : Fs} {d : Disk} {L L' : Layout} {q q' : ℕ} {op : Op} {ev : Entry}

theorem Group.entry_size_lt (g : Group) (pos : ℕ) : (g.entry pos).size < 2 ^ 32 := by
  have h28 := (g.short 28).toNat_lt
  have h29 := (g.short 29).toNat_lt
  have h30 := (g.short 30).toNat_lt
  have h31 := (g.short 31).toNat_lt
  simp only [Group.entry, shortEntry, Slot.size]
  omega

theorem Holds.data_nil (h : Holds fs v L) (hno : ¬ L.Has (.file q pos)) :
    L.data (.file q pos) = [] := by
  have hnil : L.regions (.file q pos) = [] := by
    by_contra hne
    exact hno (h.live _ hne)
  rw [← h.data q pos, hnil]
  simp [View.bytes]

theorem Layout.no_file_behind {ev : Entry} (hev : ev ∈ entriesAt (endOf (L.items q)) more) :
    ¬ L.Has (.file q ev.pos) := by
  rintro ⟨-, ev', hev', -, hpos⟩
  have hlt := entriesAt_pos_lt (Layout.mem_kids.mp hev').1
  have hge := entriesAt_pos_ge hev
  omega

theorem FileStep.setFile {ev₀ : Entry}
    (hev₀ : ev₀ ∈ L.kids q) (hq' : q' ∈ L.dirs) (hev : ev ∈ L.kids q')
    (hfile : ev.isDir = false) (hpos : ev₀.pos = pos) (hnew : FileStep fs d L q op ev₀.size bs) :
    FileStep fs d L q op ev.size ((L.setFile q pos l bs).data (.file q' ev.pos)) := by
  by_cases heq : q' = q ∧ ev.pos = pos
  · obtain ⟨rfl, hp⟩ := heq
    have hsame : ev = ev₀ := Layout.kids_pos_inj hev hev₀ (hp.trans hpos.symm)
    have hdata : (L.setFile q' pos l bs).data (.file q' pos) = bs := update_self _ _ _
    rw [hp, hdata, hsame]
    exact hnew
  · have hdata : (L.setFile q pos l bs).data (.file q' ev.pos) = L.data (.file q' ev.pos) := by
      apply update_of_ne
      intro hobj
      exact heq ⟨(Obj.file.inj hobj).1, (Obj.file.inj hobj).2⟩
    rw [hdata]
    exact .kept hq' hev hfile

theorem FileStep.located {nf size : ℕ} (hitems : L.items q = front ++ .live g :: back)
    (hsize : size < 2 ^ 32)
    (hq' : q' ∈ L.dirs) (hev : ev ∈ (L.edit q (front ++ .live (g.located nf size) :: back)
      (g.entry (endOf front)).pos l bs).kids q') (hfile : ev.isDir = false)
    (hnew : FileStep fs d L q op size bs) :
    FileStep fs d L q op ev.size ((L.edit q (front ++ .live (g.located nf size) :: back)
      (g.entry (endOf front)).pos l bs).data (.file q' ev.pos)) := by
  have hlen : (itemSlots [Item.live (g.located nf size)]).length = g.slots.length := by
    simp [Item.slots, Group.slots, Group.located]
  rcases Layout.kid_edit [.live (g.located nf size)] hitems hlen hev with
    ⟨hold, hpos⟩ | ⟨rfl, hmid⟩
  · rw [Layout.edit_data fun hand => hpos hand.1 hand.2]
    exact .kept hq' hold hfile
  have hentry : ev = (g.located nf size).entry (endOf front) := by
    simpa [entriesAt] using hmid
  rw [Group.located_entry] at hentry
  have hp : ev.pos = (g.entry (endOf front)).pos := by rw [hentry]
  have hs : ev.size = size := by
    rw [hentry]
    exact Nat.mod_eq_of_lt hsize
  have hdata : (L.edit q' (front ++ .live (g.located nf size) :: back)
      (g.entry (endOf front)).pos l bs).data
        (.file q' (g.entry (endOf front)).pos) = bs := update_self _ _ _
  rw [hp, hs, hdata]
  exact hnew

theorem FileStep.erased (hitems : L.items q = front ++ .live g :: back) (hq' : q' ∈ L.dirs)
    (hev : ev ∈ (L.edit q (front ++ (g.erased ++ back))
      (g.entry (endOf front)).pos [] []).kids q') (hfile : ev.isDir = false) :
    FileStep fs d L q op ev.size ((L.edit q (front ++ (g.erased ++ back))
      (g.entry (endOf front)).pos [] []).data (.file q' ev.pos)) := by
  rcases Layout.kid_edit g.erased hitems g.erased_slots hev with ⟨hold, hpos⟩ | ⟨rfl, hmid⟩
  · rw [Layout.edit_data fun hand => hpos hand.1 hand.2]
    exact .kept hq' hold hfile
  · rw [g.entriesAt_erased] at hmid
    cases hmid

theorem Holds.ne_free (h : Holds fs v L) (hq : q ∈ L.dirs) (hfree : v.fat c = 0) : q ≠ c := by
  rintro rfl
  rcases (h.dir q hq).area with ⟨rfl, -⟩ | ⟨hne, hchain⟩
  · rw [h.reserved] at hfree
    cases hfree
  · exact hchain.used (hchain.first_mem hne) hfree

theorem Layout.unlinkDir_data (items : List Item) {o : Obj} (ho : o.home ≠ c) :
    (L.unlinkDir q items pos c).data o = (L.edit q items pos [] []).data o := if_neg ho

theorem addDir_kids (hne : q' ≠ c) : (L.addDir c q pos).kids q' = L.kids q' :=
  Layout.kids_congr (update_of_ne hne _ _)

theorem addDir_kids_self (hc : c ≠ 0) : (L.addDir c q pos).kids c = [] := by
  have hitems : (L.addDir c q pos).items c = [.live (dotGroup c), .live (dotdotGroup q)] :=
    update_self _ _ _
  simp only [Layout.kids, Layout.entries, hitems, entriesAt, dotGroup_entry, dotdotGroup_entry]
  simp [isKid, hc, dotGroup, dotEntry, Group.bare, Group.slots]

/-- What a call can do to a file is its own step, or nothing. -/
theorem Change.file_cases (hg : Geometry fs) (h : Holds fs (view fs d) L) (hq : q ∈ L.dirs)
    (hfits : op.Fits) (hc : Change fs d L q op L') (hq' : q' ∈ L'.dirs) (hev : ev ∈ L'.kids q')
    (hfile : ev.isDir = false) : FileStep fs d L q op ev.size (L'.data (.file q' ev.pos)) := by
  cases hc with
  | extend op ext =>
    rcases Layout.kid_append hev with hev | ⟨-, hev⟩
    · exact .kept hq' hev hfile
    · simp [entriesAt] at hev
  | create ext hfind hslots hentry =>
    rcases Layout.kid_append hev with hev | ⟨rfl, hev⟩
    · exact .kept hq' hev hfile
    have hnil := h.data_nil (Layout.no_file_behind hev)
    simp only [entriesAt, mem_singleton, hentry] at hev
    have hsize : ev.size = 0 := by rw [hev]; rfl
    rw [Layout.append_data, hnil, hsize]
    exact .fresh
  | mkdir ext hfind hr hfree hslots hentry =>
    rcases Layout.kid_append hev with hev | ⟨rfl, hev⟩
    · rcases hq' with rfl | hq'
      · rw [addDir_kids_self hr.ne_zero] at hev
        simp at hev
      · rw [addDir_kids (h.ne_free hq' hfree)] at hev
        exact .kept hq' hev hfile
    · simp only [entriesAt, mem_singleton, hentry] at hev
      have hdir : ev.isDir = true := by
        rw [hev]
        show (attrDir &&& attrDir != 0) = true
        decide
      rw [hdir] at hfile
      cases hfile
  | unlink hfind hev₀ hfile₀ hitems hentry =>
    subst hentry
    exact FileStep.erased hitems hq' hev hfile
  | rmdir hfind hev₀ hdir hitems hentry hempty =>
    subst hentry
    have hhome : (Obj.file q' ev.pos).home ≠ _ := hq'.2
    rw [Layout.unlinkDir_data _ hhome]
    exact FileStep.erased hitems hq'.1 hev hfile
  | write hfind hev₀ hfile₀ hbuf hend hw =>
    obtain ⟨front, g, back, new, nf, hitems, rfl, hroom, rfl⟩ := hw
    refine FileStep.located hitems ?_ hq' hev hfile (.written hev₀ hfile₀ ?_)
    · exact max_lt (Group.entry_size_lt _ _) (by have := hg.cb_pos; omega)
    · rwa [length_append, length_replicate, h.data_length, ← add_mul, ← length_append]
  | truncate hfind hev₀ hfile₀ ht =>
    obtain ⟨front, g, back, nf, l, bs, hitems, rfl, rfl, ht⟩ := ht
    refine FileStep.located hitems hfits hq' hev hfile ?_
    rcases ht with ⟨hlt, hroom, new, rfl, rfl⟩ | ⟨hlt, hnone, rfl, rfl⟩ |
      ⟨hlt, hsome, hroom, rfl, rfl⟩
    · refine .grown hfind hev₀ hfile₀ hlt ?_
      rw [h.data_length, ← add_mul, ← length_append]
      exact Nat.mul_le_mul_right _ hroom
    · exact .emptied hev₀ hfile₀ hlt hnone
    · exact .cut hev₀ hfile₀ hlt
  | overrun hev₀ hfile₀ hend hlt hlen =>
    exact FileStep.setFile hev₀ hq' hev hfile rfl (.overrun hev₀ hfile₀ hend hlt hlen)
  | starve hev₀ hfile₀ hold =>
    exact FileStep.setFile hev₀ hq' hev hfile rfl (.starved hev₀ hfile₀)
  | leak hfind hev₀ hfile₀ hnil hgrown hshort hfull => exact .kept hq' hev hfile

end

end Vnu.Fat16
