import Mathlib.Data.List.Basic
import PackageSeal.Disk.Inventory
import PackageSeal.Disk.WellFormed

/-!
# What stands where

`Disk.at?` says of every place of a disk whether a directory, a link or a file stands there, and
what the link or the file holds. It forgets the order of entries and nothing else, so that a write
is the change of one place (`Overwrites`).

`SameShape` compares two disks more loosely: directories and links are the same on both, so that
routes go the same way, and only files differ. A write leaves the shape as it is.
-/

namespace PackageSeal

namespace Node

theorem item_eq_dir_iff {node : Node} : node.item = .dir ↔ ∃ entries, node = dir entries := by
  cases node with
  | file content => simp [item]
  | link target => simp [item]
  | dir entries => simp [item]

theorem item_eq_link_iff {node : Node} {target : RawText} :
    node.item = .link target ↔ node = link target := by
  cases node with
  | file content => simp [item]
  | link other => simp [item]
  | dir entries => simp [item]

theorem item_eq_file_iff {node : Node} {content : Bytes} :
    node.item = .file content ↔ node = file content := by
  cases node with
  | file other => simp [item]
  | link target => simp [item]
  | dir entries => simp [item]

/-- Putting a file where nothing or a file stood changes what is there and nothing else. -/
theorem map_item_get?_put {node : Node} {front : Location} {entries : Entries} {name : RawText}
    (hdir : node.get? front = some (dir entries))
    (hold : ∀ old, entries.lookup name = some old → ∃ content, old = file content)
    (content : Bytes) (other : Location) :
    ((put (file content) (front ++ [name]) node).get? other).map item =
      if other = front ++ [name] then some (.file content) else (node.get? other).map item := by
  induction front generalizing node other with
  | nil =>
      obtain rfl : node = dir entries := Option.some.inj hdir
      cases other with
      | nil => simp [put, item]
      | cons first rest =>
          simp only [List.nil_append, put, get?_cons, child?_dir]
          by_cases hn : first = name
          · subst hn
            rw [Entries.lookup_set_self]
            cases rest with
            | nil => simp [item]
            | cons next rest =>
                cases hl : entries.lookup first with
                | none => simp [child?]
                | some old =>
                    obtain ⟨oldContent, rfl⟩ := hold old hl
                    simp [child?]
          · rw [Entries.lookup_set_of_ne hn]
            simp [hn]
  | cons step front ih =>
      cases node with
      | file _ => simp [child?] at hdir
      | link _ => simp [child?] at hdir
      | dir es =>
          rw [get?_cons, child?_dir] at hdir
          obtain ⟨child, hchild, hfront⟩ := Option.bind_eq_some_iff.mp hdir
          cases other with
          | nil => simp [put, item]
          | cons first rest =>
              simp only [List.cons_append, put, get?_cons, child?_dir, hchild, Option.getD_some]
              by_cases hn : first = step
              · subst hn
                rw [Entries.lookup_set_self, Option.bind_some, ih hfront]
                simp [hchild]
              · rw [Entries.lookup_set_of_ne hn]
                simp [hn]

end Node

namespace Disk

/-- What stands at a place. Links are not followed. -/
def at? (disk : Disk) (loc : Location) : Option Item :=
  (disk.top.get? loc).map Node.item

theorem at?_eq_dir_iff {disk : Disk} {loc : Location} :
    disk.at? loc = some .dir ↔ ∃ entries, disk.top.get? loc = some (.dir entries) := by
  simp only [at?, Option.map_eq_some_iff, Node.item_eq_dir_iff]
  constructor
  · rintro ⟨_, h, entries, rfl⟩
    exact ⟨entries, h⟩
  · rintro ⟨entries, h⟩
    exact ⟨_, h, entries, rfl⟩

theorem at?_eq_link_iff {disk : Disk} {loc : Location} {target : RawText} :
    disk.at? loc = some (.link target) ↔ disk.top.get? loc = some (.link target) := by
  simp only [at?, Option.map_eq_some_iff, Node.item_eq_link_iff, exists_eq_right]

theorem at?_eq_file_iff {disk : Disk} {loc : Location} {content : Bytes} :
    disk.at? loc = some (.file content) ↔ disk.top.get? loc = some (.file content) := by
  simp only [at?, Option.map_eq_some_iff, Node.item_eq_file_iff, exists_eq_right]

theorem at?_eq_none_iff {disk : Disk} {loc : Location} :
    disk.at? loc = none ↔ disk.top.get? loc = none := by
  simp [at?]

/-- Whatever stands below a place, a directory stands at the place. -/
theorem at?_eq_dir_of_append {disk : Disk} {front rest : Location} {item : Item}
    (hrest : rest ≠ []) (h : disk.at? (front ++ rest) = some item) :
    disk.at? front = some .dir := by
  obtain ⟨node, hnode, -⟩ := Option.map_eq_some_iff.mp h
  rw [Node.get?_append] at hnode
  obtain ⟨below, hbelow, hget⟩ := Option.bind_eq_some_iff.mp hnode
  cases rest with
  | nil => exact absurd rfl hrest
  | cons name rest =>
      cases below with
      | file _ => simp [Node.child?] at hget
      | link _ => simp [Node.child?] at hget
      | dir entries => exact at?_eq_dir_iff.mpr ⟨entries, hbelow⟩

/-! ## Writes -/

/-- The second disk is the first with a file at a place where nothing or a file stood. -/
structure Overwrites (disk : Disk) (loc : Location) (content : Bytes) (after : Disk) : Prop where
  start_eq : after.start = disk.start
  at?_eq : ∀ other, after.at? other = if other = loc then some (.file content) else disk.at? other
  was_file : ∀ item, disk.at? loc = some item → ∃ old, item = .file old

namespace Overwrites

variable {disk after : Disk} {loc : Location} {content : Bytes}

theorem at?_self (h : Overwrites disk loc content after) :
    after.at? loc = some (.file content) := by
  rw [h.at?_eq, if_pos rfl]

theorem at?_of_ne (h : Overwrites disk loc content after) {other : Location} (hne : other ≠ loc) :
    after.at? other = disk.at? other := by
  rw [h.at?_eq, if_neg hne]

end Overwrites

/-- Putting a file at a free name or over a file. -/
theorem overwrites_put {disk : Disk} {front : Location} {entries : Entries} {name : RawText}
    (hdir : disk.top.get? front = some (.dir entries))
    (hold : ∀ old, entries.lookup name = some old → ∃ content, old = .file content)
    (content : Bytes) :
    Overwrites disk (front ++ [name]) content
      (disk.withTop (Node.put (.file content) (front ++ [name]) disk.top)) where
  start_eq := rfl
  at?_eq other := Node.map_item_get?_put hdir hold content other
  was_file item hitem := by
    obtain ⟨node, hnode, rfl⟩ := Option.map_eq_some_iff.mp hitem
    rw [Node.get?_append, hdir, Option.bind_some, Node.get?_cons, Node.child?_dir] at hnode
    obtain ⟨child, hchild, hget⟩ := Option.bind_eq_some_iff.mp hnode
    obtain ⟨old, rfl⟩ := hold child hchild
    obtain rfl : Node.file old = node := Option.some.inj hget
    exact ⟨old, rfl⟩

/-! ## Disks of the same shape -/

/-- Directories and links are the same on both disks. -/
structure SameShape (disk after : Disk) : Prop where
  start_eq : after.start = disk.start
  dir_iff : ∀ {loc}, after.at? loc = some .dir ↔ disk.at? loc = some .dir
  link_iff : ∀ {loc target}, after.at? loc = some (.link target) ↔
    disk.at? loc = some (.link target)

namespace SameShape

theorem refl (disk : Disk) : SameShape disk disk :=
  ⟨rfl, Iff.rfl, Iff.rfl⟩

theorem symm {disk after : Disk} (h : SameShape disk after) : SameShape after disk :=
  ⟨h.start_eq.symm, h.dir_iff.symm, h.link_iff.symm⟩

theorem trans {first second third : Disk} (h : SameShape first second)
    (h' : SameShape second third) : SameShape first third :=
  ⟨h'.start_eq.trans h.start_eq, h'.dir_iff.trans h.dir_iff, h'.link_iff.trans h.link_iff⟩

end SameShape

/-- A write changes files only. -/
theorem Overwrites.sameShape {disk after : Disk} {loc : Location} {content : Bytes}
    (h : Overwrites disk loc content after) : SameShape disk after := by
  have hitem : ∀ (item : Item), (∀ old, item ≠ .file old) → ∀ other,
      after.at? other = some item ↔ disk.at? other = some item := by
    intro item hne other
    by_cases heq : other = loc
    · subst heq
      constructor
      · intro hafter
        rw [h.at?_self, Option.some.injEq] at hafter
        exact absurd hafter.symm (hne content)
      · intro hdisk
        obtain ⟨old, hold⟩ := h.was_file item hdisk
        exact absurd hold (hne old)
    · rw [h.at?_of_ne heq]
  exact ⟨h.start_eq, hitem _ (by simp) _, hitem _ (by simp) _⟩

end Disk

end PackageSeal
