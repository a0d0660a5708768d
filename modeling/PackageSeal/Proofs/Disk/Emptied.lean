import PackageSeal.Disk.Walk
import PackageSeal.Proofs.Disk.Resolution
import PackageSeal.Proofs.Runs

/-!
# Disks without contents

`Disk.emptied` is a disk with nothing left in its files. Whatever a program does with paths goes as
it does there, because no path is resolved, no directory listed and no file opened by what files
hold: emptying a disk commutes with finding (`find_emptied`), writing (`emptied_write`), reading
(`read_emptied`) and walking (`filesUnder_emptied`). So of two disks that hold the same but for the
contents of files (`SameTree`), each can be written and read wherever the other can.
-/

namespace PackageSeal

namespace Node

mutual

/-- The node with nothing left in its files. -/
def emptied : Node → Node
  | file _ => file []
  | link target => link target
  | dir entries => dir (emptiedEntries entries)

def emptiedEntries : List (RawText × Node) → List (RawText × Node)
  | [] => []
  | entry :: rest => emptiedEntry entry :: emptiedEntries rest

def emptiedEntry : RawText × Node → RawText × Node
  | (name, node) => (name, node.emptied)

end

theorem emptiedEntries_eq_map (entries : Entries) :
    emptiedEntries entries = entries.map fun entry => (entry.1, entry.2.emptied) := by
  induction entries with
  | nil => rfl
  | cons entry rest ih => rw [emptiedEntries, emptiedEntry, ih, List.map_cons]

@[simp] theorem emptied_file (content : Bytes) : (file content).emptied = file [] := by
  rw [emptied]

@[simp] theorem emptied_link (target : RawText) : (link target).emptied = link target := by
  rw [emptied]

@[simp] theorem emptied_dir (entries : Entries) : (dir entries).emptied =
    dir (entries.map fun entry => (entry.1, entry.2.emptied)) := by
  rw [emptied, emptiedEntries_eq_map]

@[simp] theorem isDir_emptied (node : Node) : node.emptied.isDir = node.isDir := by
  cases node with
  | file content => rw [emptied_file]; rfl
  | link target => rw [emptied_link]
  | dir entries => rw [emptied_dir]; rfl

@[simp] theorem isFile_emptied (node : Node) : node.emptied.isFile = node.isFile := by
  cases node with
  | file content => rw [emptied_file]; rfl
  | link target => rw [emptied_link]
  | dir entries => rw [emptied_dir]; rfl

/-! ## Places -/

theorem lookup_emptied (entries : Entries) (name : RawText) :
    (entries.map fun entry => (entry.1, entry.2.emptied)).lookup name =
      (entries.lookup name).map emptied := by
  induction entries with
  | nil => rfl
  | cons entry rest ih =>
      rw [List.map_cons, List.lookup_cons, List.lookup_cons]
      cases name == entry.1 with
      | true => rfl
      | false => exact ih

/-- At each place of an emptied tree stands what is left of what stood there. -/
theorem get?_emptied (node : Node) (loc : Location) :
    node.emptied.get? loc = (node.get? loc).map emptied := by
  induction loc generalizing node with
  | nil => rfl
  | cons name rest ih =>
      cases node with
      | file content => rw [emptied_file]; rfl
      | link target => rw [emptied_link]; rfl
      | dir entries =>
          rw [emptied_dir, get?_cons, get?_cons, child?_dir, child?_dir, lookup_emptied]
          cases entries.lookup name with
          | none => rfl
          | some child => exact ih child

/-- Emptying a tree empties what was put into it. -/
theorem emptied_put (new : Node) (loc : Location) (node : Node) :
    (put new loc node).emptied = put new.emptied loc node.emptied := by
  have hset : ∀ (name : RawText) (child : Node) (entries : Entries),
      (Entries.set name child entries).map (fun entry => (entry.1, entry.2.emptied)) =
        Entries.set name child.emptied (entries.map fun entry => (entry.1, entry.2.emptied)) := by
    intro name child entries
    induction entries with
    | nil => rfl
    | cons entry rest ih =>
        rw [Entries.set, List.map_cons, Entries.set]
        by_cases h : name = entry.1
        · rw [if_pos h, if_pos h, List.map_cons]
        · rw [if_neg h, if_neg h, List.map_cons, ih]
  induction loc generalizing node with
  | nil => rfl
  | cons name rest ih =>
      cases node with
      | file content => simp only [emptied_file, put]
      | link target => simp only [emptied_link, put]
      | dir entries =>
          rw [emptied_dir, put, put, emptied_dir, hset, ih, lookup_emptied]
          cases entries.lookup name with
          | none => simp
          | some child => rfl

/-! ## Walks -/

mutual

/-- Below an emptied tree stands what is left of what stood there. -/
theorem inside_emptied : (node : Node) →
    node.emptied.inside = node.inside.map fun place => (place.1, place.2.emptied)
  | file content => by rw [emptied_file, inside, inside]; rfl
  | link target => by rw [emptied_link, inside]; rfl
  | dir entries => by
      rw [emptied, inside, inside, insideEntries_emptied entries]

theorem insideEntries_emptied : (entries : List (RawText × Node)) →
    insideEntries (emptiedEntries entries) =
      (insideEntries entries).map fun place => (place.1, place.2.emptied)
  | [] => rfl
  | entry :: rest => by
      rw [emptiedEntries, insideEntries, insideEntries, List.map_append, insideEntry_emptied entry,
        insideEntries_emptied rest]

theorem insideEntry_emptied : (entry : RawText × Node) →
    insideEntry (emptiedEntry entry) =
      (insideEntry entry).map fun place => (place.1, place.2.emptied)
  | (name, node) => by
      rw [emptiedEntry, insideEntry, insideEntry, List.map_cons, inside_emptied node, List.map_map,
        List.map_map]
      rfl

end

theorem listingFault?_emptied (path : Path) (node : Node) :
    node.emptied.listingFault? path = node.listingFault? path := by
  cases node with
  | file content => rw [emptied_file]; rfl
  | link target => rw [emptied_link]
  | dir entries =>
      rw [emptied_dir, listingFault?, listingFault?, ← List.map_reverse, List.findSome?_map]
      rfl

theorem walkFault?_emptied (root : Path) (node : Node) :
    node.emptied.walkFault? root = node.walkFault? root := by
  have hall : node.emptied.all = node.all.map fun place => (place.1, place.2.emptied) := by
    rw [all, all, List.map_cons, inside_emptied]
  rw [walkFault?, walkFault?, hall, List.findSome?_map]
  simp only [Function.comp_def, listingFault?_emptied]

theorem filesBelow_emptied (root : Path) (node : Node) :
    node.emptied.filesBelow root = node.filesBelow root := by
  rw [filesBelow, filesBelow, inside_emptied, List.filterMap_map]
  simp only [Function.comp_def, isFile_emptied]

end Node

/-- The place with nothing left in what stands there. -/
def Place.emptied : Place → Place
  | found loc node => found loc node.emptied
  | vacant parent name => vacant parent name

namespace Disk

/-- The reach with nothing left in what stands at its end. -/
def Reach.emptied : Reach → Reach
  | .place goal => .place goal.emptied
  | .link parent target rest => .link parent target rest

/-- The disk with nothing left in its files. -/
def emptied (disk : Disk) : Disk :=
  disk.withTop disk.top.emptied

/-! ## Resolution -/

section Advance

variable {top : Node} {purpose : Purpose} {slash : Bool} {loc : Location} {rest : List Step}

/-- A step from anything but a directory fails alike. -/
theorem advance_emptied_of_not_dir (h : ∀ entries, top.get? loc ≠ some (.dir entries))
    (step : Step) :
    advance top.emptied purpose slash loc (step :: rest) =
      (advance top purpose slash loc (step :: rest)).map Reach.emptied := by
  rw [advance, advance, top.get?_emptied]
  cases hnode : top.get? loc with
  | none => rfl
  | some node =>
      cases node with
      | file content => simp only [Option.map_some, Node.emptied_file, Except.map]
      | link target => simp only [Option.map_some, Node.emptied_link, Except.map]
      | dir entries => exact absurd hnode (h entries)

/-- Entering a name goes alike if the steps behind it do. -/
theorem advance_into_emptied {entries : Entries} (hdir : top.get? loc = some (.dir entries))
    (hdir' : top.emptied.get? loc =
      some (.dir (entries.map fun entry => (entry.1, entry.2.emptied))))
    (hrest : ∀ loc, advance top.emptied purpose slash loc rest =
      (advance top purpose slash loc rest).map Reach.emptied) (name : RawText) :
    advance top.emptied purpose slash loc (.into name :: rest) =
      (advance top purpose slash loc (.into name :: rest)).map Reach.emptied := by
  rw [advance_into hdir, advance_into hdir', top.get?_emptied]
  by_cases hmake : (rest.isEmpty && slash && decide (purpose = .make)) = true
  · rw [if_pos hmake, if_pos hmake]
    rfl
  rw [if_neg hmake, if_neg hmake]
  by_cases hlong : name.bytes.length > Route.maxName
  · rw [if_pos hlong, if_pos hlong]
    rfl
  rw [if_neg hlong, if_neg hlong]
  cases top.get? (loc ++ [name]) with
  | none => cases rest.isEmpty <;> rfl
  | some child =>
      cases child with
      | file content => simpa only [Option.map_some, Node.emptied_file] using hrest _
      | link target =>
          simp only [Option.map_some, Node.emptied_link]
          split_ifs
          · simp only [Except.map, Reach.emptied, Place.emptied, Node.emptied_link]
          · rfl
      | dir below => simpa only [Option.map_some, Node.emptied_dir] using hrest _

/-- Steps lead as far in an emptied tree. -/
theorem advance_emptied (top : Node) (purpose : Purpose) (slash : Bool) (loc : Location)
    (steps : List Step) : advance top.emptied purpose slash loc steps =
      (advance top purpose slash loc steps).map Reach.emptied := by
  induction steps generalizing loc with
  | nil =>
      rw [advance, advance, top.get?_emptied]
      cases top.get? loc with
      | none => rfl
      | some node => rfl
  | cons step rest ih =>
      by_cases hdir : ∃ entries, top.get? loc = some (.dir entries)
      · obtain ⟨entries, hdir⟩ := hdir
        have hdir' := top.get?_emptied loc
        rw [hdir, Option.map_some, Node.emptied_dir] at hdir'
        cases step with
        | here => rw [advance_here hdir, advance_here hdir', ih]
        | up => rw [advance_up hdir, advance_up hdir', ih]
        | into name => exact advance_into_emptied hdir hdir' ih name
      · exact advance_emptied_of_not_dir (fun entries h => hdir ⟨entries, h⟩) step

end Advance

/-- Resolution ends at the same place, behind the same links. -/
theorem follow_emptied (top : Node) (purpose : Purpose) (links : Nat) (loc : Location)
    (steps : List Step) (slash : Bool) : follow top.emptied purpose links loc steps slash =
      (follow top purpose links loc steps slash).map fun found => (found.1.emptied, found.2) := by
  induction links generalizing loc steps slash with
  | zero =>
      unfold follow
      rw [advance_emptied]
      cases advance top purpose slash loc steps with
      | error cause => rfl
      | ok reach =>
          cases reach with
          | place goal => rfl
          | link parent target rest => rfl
  | succ links ih =>
      unfold follow
      rw [advance_emptied]
      cases advance top purpose slash loc steps with
      | error cause => rfl
      | ok reach =>
          cases reach with
          | place goal => rfl
          | link parent target rest =>
              simp only [Except.map, Reach.emptied]
              cases Route.ofRaw target with
              | error cause => rfl
              | ok route => exact ih _ _ _

variable (disk : Disk) (path : Path)

theorem locate_emptied (purpose : Purpose) (route : Route) : disk.emptied.locate purpose route =
    (disk.locate purpose route).map fun found => (found.1.emptied, found.2) :=
  follow_emptied _ _ _ _ _ _

/-- A path leads to the same place, and to what is left there. -/
theorem find_emptied :
    disk.emptied.find path = (disk.find path).map fun found => (found.1, found.2.emptied) := by
  unfold find
  cases Route.ofPath path with
  | error cause => rfl
  | ok route =>
      simp only [lookup, locate_emptied]
      cases disk.locate .reach route with
      | error cause => rfl
      | ok found =>
          obtain ⟨place, slash⟩ := found
          cases place with
          | vacant parent name => rfl
          | found loc node =>
              simp only [Except.map, Place.emptied, Node.isDir_emptied]
              split_ifs
              · rfl
              · rfl

/-! ## Files -/

/-- The same files can be read, and then there is nothing in them. -/
theorem read_emptied : disk.emptied.read path = (disk.read path).map fun _ => [] := by
  rw [read, read, find_emptied]
  cases disk.find path with
  | error cause => rfl
  | ok found =>
      obtain ⟨loc, node⟩ := found
      cases node with
      | file content => simp only [Except.map, Node.emptied_file, contentOf]
      | link target => simp only [Except.map, Node.emptied_link, contentOf]
      | dir entries => simp only [Except.map, Node.emptied_dir, contentOf]

theorem target_emptied (route : Route) : disk.emptied.target route = disk.target route := by
  rw [target, target, locate_emptied]
  cases disk.locate .make route with
  | error cause => rfl
  | ok found =>
      obtain ⟨place, slash⟩ := found
      cases slash with
      | true => rfl
      | false =>
          cases place with
          | vacant parent name => rfl
          | found loc node =>
              cases node with
              | file content => simp only [Except.map, Place.emptied, Node.emptied_file]
              | link target => simp only [Except.map, Place.emptied, Node.emptied_link]
              | dir entries => simp only [Except.map, Place.emptied, Node.emptied_dir]

/-- The same files can be written, and whatever is written is an empty file there. -/
theorem emptied_write (content : Bytes) :
    (disk.write path content).map emptied = disk.emptied.write path [] := by
  unfold write
  cases Route.ofPath path with
  | error cause => rfl
  | ok route =>
      simp only [target_emptied]
      cases disk.target route with
      | error cause => rfl
      | ok loc =>
          simp only [Except.map, emptied, withTop, Node.emptied_put, Node.emptied_file]

/-- A walk lists the same files, or fails alike. -/
theorem filesUnder_emptied (root : Path) : disk.emptied.filesUnder root = disk.filesUnder root := by
  have hdirectory : disk.emptied.directory root = (disk.directory root).map Node.emptied := by
    rw [directory, directory, find_emptied]
    cases disk.find root with
    | error cause => rfl
    | ok found =>
        simp only [Except.map, Node.isDir_emptied]
        split_ifs
        · rfl
        · rfl
  rw [filesUnder, filesUnder, hdirectory]
  cases disk.directory root with
  | error cause => rfl
  | ok node => simp only [Except.map, Node.walkFault?_emptied, Node.filesBelow_emptied]

/-! ## Disks that differ in contents only -/

/-- The disks hold the same but for the contents of files. -/
def SameTree (disk other : Disk) : Prop :=
  disk.emptied = other.emptied

namespace SameTree

variable {disk other after : Disk} {path : Path} {content : Bytes}

protected theorem refl (disk : Disk) : disk.SameTree disk :=
  rfl

/-- What can be read on one can be read on the other. -/
theorem read (h : disk.SameTree other) (hread : disk.read path = .ok content) :
    ∃ content', other.read path = .ok content' := by
  have hempty : other.emptied.read path = .ok [] := by
    rw [← show disk.emptied = other.emptied from h, read_emptied, hread]
    rfl
  rw [read_emptied, map_eq_ok_iff] at hempty
  obtain ⟨content', hread', -⟩ := hempty
  exact ⟨content', hread'⟩

/-- What can be written on one can be written on the other, whatever it is, and they stay the same
but for contents. -/
theorem write (h : disk.SameTree other) (hwrite : disk.write path content = .ok after)
    (content' : Bytes) :
    ∃ after', other.write path content' = .ok after' ∧ after.SameTree after' := by
  have hempty : (other.write path content').map emptied = .ok after.emptied := by
    rw [emptied_write, ← show disk.emptied = other.emptied from h, ← emptied_write, hwrite]
    rfl
  obtain ⟨after', hwrite', hsame⟩ := map_eq_ok_iff.mp hempty
  exact ⟨after', hwrite', hsame.symm⟩

/-- Walks list the same files on both. -/
theorem filesUnder_eq (h : disk.SameTree other) (root : Path) :
    disk.filesUnder root = other.filesUnder root := by
  rw [← filesUnder_emptied, show disk.emptied = other.emptied from h, filesUnder_emptied]

end SameTree

end Disk

end PackageSeal
