import PackageSeal.Text.Raw

/-!
# The tree of a disk

A disk is a tree of directories, regular files and symbolic links. A place in it is named by the
list of entry names that leads there from the top. Of two entries with one name the first counts.
`get?` says what stands at a place; `get?_append` says that it is reached through those above it.

Nothing else is in the tree, and this bounds what a statement about every disk says:

* A file stands at one place. There are no hard links, so what is written at one place shows at no
  other.
* There are no special files: no pipes, sockets or devices.
* There are no permissions, owners or times, and space does not run out: what is there can be read,
  listed and written.
* Nothing but the run itself changes the tree.
-/

namespace PackageSeal

/-- What a directory entry leads to. -/
inductive Node where
  | file (content : Bytes)
  | link (target : RawText)
  | dir (entries : List (RawText × Node))

/-- The entries of a directory, the oldest first. -/
abbrev Entries := List (RawText × Node)

/-- The entry names that lead from the top to a place. -/
abbrev Location := List RawText

namespace Entries

/-- The entries with `name` leading to `node`: an entry of that name is replaced where it stands, a
new one comes last. -/
def set (name : RawText) (node : Node) : Entries → Entries
  | [] => [(name, node)]
  | (other, old) :: rest =>
    if name = other then (name, node) :: rest else (other, old) :: set name node rest

/-- The entries without those called `name`. -/
def erase (name : RawText) (entries : Entries) : Entries :=
  entries.filter fun entry => entry.1 != name

theorem lookup_set_self (name : RawText) (node : Node) (entries : Entries) :
    (set name node entries).lookup name = some node := by
  induction entries with
  | nil => simp [set]
  | cons entry rest ih =>
    obtain ⟨other, old⟩ := entry
    rw [set]
    split
    · simp
    · next h => rw [List.lookup_cons, beq_false_of_ne h]; exact ih

theorem lookup_set_of_ne {name other : RawText} (h : other ≠ name) (node : Node)
    (entries : Entries) : (set name node entries).lookup other = entries.lookup other := by
  induction entries with
  | nil => simp [set, h]
  | cons entry rest ih =>
    obtain ⟨first, old⟩ := entry
    rw [set]
    split
    · next hn => subst hn; simp [List.lookup_cons, beq_false_of_ne h]
    · rw [List.lookup_cons, List.lookup_cons, ih]

end Entries

namespace Node

/-- Whether the node is a directory. -/
def isDir : Node → Bool
  | dir _ => true
  | _ => false

/-- Whether the node is a regular file. -/
def isFile : Node → Bool
  | file _ => true
  | _ => false

/-- What an entry of the node leads to. -/
def child? (node : Node) (name : RawText) : Option Node :=
  match node with
  | dir entries => entries.lookup name
  | _ => none

/-- What stands at a place below the node. Links are not followed. -/
def get? (node : Node) : Location → Option Node
  | [] => some node
  | name :: rest => (node.child? name).bind fun child => child.get? rest

/-- The tree with `new` at a place. Directories missing on the way are made; a way through something
that is no directory leaves the tree as it is. -/
def put (new : Node) : Location → Node → Node
  | [], _ => new
  | name :: rest, dir entries =>
    dir (Entries.set name (put new rest ((entries.lookup name).getD (dir []))) entries)
  | _ :: _, node => node

/-- The tree without what stands at a place. -/
def remove : Location → Node → Node
  | [], node => node
  | [name], dir entries => dir (Entries.erase name entries)
  | name :: rest, dir entries =>
    match entries.lookup name with
    | some child => dir (Entries.set name (remove rest child) entries)
    | none => dir entries
  | _ :: _, node => node

@[simp] theorem get?_nil (node : Node) : node.get? [] = some node := rfl

@[simp] theorem get?_cons (node : Node) (name : RawText) (rest : Location) :
    node.get? (name :: rest) = (node.child? name).bind fun child => child.get? rest := rfl

@[simp] theorem child?_dir (entries : Entries) (name : RawText) :
    (dir entries).child? name = entries.lookup name := rfl

/-- A place below a place is reached through it. -/
theorem get?_append (node : Node) (front rest : Location) :
    node.get? (front ++ rest) = (node.get? front).bind fun below => below.get? rest := by
  induction front generalizing node with
  | nil => rfl
  | cons name front ih =>
    simp only [List.cons_append, get?_cons, Option.bind_assoc]
    congr 1
    funext child
    exact ih child

/-! ## Everything below -/

mutual

/-- Everything below a node, each thing after the directory it stands in, older entries first. Links
are not followed. -/
def inside : Node → List (Location × Node)
  | file _ => []
  | link _ => []
  | dir entries => insideEntries entries

/-- What the entries lead to, and everything below it. -/
def insideEntries : List (RawText × Node) → List (Location × Node)
  | [] => []
  | entry :: rest => insideEntry entry ++ insideEntries rest

/-- What one entry leads to, and everything below it. -/
def insideEntry : RawText × Node → List (Location × Node)
  | (name, node) => ([name], node) :: node.inside.map fun place => (name :: place.1, place.2)

end

/-- The node itself and everything below it. -/
def all (node : Node) : List (Location × Node) :=
  ([], node) :: node.inside

/-- Nothing stands below a node at the node's own place. -/
theorem ne_nil_of_mem_inside {node : Node} {place : Location × Node} (h : place ∈ node.inside) :
    place.1 ≠ [] := by
  cases node with
  | file _ => simp [inside] at h
  | link _ => simp [inside] at h
  | dir entries =>
    rw [inside] at h
    induction entries with
    | nil => simp [insideEntries] at h
    | cons entry rest ih =>
      obtain ⟨name, node⟩ := entry
      rw [insideEntries, List.mem_append] at h
      rcases h with h | h
      · rw [insideEntry, List.mem_cons, List.mem_map] at h
        rcases h with rfl | ⟨inner, -, rfl⟩ <;> simp
      · exact ih h

end Node

end PackageSeal
