import PackageSeal.Disk.Access

/-!
# The files of a tree

`filesUnder` lists every regular file below a directory, in the order of path components and
without following links. Because the list is sorted, it does not depend on the order in which a
directory lists its entries. A walk fails where a directory cannot be listed: one that holds a name
which is not text, or one whose path has grown too long to be opened.
-/

namespace PackageSeal

/-- The path of a place below the one that the path leads to. -/
def Path.descend (path : Path) (loc : Location) : Path :=
  loc.foldl (fun p name => p.join ⟨name.shown⟩) path

/-- Why a node found at a path cannot be listed; a node that is no directory need not be. Of several
names that are not text the newest is told. -/
def Node.listingFault? (path : Path) : Node → Option IoError
  | .dir entries =>
    if path.text.utf8ByteSize > Route.maxLength then some .nameTooLong
    else entries.reverse.findSome? fun entry =>
      match entry.1 with
      | .utf8 _ => none
      | .octets bytes => some (.notUtf8Path (path.join ⟨Text.readable bytes⟩).text)
  | _ => none

/-- The first directory of a tree that cannot be listed, and why. -/
def Node.walkFault? (root : Path) (node : Node) : Option (Path × IoError) :=
  node.all.findSome? fun place =>
    (place.2.listingFault? (root.descend place.1)).map fun fault => (root.descend place.1, fault)

/-- The regular files below a node, each with the path that leads to it, older entries first. -/
def Node.filesBelow (root : Path) (node : Node) : List Path :=
  node.inside.filterMap fun place =>
    if place.2.isFile then some (root.descend place.1) else none

namespace Disk

variable (disk : Disk)

/-- The directory that a path leads to. -/
def directory (path : Path) : Except IoError Node :=
  match disk.find path with
  | .error e => .error e
  | .ok (_, node) => if node.isDir then .ok node else .error .notDirectory

/-- The regular files below the directory at `root`, in path order; or the directory that could not
be listed, and why. -/
def filesUnder (root : Path) : Except (Path × IoError) (List Path) :=
  match disk.directory root with
  | .error e => .error (root, e)
  | .ok node =>
    match node.walkFault? root with
    | some fault => .error fault
    | none => .ok (Path.sort (node.filesBelow root))

end Disk

end PackageSeal
