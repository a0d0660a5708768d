import PackageSeal.Disk.Access

/-!
# Arranging a disk

What one does to a disk by hand: make directories and links, write into files, and move, copy and
remove what is there.
-/

namespace PackageSeal

namespace Disk

/-- A disk with an empty directory to start in. -/
def fresh : Disk :=
  let home : Location := [.utf8 "tmp", .utf8 "session"]
  ⟨Node.put (.dir []) home (.dir []), home⟩

variable (disk : Disk)

/-- Make sure that the steps lead to a directory, making those that are missing. -/
private def ensureDir (absolute : Bool) (steps : List Step) : Except IoError Disk :=
  match disk.locate .reach ⟨absolute, steps, true⟩ with
  | .error e => .error e
  | .ok (.found _ (.dir _), _) => .ok disk
  | .ok (.found _ _, _) => .error .alreadyExists
  | .ok (.vacant parent name, _) =>
    .ok (disk.withTop (Node.put (.dir []) (parent ++ [name]) disk.top))

/-- Make the directory of a route and those on the way to it. -/
def makeDirs (route : Route) : Except IoError Disk :=
  (List.range (route.steps.length + 1)).foldlM
    (fun (d : Disk) n => d.ensureDir route.absolute (route.steps.take n)) disk

/-- Make the directories on the way to a route's last step. -/
def makeParents (route : Route) : Except IoError Disk :=
  disk.makeDirs { route with steps := route.steps.dropLast }

/-- The disk with a file written at the route. -/
def writeAt (route : Route) (content : Bytes) : Except IoError Disk := do
  let loc ← disk.target route
  pure (disk.withTop (Node.put (.file content) loc disk.top))

/-- The disk with the content of the file at the route changed. -/
def changeAt (route : Route) (change : Bytes → Bytes) : Except IoError Disk := do
  let (loc, node) ← disk.lookup .reach route
  let content ← contentOf node
  pure (disk.withTop (Node.put (.file (change content)) loc disk.top))

/-- The content of the file at the route. -/
def contentAt (route : Route) : Except IoError Bytes := do
  let (_, node) ← disk.lookup .reach route
  contentOf node

/-- A content cut or filled with zeros to a length. -/
def resized (length : Nat) (content : Bytes) : Bytes :=
  content.take length ++ List.replicate (length - content.length) 0

/-- A content with one octet changed; nothing changes beyond the end. -/
def masked (offset : Nat) (mask : UInt8) (content : Bytes) : Bytes :=
  content.modify offset fun b => b ^^^ mask

/-- The disk with a link made at the route. -/
def linkAt (route : Route) (target : RawText) : Except IoError Disk := do
  if target.bytes.contains 0 then throw .nulInPath
  if target.bytes.isEmpty then throw .notFound
  match ← disk.locate .entry route with
  | (.vacant parent name, false) =>
    pure (disk.withTop (Node.put (.link target) (parent ++ [name]) disk.top))
  | (.vacant _ _, true) => throw .notFound
  | (.found _ _, _) => throw .alreadyExists

/-- The disk without what the route leads to; a link itself is removed, a directory with all
below. -/
def removeAt (route : Route) : Except IoError Disk := do
  let (loc, _) ← disk.lookup .entry route
  pure (disk.withTop (Node.remove loc disk.top))

/-- The disk with what one route leads to moved to another. A file or link there is replaced, and so
is an empty directory by a directory. -/
def moveAt (source destination : Route) : Except IoError Disk := do
  let (loc, node) ← disk.lookup .entry source
  let moved (goal : Location) :=
    disk.withTop (Node.put node goal (Node.remove loc disk.top))
  match ← disk.locate .entry destination with
  | (.vacant parent name, slash) =>
    if slash && !node.isDir then throw .notDirectory
    let goal := parent ++ [name]
    if loc.isPrefixOf goal then throw .invalidArgument
    pure (moved goal)
  | (.found goal old, _) =>
    if goal = loc then return disk
    match node, old with
    | .dir _, .dir [] => if loc.isPrefixOf goal then throw .invalidArgument else pure (moved goal)
    | .dir _, .dir _ => throw (if loc.isPrefixOf goal then .invalidArgument else .notEmpty)
    | .dir _, _ => throw .notDirectory
    | _, .dir _ => throw .isDirectory
    | _, _ => pure (moved goal)

/-- The disk with the content of one file written to another. -/
def copyAt (source destination : Route) : Except IoError Disk := do
  let content ← disk.contentAt source
  let ready ← disk.makeParents destination
  ready.writeAt destination content

end Disk

end PackageSeal
