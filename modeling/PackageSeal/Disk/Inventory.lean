import PackageSeal.Disk.Access

/-!
# Inventories

Everything below a directory, with links not followed, in the order of the octets of the relative
paths.
-/

namespace PackageSeal

/-- What an inventory says of one place. -/
inductive Item where
  | dir
  | link (target : RawText)
  | file (content : Bytes)

namespace Node

/-- What an inventory says of a node. -/
def item : Node → Item
  | dir _ => .dir
  | link target => .link target
  | file content => .file content

/-- The octets of the relative path of a place. -/
def relativeOctets (loc : Location) : Bytes :=
  Text.joinWith 47 (loc.map RawText.bytes)

/-- Everything below a node in the order of the relative paths. -/
def inventory (node : Node) : List (RawText × Item) :=
  let listed := node.inside.map fun place => (relativeOctets place.1, place.2.item)
  let sorted := listed.mergeSort fun a b => decide (a.1 ≤ b.1)
  sorted.map fun entry => (RawText.ofBytes entry.1, entry.2)

end Node

namespace Disk

/-- The inventory of the directory that a route leads to. -/
def inventory (disk : Disk) (route : Route) : Except IoError (List (RawText × Item)) :=
  match disk.lookup .reach route with
  | .error e => .error e
  | .ok (_, node) => if node.isDir then .ok node.inventory else .error .notDirectory

end Disk

end PackageSeal
