import PackageSeal.Disk.Route

/-!
# Finding places

Resolution walks the steps of a route through the tree. `advance` goes as far as it can without
following a link; `follow` continues behind links, of which it follows at most `maxLinks`, so that
resolution ends also where links lead in circles. The result is the place that the route names: a
node that is there, or a name that is free in a directory.

Links are the symbolic ones of the tree, and what can go wrong is in the tree and the route:
something missing or no directory on the way, too many links, a name or path that is too long. Every
directory can be searched.
-/

namespace PackageSeal

/-- A disk and the directory at which relative paths start. -/
structure Disk where
  top : Node
  start : Location

/-- Where a route leads. -/
inductive Place where
  /-- To something that is there. -/
  | found (loc : Location) (node : Node)
  /-- To a name that is free in the directory at `parent`. -/
  | vacant (parent : Location) (name : RawText)

namespace Disk

/-- What a route is resolved for, which decides what becomes of its last name. -/
inductive Purpose where
  /-- To get at what is there: a link at the last name is followed. -/
  | reach
  /-- To get at the entry: a link at the last name is itself the place, unless a separator
  follows. -/
  | entry
  /-- To make a file: a link at the last name is followed, and a name before a separator is
  refused. -/
  | make
deriving DecidableEq

/-- Links followed in one resolution. -/
def maxLinks : Nat := 40

/-- How far the steps lead before the next link. -/
inductive Reach where
  | place (place : Place)
  /-- A link met in the directory at `parent`, with the steps still to take. -/
  | link (parent : Location) (target : RawText) (rest : List Step)

/-- Take the steps up to the next link. Every step needs a directory to be taken in; `slash` tells
whether a separator follows the last one. -/
def advance (top : Node) (purpose : Purpose) (slash : Bool) :
    Location → List Step → Except IoError Reach
  | loc, [] =>
    match top.get? loc with
    | some node => .ok (.place (.found loc node))
    | none => .error .notFound
  | loc, step :: rest =>
    match top.get? loc with
    | none => .error .notFound
    | some (.dir entries) =>
      match step with
      | .here => advance top purpose slash loc rest
      | .up => advance top purpose slash loc.dropLast rest
      | .into name =>
        if rest.isEmpty && slash && purpose = .make then .error .isDirectory
        else if name.bytes.length > Route.maxName then .error .nameTooLong
        else match entries.lookup name with
          | none => if rest.isEmpty then .ok (.place (.vacant loc name)) else .error .notFound
          | some (.link target) =>
            if rest.isEmpty && !slash && purpose = .entry then
              .ok (.place (.found (loc ++ [name]) (.link target)))
            else .ok (.link loc target rest)
          | some _ => advance top purpose slash (loc ++ [name]) rest
    | some _ => .error .notDirectory

/-- Take the steps, following at most `links` links. The result tells also whether a directory is
asked for by a separator at the end, of the path or of a link that ends it. -/
def follow (top : Node) (purpose : Purpose) :
    Nat → Location → List Step → Bool → Except IoError (Place × Bool)
  | links, loc, steps, slash =>
    match advance top purpose slash loc steps with
    | .error e => .error e
    | .ok (.place place) => .ok (place, slash)
    | .ok (.link parent target rest) =>
      match links with
      | 0 => .error .linkLoop
      | links + 1 =>
        match Route.ofRaw target with
        | .error e => .error e
        | .ok route =>
          follow top purpose links (if route.absolute then [] else parent) (route.steps ++ rest)
            (slash || rest.isEmpty && route.slash)

variable (disk : Disk)

/-- The place of a route, and whether it must be a directory. -/
def locate (purpose : Purpose) (route : Route) : Except IoError (Place × Bool) :=
  follow disk.top purpose maxLinks (if route.absolute then [] else disk.start)
    route.steps route.slash

/-- What a route leads to. -/
def lookup (purpose : Purpose) (route : Route) : Except IoError (Location × Node) :=
  match disk.locate purpose route with
  | .error e => .error e
  | .ok (.vacant _ _, _) => .error .notFound
  | .ok (.found loc node, slash) =>
    if slash && !node.isDir then .error .notDirectory else .ok (loc, node)

end Disk

end PackageSeal
