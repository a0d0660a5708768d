import PackageSeal.Disk.Walk
import PackageSeal.Log

/-!
# Sidecars

Every regular file of a package has a companion that holds its checksum and nothing else: the file
with `.sha256` after its name. Companions have none themselves.
-/

namespace PackageSeal.Sidecar

/-- What ends the name of a sidecar. -/
def suffix : String := ".sha256"

/-- The sidecar of a file. -/
def pathFor (path : Path) : Path :=
  path.extend suffix

/-- Whether a name is that of a sidecar. -/
def isMarkedName (name : String) : Bool :=
  suffix.toList.isSuffixOf name.toList

/-- Whether a path names a sidecar. -/
def isMarked (path : Path) : Bool :=
  match path.lastName? with
  | some name => isMarkedName name
  | none => false

/-- The largest piece in which content is read for its checksum. -/
def blockSize : Nat := 4096

/-- The checksum of a file. -/
def checksumOf (disk : Disk) (path : Path) : Except Failure Checksum :=
  match disk.find path with
  | .error cause => .error (.access .opening path cause)
  | .ok (_, node) =>
    match Disk.contentOf node with
    | .error cause => .error (.access .reading path cause)
    | .ok content => .ok (Checksum.ofParts (pieces blockSize content))

/-- The checksum that a file's sidecar records. -/
def recorded (disk : Disk) (path : Path) : Except Failure Checksum :=
  match disk.readText (pathFor path) with
  | .error cause => .error (.access .reading (pathFor path) cause)
  | .ok text =>
    match Checksum.ofText text with
    | .error fault => .error (.brokenRule (.sidecarText (pathFor path) fault))
    | .ok checksum => .ok checksum

/-- Write the sidecar of a file. -/
def write (path : Path) : Action Failure Path := do
  let checksum ← Action.look fun disk => Logged.ofExcept (checksumOf disk path)
  Action.change fun disk =>
    (disk.write (pathFor path) (utf8 checksum.text)).mapError
      (Failure.access .writing (pathFor path))
  Action.tell (.sidecarWritten (pathFor path) checksum)
  pure (pathFor path)

/-- The regular files below a directory, in path order. -/
def filesUnder (disk : Disk) (root : Path) : Except Failure (List Path) :=
  (disk.filesUnder root).mapError fun fault => .access .listing fault.1 fault.2

/-- Whether a path, seen from the root, is one of the excluded ones. -/
def isExcluded (root : Path) (excluded : List String) (path : Path) : Bool :=
  match root.below? path with
  | some relative => excluded.contains relative.text
  | none => false

/-- The files below a directory that have a sidecar, without those at the excluded relative
paths. -/
def subjects (disk : Disk) (root : Path) (excluded : List String) : Except Failure (List Path) :=
  (filesUnder disk root).map fun files =>
    files.filter fun path => !isMarked path && !isExcluded root excluded path

/-- Write the sidecars of all files below a directory but the excluded ones, and count them. -/
def writeAll (root : Path) (excluded : List String) : Action Failure Nat := do
  let files ← Action.look fun disk => Logged.ofExcept (subjects disk root excluded)
  files.forM fun path => discard (write path)
  pure files.length

end PackageSeal.Sidecar
