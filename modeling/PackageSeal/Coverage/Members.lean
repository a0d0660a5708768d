import PackageSeal.Sidecar

/-!
# The members under a signature

Finding the members that a signature covers in a package: all regular files of the tree but the
signature and its sidecar, wherever files of those names stand; or the listed members, each of which
must have a regular file.
-/

namespace PackageSeal

namespace Roster

/-- The roster with a new member; a name can be taken once. -/
def enroll (roster : Roster) (member : Member) : Except Failure Roster :=
  match roster.insert member with
  | .ok bigger => .ok bigger
  | .error holder =>
    .error (.brokenRule (.claimedTwice member.name holder.source member.source))

end Roster

namespace Coverage

/-- Whether a file of the tree is the signature or its sidecar, by its name. -/
def isOwnFile (artifact : String) (path : Path) : Bool :=
  match path.lastName? with
  | some name => name == artifact || name == artifact ++ Sidecar.suffix
  | none => false

/-- The member that a file of the tree is, named by its path below the root. -/
def memberOfFile (root path : Path) : Except Failure Member :=
  match root.below? path with
  | none => .error (.brokenRule (.outsideRoot path root))
  | some relative =>
    match MemberName.ofPath relative with
    | .error fault => .error (.brokenRule (.memberName fault))
    | .ok name => .ok ⟨name, path⟩

/-- The listed member seen from the root, if it has a regular file. -/
def presentMember (disk : Disk) (root : Path) (member : Member) : Except Failure Member :=
  let resolved := member.under root
  if disk.isFile resolved.source then .ok resolved
  else .error (.absentMember resolved.name resolved.source)

/-- The members that a signature covers in the package at `root`. -/
def members (coverage : Coverage) (disk : Disk) (root : Path) : Except Failure Roster :=
  match coverage.scope with
  | .tree => do
    let files ← Sidecar.filesUnder disk root
    (files.filter fun path => !isOwnFile coverage.artifact path).foldlM
      (fun roster path => do
        let member ← memberOfFile root path
        roster.enroll member)
      Roster.empty
  | .listed _ listed =>
    listed.foldlM
      (fun roster member => do
        let present ← presentMember disk root member
        roster.enroll present)
      Roster.empty

end Coverage

end PackageSeal
