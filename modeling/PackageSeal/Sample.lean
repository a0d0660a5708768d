import PackageSeal.Disk.Arrange
import PackageSeal.KeyLocation

/-!
# A sample package

A small package in the release layout and a key directory, to try things on. The four common members
hold the letters `A` to `D`, the installed files of 64 bits `E` to `G`, those of 32 bits `e` to `g`.
-/

namespace PackageSeal.Sample

/-- The files of the package and their contents. -/
def files : List (String × String) := [
  ("module.prop", "A"),
  ("sepolicy.rule", "B"),
  ("post-fs-data.sh", "C"),
  ("service.sh", "D"),
  ("lib64/libzygisk.so", "E"),
  ("bin/zygisk-ptrace64", "F"),
  ("bin/zygiskd64", "G"),
  ("lib/libzygisk.so", "e"),
  ("bin/zygisk-ptrace32", "f"),
  ("bin/zygiskd32", "g"),
  ("webroot/index.html", "<html></html>")]

/-- Make the directory at a path, if the path names one. -/
def makeDirs (disk : Disk) (path : Path) : Except IoError Disk :=
  if path.text = "" then .ok disk
  else do
    let route ← Route.ofPath path
    disk.makeDirs route

/-- Write a file below the root, making the directories on the way. -/
def putFile (root : Path) (disk : Disk) (file : String × String) : Except IoError Disk := do
  let path := root.join ⟨file.1⟩
  let ready ←
    match path.parent? with
    | some parent => makeDirs disk parent
    | none => pure disk
  ready.write path (utf8 file.2)

/-- Write the package. -/
def putPackage (root : Path) (disk : Disk) : Except IoError Disk :=
  files.foldlM (putFile root) disk

/-- Write a key directory with a seed and its public key. -/
def putKeys (scheme : SignatureScheme) (dir : Path) (seed : Seed) (disk : Disk) :
    Except IoError Disk := do
  let ready ← makeDirs disk dir
  let withSeed ← ready.write (dir.join ⟨KeyLocation.privateName⟩) seed.bytes
  withSeed.write (dir.join ⟨KeyLocation.publicName⟩) (scheme.publicKey seed).bytes

end PackageSeal.Sample
