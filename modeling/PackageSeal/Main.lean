import PackageSeal.Ed25519
import PackageSeal.Program

/-!
# The program on a file system

The part of the file system that a command line is about is read into a `Disk`: the package with
everything below it, the key files and the layout file, and what links among them lead to. The
program runs on that, and the files that it changed are written.

A `Disk` holds less than a file system, so the two meet as follows.

* Special files in the package are left out. One that a command names is read like a file.
* What the host does not let be read or listed ends the run before it begins, also if the program
  would not have come to it. What it does not let be written ends the run while the files are
  written.
* Where a link to nothing leads, the host does not tell. The file that may be made behind it is kept
  at a place of its own (`behind`) and written through the link. In the same run it is seen through
  the link only.
-/

namespace PackageSeal.Main

open CommandLine

/-- A disk being read in. -/
abbrev Survey := StateT Node IO

/-- The path of a place in the file system. -/
def textOf (loc : Location) : String :=
  "/" ++ String.intercalate "/" (loc.map RawText.shown)

/-- What the host says of a failure. -/
def causeOf : IO.Error → IoError
  | .noFileOrDirectory .. => .notFound
  | .permissionDenied .. => .other "Permission denied (os error 13)"
  | error => .other (String.intercalate " " (error.toString.splitOn "\n"))

/-- Ask the host; a failure is told like one of the program. -/
def ask {α : Type} (operation : Operation) (path : String) (answer : IO α) : IO α := do
  try answer
  catch error =>
    throw (IO.userError (Failure.access operation ⟨path⟩ (causeOf error)).message)

/-- What kind of thing stands at a place of the file system, if anything. -/
def kindOf (parent : Location) (name : RawText) : IO (Option IO.FS.FileType) := do
  let entry := IO.FS.DirEntry.mk (textOf parent) name.shown
  ask .reading entry.path.toString do
    try
      let metadata ← entry.path.symlinkMetadata
      pure (some metadata.type)
    catch
      | .noFileOrDirectory .. | .inappropriateType .. | .invalidArgument .. => pure none
      | error => throw error

/-- The directory of the files behind links to nothing: each is kept there at the place of its
link. -/
def behind : RawText := .utf8 ".behind-links"

/-- Where a link leads: to what is there; if nothing is, to the place kept for it; and to itself if
links lead in a circle. -/
def linkTarget (parent : Location) (name : RawText) : IO String := do
  let entry := IO.FS.DirEntry.mk (textOf parent) name.shown
  ask .reading entry.path.toString do
    try
      let _ ← entry.path.metadata
      let real ← IO.FS.realPath entry.path
      pure real.toString
    catch
      | .noFileOrDirectory .. | .inappropriateType .. =>
        pure (textOf (behind :: parent ++ [name]))
      | .invalidArgument .. => pure (textOf (parent ++ [name]))
      | error => throw error

/-- Read in a file. -/
def surveyFile (loc : Location) : Survey Unit := do
  let content ← ask .reading (textOf loc) (IO.FS.readBinFile (textOf loc))
  modify (Node.put (.file content.data.toList) loc)

/-- Make sure that a directory is there, empty if nothing below it has been read in. -/
def surveyDir (loc : Location) : Survey Unit := do
  if ((← get).get? loc).isNone then modify (Node.put (.dir []) loc)

/-- Read in what stands along a route from a place on; `links` bounds the links that are followed,
and `special` tells whether a special file is read like a file. -/
def surveyRoute (special : Bool) : Nat → Location → List Step → Survey Unit
  | 0, _, _ => pure ()
  | links + 1, start, steps => do
    let mut loc := start
    let mut rest := steps
    for step in steps do
      rest := rest.drop 1
      match step with
      | .here => pure ()
      | .up => loc := loc.dropLast
      | .into name =>
        let next := loc ++ [name]
        match ← kindOf loc name with
        | some .dir =>
          surveyDir next
          loc := next
        | some .symlink =>
          let target ← linkTarget loc name
          modify (Node.put (.link (.utf8 target)) next)
          if target = textOf (behind :: next) then surveyDir (behind :: loc)
          else surveyRoute special links [] ((Route.ofText target).steps ++ rest)
          return
        | some .file =>
          surveyFile next
          return
        | some .other =>
          if special then surveyFile next
          return
        | none => return

/-- Read in what a path leads to. -/
def surveyPath (special : Bool) (home : Location) (path : Path) : Survey Unit := do
  match Route.ofPath path with
  | .error _ => pure ()
  | .ok route =>
    surveyRoute special Disk.maxLinks (if route.absolute then [] else home) route.steps

/-- Read in everything below a directory. -/
partial def surveyTree (home : Location) (root : Path) : Survey Unit := do
  let entries ← ask .listing root.text (IO.FS.DirEntry.mk root.text "").path.readDir
  for entry in entries do
    let path := root.join ⟨entry.fileName⟩
    surveyPath false home path
    let metadata ← ask .reading path.text entry.path.symlinkMetadata
    if metadata.type == .dir then surveyTree home path

/-- The files that a command names besides the package. -/
def namedFiles : Command → List Path
  | .seal arguments =>
    let location := arguments.keyLocation
    let key := location.privatePath
    [key, key.sibling KeyLocation.publicName] ++ location.publicPath?.toList ++
      arguments.layout.toList
  | .verify arguments => arguments.layout.toList ++ arguments.publicKey.toList

/-- The package of a command and its layout file. -/
def packageOf : Command → Path × Option Path
  | .seal arguments => (arguments.package, arguments.layout)
  | .verify arguments => (arguments.package, arguments.layout)

/-- Read in what a command is about. -/
def surveyCommand (home : Location) (command : Command) : Survey Unit := do
  let (package, layoutFile) := packageOf command
  surveyPath false home package
  if ← (IO.FS.DirEntry.mk package.text "").path.isDir then surveyTree home package
  (namedFiles command).forM (surveyPath true home)
  let disk : Disk := ⟨← get, home⟩
  if let .ok layout := Program.chooseLayout disk layoutFile then
    if let .ok targets := layout.architectureCoverages then
      for target in targets do
        if let .listed _ members := target.scope then
          for member in members do
            surveyPath false home (member.under package).source

/-- The path under which a file is written, which is that of its link if it is kept behind one. -/
def writtenAt : Location → String
  | [] => textOf []
  | name :: rest => if name = behind then textOf rest else textOf (name :: rest)

/-- Write the files in which two trees differ. -/
def writeChanges (before after : Node) : IO Unit := do
  for (loc, node) in after.inside do
    if let .file content := node then
      let same := match before.get? loc with
        | some (.file old) => old == content
        | _ => false
      if !same then
        ask .writing (writtenAt loc) (IO.FS.writeBinFile (writtenAt loc) ⟨content.toArray⟩)

/-- Run a command line on the file system. -/
def run (texts : List String) : IO Program.Output := do
  let key ← IO.getEnv "MODSEAL_PRIVATE_KEY"
  let home := (Route.ofText (← IO.currentDir).toString).steps.filterMap fun
    | .into name => some name
    | _ => none
  let survey : Survey Unit := do
    surveyDir home
    if let .ok command := parse key texts then surveyCommand home command
  try
    let (_, top) ← survey.run (.dir [])
    let (disk, output) := Program.run Ed25519.scheme key texts ⟨top, home⟩
    writeChanges top disk.top
    pure output
  catch error => pure ⟨1, "", ["error: " ++ error.toString]⟩

end PackageSeal.Main

/-- Seal or verify a package. -/
def main (texts : List String) : IO UInt32 := do
  let output ← PackageSeal.Main.run texts
  IO.print output.stdout
  for line in output.stderr do
    IO.eprintln line
  return UInt32.ofNat output.exit
