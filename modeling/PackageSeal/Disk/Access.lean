import PackageSeal.Disk.Resolve

/-!
# Reading and writing files

What a program does with files named by paths: look at them, read them whole, and write them whole.
Links are followed. Nothing but `write` changes the disk, and `write` changes one place.
-/

namespace PackageSeal.Disk

variable (disk : Disk)

/-- What a path leads to. -/
def find (path : Path) : Except IoError (Location × Node) :=
  match Route.ofPath path with
  | .error e => .error e
  | .ok route => disk.lookup .reach route

/-- Whether a path leads to anything. -/
def isThere (path : Path) : Bool :=
  match disk.find path with
  | .ok _ => true
  | .error _ => false

/-- Whether a path leads to a regular file. -/
def isFile (path : Path) : Bool :=
  match disk.find path with
  | .ok (_, node) => node.isFile
  | .error _ => false

/-- Whether a path leads to a directory. -/
def isDir (path : Path) : Bool :=
  match disk.find path with
  | .ok (_, node) => node.isDir
  | .error _ => false

/-- The octets behind a node once it is open. A directory can be opened, but not read. -/
def contentOf : Node → Except IoError Bytes
  | .file content => .ok content
  | _ => .error .isDirectory

/-- The size that a directory reports: an assumption about the file system. It decides how framing a
directory ends. Of a size that is not zero some octets have to be read, which fails; a directory
that reports no octets would be framed like an empty file. -/
def directorySize : Nat := 4096

/-- The size that an open node reports. -/
def sizeOf : Node → Nat
  | .file content => content.length
  | _ => directorySize

/-- The whole content of a file. -/
def read (path : Path) : Except IoError Bytes :=
  match disk.find path with
  | .error e => .error e
  | .ok (_, node) => contentOf node

/-- The whole content of a file that holds text. -/
def readText (path : Path) : Except IoError String :=
  match disk.read path with
  | .error e => .error e
  | .ok content =>
    match ofUtf8? content with
    | some text => .ok text
    | none => .error .notUtf8Content

/-- The disk with another tree. -/
def withTop (top : Node) : Disk :=
  { disk with top := top }

/-- The location at which writing along a route puts a file. -/
def target (route : Route) : Except IoError Location :=
  match disk.locate .make route with
  | .error e => .error e
  | .ok (_, true) => .error .isDirectory
  | .ok (.vacant parent name, false) => .ok (parent ++ [name])
  | .ok (.found loc (.file _), false) => .ok loc
  | .ok (.found _ _, false) => .error .isDirectory

/-- The disk after a file was written whole, its former content gone. A free name becomes a file. -/
def write (path : Path) (content : Bytes) : Except IoError Disk :=
  match Route.ofPath path with
  | .error e => .error e
  | .ok route =>
    match disk.target route with
    | .error e => .error e
    | .ok loc => .ok (disk.withTop (Node.put (.file content) loc disk.top))

end PackageSeal.Disk
