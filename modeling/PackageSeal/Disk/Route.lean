import PackageSeal.Path
import PackageSeal.Disk.Fault
import PackageSeal.Disk.Node

/-!
# Routes

A route is what a path asks the disk to do, step by step: enter a name, go up, or stay. Besides the
steps it records where to start and whether the path ends in a separator, which asks for a
directory. Reading a route refuses the paths that no disk is asked about: empty ones, those that
hold a NUL and those that are too long.
-/

namespace PackageSeal

/-- One step of a route. -/
inductive Step where
  | here
  | up
  | into (name : RawText)
deriving DecidableEq

/-- The steps that a path asks for. -/
structure Route where
  /-- Whether to start at the top. -/
  absolute : Bool
  steps : List Step
  /-- Whether the path ends in a separator. -/
  slash : Bool
deriving DecidableEq

namespace Route

/-- The longest path, in octets. -/
def maxLength : Nat := 4095

/-- The longest entry name, in octets. -/
def maxName : Nat := 255

/-- The step of one piece; an empty piece asks for none. -/
def stepOfText? (piece : List Char) : Option Step :=
  if piece = [] then none
  else if piece = ['.'] then some .here
  else if piece = ['.', '.'] then some .up
  else some (.into (.utf8 (String.ofList piece)))

/-- The step of one piece given in octets. -/
def stepOfOctets? (piece : Bytes) : Option Step :=
  if piece = [] then none
  else if piece = [46] then some .here
  else if piece = [46, 46] then some .up
  else some (.into (RawText.ofBytes piece))

/-- The route of a text. -/
def ofText (text : String) : Route :=
  let chars := text.toList
  ⟨chars.head? == some '/', (Text.split '/' chars).filterMap stepOfText?,
    chars.getLast? == some '/'⟩

/-- The route of octets. -/
def ofOctets (bytes : Bytes) : Route :=
  ⟨bytes.head? == some 47, (Text.split 47 bytes).filterMap stepOfOctets?,
    bytes.getLast? == some 47⟩

/-- The route of a text or octets, if the disk can be asked about it. -/
def ofRaw (raw : RawText) : Except IoError Route :=
  let bytes := raw.bytes
  if bytes.contains 0 then .error .nulInPath
  else if bytes.isEmpty then .error .notFound
  else if bytes.length > maxLength then .error .nameTooLong
  else .ok (match raw with
    | .utf8 text => ofText text
    | .octets bytes => ofOctets bytes)

/-- The route of a path, if the disk can be asked about it. -/
def ofPath (path : Path) : Except IoError Route :=
  ofRaw (.utf8 path.text)

end Route

end PackageSeal
