import PackageSeal.Roster

/-!
# Architectures

An architecture of the runtime has its own signature. Its name stands in the names of its members,
its word size selects the installed files that supply their content, and a template names one such
member for every architecture by means of placeholders.
-/

namespace PackageSeal

/-- The word size of an architecture. -/
inductive WordSize where
  | thirtyTwo
  | sixtyFour
deriving DecidableEq

namespace WordSize

/-- The word size of so many bits. -/
def ofBits? (bits : Nat) : Option WordSize :=
  if bits = 32 then some thirtyTwo else if bits = 64 then some sixtyFour else none

/-- What is said of a number that is no word size. -/
def unsupportedMessage (bits : Nat) : String :=
  s!"unsupported word size {bits}; expected 32 or 64"

/-- The number of bits, as it ends the names of installed programs. -/
def digits : WordSize → String
  | thirtyTwo => "32"
  | sixtyFour => "64"

/-- The directory of installed libraries. -/
def libraries : WordSize → String
  | thirtyTwo => "lib"
  | sixtyFour => "lib64"

/-- The word size in words. -/
def shown (size : WordSize) : String :=
  size.digits ++ "-bit"

end WordSize

/-- An architecture with a signature of its own. -/
structure Architecture where
  name : String
  /-- The file name of its signature. -/
  artifact : String
  wordSize : WordSize
deriving DecidableEq

namespace Architecture

/-- The architectures of a release. -/
def release : List Architecture := [
  ⟨"arm64-v8a", "machikado.arm64", .sixtyFour⟩,
  ⟨"armeabi-v7a", "machikado.arm", .thirtyTwo⟩,
  ⟨"x86_64", "machikado.x86_64", .sixtyFour⟩,
  ⟨"x86", "machikado.x86", .thirtyTwo⟩]

/-- The architecture in words. -/
def shown (arch : Architecture) : String :=
  arch.name ++ " (" ++ arch.wordSize.shown ++ ")"

/-- A text with its placeholders filled in: first the name, then the bits, then the library
directory. -/
def fill (arch : Architecture) (template : String) : String :=
  let named := Text.replace (Text.braced "abi").toList arch.name.toList template.toList
  let sized := Text.replace (Text.braced "bits").toList arch.wordSize.digits.toList named
  String.ofList (Text.replace (Text.braced "libdir").toList arch.wordSize.libraries.toList sized)

end Architecture

/-- A member whose name and source depend on the architecture. -/
structure Template where
  /-- The text of the member name. -/
  name : String
  /-- The text of the source path. -/
  source : String
deriving DecidableEq

namespace Template

/-- The member for an architecture. -/
def memberFor (template : Template) (arch : Architecture) : Except NameFault Member :=
  match MemberName.ofText (arch.fill template.name) with
  | .error fault => .error fault
  | .ok name => .ok ⟨name, ⟨arch.fill template.source⟩⟩

end Template

end PackageSeal
