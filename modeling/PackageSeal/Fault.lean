import PackageSeal.Artifact
import PackageSeal.Checksum
import PackageSeal.Disk.Fault
import PackageSeal.Roster
import PackageSeal.Toml.Value

/-!
# What can go wrong

The causes for which sealing, verification and the reading of keys and layouts stop, and the wording
of each. A cause holds what it is about; the wording is made from it in one place.
-/

namespace PackageSeal

/-! ## Layout files -/

/-- What a value of a layout file must be. -/
inductive Expected where
  | text
  | sequence
  | octet
  | architecture
  | template
deriving DecidableEq

namespace Expected

/-- The kind in words. -/
def shown : Expected → String
  | text => "a string"
  | sequence => "a sequence"
  | octet => "u8"
  | architecture => "struct AbiVariant"
  | template => "struct MemberTemplate"

end Expected

/-- Why a text is no layout file. -/
inductive DecodeFault where
  /-- The text is not well-formed TOML. -/
  | malformed
  | unknownField (name : String) (known : List String)
  | missingField (name : String)
  | wrongKind (found : Toml.Value) (expected : Expected)
  | outOfRange (n : Int) (expected : Expected)
  | wordSize (bits : Nat)
  /-- An array that stands for a table with `fields` entries has fewer items. -/
  | tooShort (length : Nat) (expected : Expected) (fields : Nat)

namespace DecodeFault

/-- A field name as it is shown. -/
private def shownField (name : String) : String :=
  "\x60" ++ name ++ "\x60"

/-- The known fields in words. -/
private def shownFields (known : List String) : String :=
  match known with
  | [first, second] => shownField first ++ " or " ++ shownField second
  | _ => "one of " ++ String.intercalate ", " (known.map shownField)

/-- The wording of a fault. -/
def message : DecodeFault → String
  | malformed => "syntax"
  | unknownField name known =>
    "unknown field " ++ shownField name ++ ", expected " ++ shownFields known
  | missingField name => "missing field " ++ shownField name
  | wrongKind found expected => "invalid type: " ++ found.shown ++ ", expected " ++ expected.shown
  | outOfRange n expected =>
    "invalid value: " ++ (Toml.Value.integer n).shown ++ ", expected " ++ expected.shown
  | wordSize bits => s!"unsupported word size {bits}; expected 32 or 64"
  | tooShort length expected fields =>
    let kind := expected.shown
    s!"invalid length {length}, expected {kind} with {fields} elements"

end DecodeFault

/-! ## Layouts -/

/-- Which rule a layout or a package breaks. -/
inductive LayoutFault where
  | memberName (fault : NameFault)
  /-- Two members of a roster have one name. -/
  | claimedTwice (name : MemberName) (first second : Path)
  | outsideRoot (path root : Path)
  | sidecarText (sidecar : Path) (fault : ChecksumFault)
  | artifactOctets (path : Path) (fault : ArtifactFault)
  | artifactNotPlain (name : String)
  | artifactLikeSidecar (name : String)
  | noArchitectures
  | architectureNotSegment (name : String)
  | architectureTwice (name : String)
  | artifactTwice (name : String)
  | placeholderOpen (template : String)
  | placeholderUnknown (placeholder template : String)
  | noMembers
  | sourceOutside (source : Path)
  | sourceOverwritten (source : Path)
  /-- Two members of one architecture have one name. -/
  | declaredTwice (arch : String) (name : MemberName)
deriving DecidableEq

namespace LayoutFault

/-- The placeholders of templates. -/
def knownPlaceholders : List String :=
  [Text.braced "abi", Text.braced "bits", Text.braced "libdir"]

/-- The wording of a broken rule. -/
def reason : LayoutFault → String
  | memberName fault => fault.message
  | claimedTwice name first second =>
    "logical name " ++ name.text ++ " is claimed by both " ++ first.text ++ " and " ++ second.text
  | outsideRoot path root => path.text ++ " is outside the package root " ++ root.text
  | sidecarText sidecar fault => sidecar.text ++ ": " ++ fault.message
  | artifactOctets path fault => path.text ++ ": " ++ fault.message
  | artifactNotPlain name => "artifact name \"" ++ name ++ "\" must be a plain file name"
  | artifactLikeSidecar name => "artifact name " ++ name ++ " collides with digest sidecars"
  | noArchitectures => "no ABI variants declared"
  | architectureNotSegment name => "ABI name \"" ++ name ++ "\" is not a single path segment"
  | architectureTwice name => "ABI " ++ name ++ " is declared twice"
  | artifactTwice name => "artifact name " ++ name ++ " is used twice"
  | placeholderOpen template => "unterminated placeholder in \"" ++ template ++ "\""
  | placeholderUnknown placeholder template =>
    "unknown placeholder " ++ placeholder ++ " in \"" ++ template ++ "\"; expected one of: " ++
      String.intercalate ", " knownPlaceholders
  | noMembers => "runtime subsets must contain at least one member"
  | sourceOutside source => "member source " ++ source.text ++ " must stay inside the package"
  | sourceOverwritten source =>
    "member source " ++ source.text ++ " is overwritten by an artifact of the same name"
  | declaredTwice arch name => arch ++ " declares logical name " ++ name.text ++ " twice"

end LayoutFault

/-! ## Sealing -/

/-- What was done to a file when it failed. -/
inductive Operation where
  | opening
  | reading
  | writing
  | listing
  | framing
deriving DecidableEq

namespace Operation

/-- The operation in words. -/
def shown : Operation → String
  | opening => "open"
  | reading => "read"
  | writing => "write"
  | listing => "read directory"
  | framing => "frame"

end Operation

/-- Why sealing stops. -/
inductive Failure where
  /-- A listed member has no regular file. -/
  | absentMember (name : MemberName) (path : Path)
  | access (operation : Operation) (path : Path) (cause : IoError)
  | brokenRule (fault : LayoutFault)
  /-- The layout file at `path` cannot be used. -/
  | badLayoutFile (path : Path) (fault : DecodeFault)
  /-- The signature scheme refused the stream. -/
  | refusedStream (artifact reason : String)

namespace Failure

/-- The wording of a failure. For a layout file it does not say what is wrong in it. -/
def message : Failure → String
  | absentMember name path =>
    "runtime member " ++ name.text ++ " is missing: expected a regular file at " ++ path.text
  | access operation path cause =>
    "failed to " ++ operation.shown ++ " " ++ path.text ++ ": " ++ cause.message
  | brokenRule fault => "invalid package layout: " ++ fault.reason
  | badLayoutFile path _ => "invalid layout file " ++ path.text
  | refusedStream artifact reason => "signing " ++ artifact ++ " failed: " ++ reason

end Failure

/-! ## Keys -/

/-- Why a package is left unsigned. -/
inductive KeyProblem where
  | missing (path : Path)
  | unreadable (path : Path) (cause : IoError)
  | wrongLength (path : Path) (expected actual : Nat)
  /-- The public key is not that of the private key. -/
  | mismatch (path : Path)
deriving DecidableEq

namespace KeyProblem

/-- The wording of a problem. -/
def message : KeyProblem → String
  | missing path => "no private key found at " ++ path.text
  | unreadable path cause => "cannot read key file " ++ path.text ++ ": " ++ cause.message
  | wrongLength path expected actual =>
    let shown := path.text
    s!"key file {shown} must hold {expected} raw bytes, found {actual}"
  | mismatch path => "public key " ++ path.text ++ " does not match the private key"

end KeyProblem

/-! ## Verification -/

/-- Why a package does not verify. -/
inductive VerifyFailure where
  /-- The signature is not one of the members as they are. -/
  | wrongSignature (artifact : String)
  /-- The embedded key is no key. -/
  | notAKey (artifact : String)
  | otherSigner (artifact : String) (expected found : PublicKey)
  | leftUnsigned (artifact : String)
  | wrongChecksum (path : Path) (recorded actual : Checksum)
  | noSidecar (path : Path)
  /-- The package could not be looked through. -/
  | failed (failure : Failure)

namespace VerifyFailure

/-- The wording of a failure. -/
def message : VerifyFailure → String
  | wrongSignature artifact =>
    "signature in " ++ artifact ++ " does not match the package contents"
  | notAKey artifact => artifact ++ " embeds a malformed public key"
  | otherSigner artifact expected found =>
    artifact ++ " was signed by " ++ Text.hex found.bytes ++
      ", expected " ++ Text.hex expected.bytes
  | leftUnsigned artifact => artifact ++ " is unsigned"
  | wrongChecksum path recorded actual =>
    "digest mismatch for " ++ path.text ++ ": sidecar has " ++ recorded.text ++
      ", content hashes to " ++ actual.text
  | noSidecar path => "missing digest sidecar " ++ path.text
  | failed failure => failure.message

end VerifyFailure

end PackageSeal
