import PackageSeal.Coverage.Members
import PackageSeal.Frame
import PackageSeal.Layout.Validity

/-!
# Verification

A package verifies if every signature is one over the members as they are, or none has been made,
and every file has the checksum that its sidecar records. The first thing found wrong is reported,
and nothing is changed.
-/

namespace PackageSeal

/-- Whether a signature was verified. -/
def Status.isVerified : Status → Bool
  | verified _ => true
  | unsigned => false

namespace Verification

/-- What verifying a package found. -/
structure Report where
  /-- The signatures by name, each with what it is, the one over the whole tree last. -/
  targets : List (String × Status)
  /-- The number of sidecars checked. -/
  sidecars : Nat
deriving DecidableEq

/-- Whether every signature was verified. -/
def Report.allVerified (report : Report) : Bool :=
  report.targets.all fun target => target.2.isVerified

variable (scheme : SignatureScheme)

/-- The artifact at a path. -/
def readArtifact (disk : Disk) (path : Path) : Except Failure Artifact :=
  match disk.read path with
  | .error cause => .error (.access .reading path cause)
  | .ok content => (Artifact.parse content).mapError fun fault =>
      .brokenRule (.artifactOctets path fault)

/-- Whether a seal is by the pinned key, if one is pinned, and its key is a key. -/
def checkKey (artifact : String) (pinned : Option PublicKey) (mark : Seal) :
    Except VerifyFailure Unit := do
  if let some expected := pinned then
    if mark.key ≠ expected then throw (.otherSigner artifact expected mark.key)
  if !scheme.acceptsKey mark.key then throw (.notAKey artifact)

/-- What the signature of a coverage is. -/
def checkCoverage (disk : Disk) (root : Path) (coverage : Coverage) (pinned : Option PublicKey) :
    Logged VerifyFailure Status := do
  let artifact ← Logged.ofExcept
    ((readArtifact disk (coverage.artifactPath root)).mapError .failed)
  match artifact with
  | .placeholder =>
    if pinned.isSome then .fail (.leftUnsigned coverage.artifact) else pure .unsigned
  | .signed mark => do
    Logged.ofExcept (checkKey scheme coverage.artifact pinned mark)
    let roster ← Logged.ofExcept ((coverage.members disk root).mapError .failed)
    let message ← (Frame.stream disk roster).mapError .failed
    if scheme.verifies mark.key message mark.signature then pure (.verified mark.key)
    else .fail (.wrongSignature coverage.artifact)

/-- Check the sidecar of a file. -/
def checkSidecar (disk : Disk) (path : Path) : Except VerifyFailure Unit := do
  if !disk.isFile (Sidecar.pathFor path) then throw (.noSidecar (Sidecar.pathFor path))
  let recorded ← (Sidecar.recorded disk path).mapError .failed
  let actual ← (Sidecar.checksumOf disk path).mapError .failed
  if recorded ≠ actual then throw (.wrongChecksum path recorded actual)

/-- Check the sidecars of all files below a directory, and count them. -/
def checkSidecars (disk : Disk) (root : Path) : Except VerifyFailure Nat := do
  let files ← (Sidecar.subjects disk root []).mapError .failed
  files.forM (checkSidecar disk)
  pure files.length

/-- Signatures are all made or none is: the first that is not made is reported where another is. -/
def checkMix (targets : List (String × Status)) : Except VerifyFailure Unit :=
  if targets.any fun target => target.2.isVerified then
    match targets.find? fun target => !target.2.isVerified with
    | some target => .error (.leftUnsigned target.1)
    | none => .ok ()
  else .ok ()

/-- Verify the package at `root`, against a pinned key if there is one. -/
def checkPackage (disk : Disk) (root : Path) (layout : Layout) (pinned : Option PublicKey) :
    Logged VerifyFailure Report := do
  Logged.ofExcept (layout.check.mapError fun fault => .failed (.brokenRule fault))
  let runtime ← Logged.ofExcept
    (layout.architectureCoverages.mapError fun fault => .failed (.brokenRule fault))
  let targets ← (runtime ++ [layout.treeCoverage]).mapM fun coverage => do
    let status ← checkCoverage scheme disk root coverage pinned
    Logged.tell (.checked coverage status)
    pure (coverage.artifact, status)
  Logged.ofExcept (checkMix targets)
  let sidecars ← Logged.ofExcept (checkSidecars disk root)
  pure ⟨targets, sidecars⟩

end Verification

end PackageSeal
