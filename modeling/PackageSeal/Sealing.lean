import PackageSeal.Coverage.Members
import PackageSeal.Frame
import PackageSeal.KeyLocation
import PackageSeal.Layout.Validity

/-!
# Sealing

Sealing a package writes, in this order: a signature for every architecture, a sidecar for every
file, a signature over the whole tree as it is by then, and the sidecar of that. Nothing is written
unless the layout keeps its rules, and nothing is signed unless all listed members are there.
Without a usable key the same files are written, the signatures as placeholders.
-/

namespace PackageSeal.Sealing

/-- Whether signatures were made. -/
inductive Outcome where
  | signed (key : PublicKey)
  | unsigned (problem : KeyProblem)
deriving DecidableEq

/-- What sealing a package did. -/
structure Report where
  outcome : Outcome
  /-- The signature files in the order in which they were written. -/
  artifacts : List Path
  /-- The number of sidecars written. -/
  sidecars : Nat
deriving DecidableEq

/-- Whether signatures were made. -/
def Report.hasSignatures (report : Report) : Bool :=
  match report.outcome with
  | .signed _ => true
  | .unsigned _ => false

variable (scheme : SignatureScheme)

/-- The seal of a roster: its stream is read from the disk once for each pass of the scheme. -/
def signRoster (disk : Disk) (seed : Seed) (roster : Roster) : Logged Failure Seal := do
  let sink := Sink.ofAbsorb scheme.absorb
  let nonce ← Frame.sendRoster disk sink roster (scheme.nonceStart seed)
  let challenge ← Frame.sendRoster disk sink roster (scheme.challengeStart seed nonce)
  pure ⟨scheme.finish seed nonce challenge, scheme.publicKey seed⟩

/-- Write an artifact to a file. -/
def writeArtifact (path : Path) (artifact : Artifact) : Action Failure Unit :=
  Action.change fun disk =>
    (disk.write path artifact.octets).mapError (Failure.access .writing path)

/-- Sign a roster and write the signature. -/
def putSigned (root : Path) (seed : Seed) (coverage : Coverage) (roster : Roster) :
    Action Failure Path := do
  let mark ← Action.look fun disk => signRoster scheme disk seed roster
  writeArtifact (coverage.artifactPath root) (.signed mark)
  Action.tell (.sealed coverage roster.size)
  pure (coverage.artifactPath root)

/-- Write the placeholder of a signature. -/
def putPlaceholder (root : Path) (coverage : Coverage) : Action Failure Path := do
  writeArtifact (coverage.artifactPath root) .placeholder
  Action.tell (.placeholderWritten coverage)
  pure (coverage.artifactPath root)

/-- The members of a coverage in the package as it is. -/
def membersNow (root : Path) (coverage : Coverage) : Action Failure Roster :=
  Action.look fun disk => Logged.ofExcept (coverage.members disk root)

/-- Write the signatures of the architectures: all members are found before the first is written. -/
def putArchitectures (root : Path) (seed? : Option Seed) (targets : List Coverage) :
    Action Failure (List Path) :=
  match seed? with
  | some seed => do
    let rosters ← targets.mapM fun coverage => do
      let roster ← membersNow root coverage
      pure (coverage, roster)
    rosters.mapM fun found => putSigned scheme root seed found.1 found.2
  | none => targets.mapM (putPlaceholder root)

/-- Write the signature over the whole tree. -/
def putTree (root : Path) (seed? : Option Seed) (coverage : Coverage) :
    Action Failure Path :=
  match seed? with
  | some seed => do
    let roster ← membersNow root coverage
    putSigned scheme root seed coverage roster
  | none => putPlaceholder root coverage

/-- Write all signatures and sidecars. -/
def writeAll (root : Path) (layout : Layout) (seed? : Option Seed) :
    Action Failure (List Path × Nat) := do
  let targets ← Action.ofExcept (layout.architectureCoverages.mapError .brokenRule)
  let runtime ← putArchitectures scheme root seed? targets
  let sidecars ← Sidecar.writeAll root [layout.treeArtifact]
  let last ← putTree scheme root seed? layout.treeCoverage
  let _ ← Sidecar.write last
  pure (runtime ++ [last], sidecars + 1)

/-- Seal the package at `root` with a seed, or leave it unsigned for want of one. -/
def withKey (root : Path) (layout : Layout) (key : Except KeyProblem Seed) :
    Action Failure Report := do
  Action.ofExcept (layout.check.mapError .brokenRule)
  match key with
  | .ok seed => do
    let (artifacts, sidecars) ← writeAll scheme root layout (some seed)
    pure ⟨.signed (scheme.publicKey seed), artifacts, sidecars⟩
  | .error problem => do
    Action.tell (.keyUnavailable problem)
    let (artifacts, sidecars) ← writeAll scheme root layout none
    pure ⟨.unsigned problem, artifacts, sidecars⟩

/-- What loading a key comes to; loading itself does not fail. -/
def loadKey (location : KeyLocation) : Action Failure (Except KeyProblem Seed) :=
  Action.look fun disk =>
    let loaded := location.load scheme disk
    ⟨loaded.log, .ok loaded.outcome⟩

/-- Seal the package at `root` with the key pair kept at a location. -/
def withLocation (root : Path) (layout : Layout) (location : KeyLocation) :
    Action Failure Report := do
  let key ← loadKey scheme location
  withKey scheme root layout key

end PackageSeal.Sealing
