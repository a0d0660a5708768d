import PackageSeal.CommandLine
import PackageSeal.Layout.Reader
import PackageSeal.Summary

/-!
# The program

A run of the command line on a disk: seal or verify a package and say what came of it. What goes
wrong is said on one line, and the run ends with the exit code 1; arguments that ask for no run end
with 2, and help and version with 0.
-/

namespace PackageSeal.Program

open CommandLine

/-- What a run leaves besides the disk. -/
structure Output where
  exit : Nat
  stdout : String
  stderr : List String
deriving DecidableEq

/-- Why a command comes to nothing. -/
inductive CommandFailure where
  | noPackage (path : Path)
  | publicKeyLength (path : Path)
  | sealing (failure : Failure)
  | verification (failure : VerifyFailure)

namespace CommandFailure

/-- The wording of a failure. -/
def message : CommandFailure → String
  | noPackage path => "package directory not found: " ++ path.text
  | publicKeyLength path => "public key " ++ path.text ++ " must hold 32 raw bytes"
  | sealing failure => failure.message
  | verification failure => failure.message

end CommandFailure

/-- What `--version` prints. -/
def version : String := "modseal 0.1.0"

/-- The package must be a directory. -/
def requireDirectory (disk : Disk) (path : Path) : Except CommandFailure Unit :=
  if disk.isDir path then .ok () else .error (.noPackage path)

/-- The layout of a file, or that of a release. -/
def chooseLayout (disk : Disk) : Option Path → Except CommandFailure Layout
  | some file => (Layout.load disk file).mapError .sealing
  | none => .ok .release

/-- The public key in a file, if one is named. -/
def loadPinned (disk : Disk) : Option Path → Except CommandFailure (Option PublicKey)
  | none => .ok none
  | some file =>
    match disk.read file with
    | .error cause => .error (.sealing (.access .reading file cause))
    | .ok content =>
      match Octets.ofBytes? 32 content with
      | some key => .ok (some key)
      | none => .error (.publicKeyLength file)

/-- Seal a package; the lines to print. An unsigned package is mentioned even to those who asked for
silence. -/
def sealFor (scheme : SignatureScheme) (arguments : SealArguments) :
    Action CommandFailure (List String) := do
  let layout ← Action.look fun disk => Logged.ofExcept do
    requireDirectory disk arguments.package
    chooseLayout disk arguments.layout
  let report ← (Sealing.withLocation scheme arguments.package layout arguments.keyLocation).mapError
    .sealing
  if arguments.quiet then
    match report.outcome with
    | .unsigned problem => pure ["warning: package left unsigned: " ++ problem.message]
    | .signed _ => pure []
  else pure report.summary

/-- Verify a package; the lines to print. -/
def verifyFor (scheme : SignatureScheme) (disk : Disk) (arguments : VerifyArguments) :
    Logged CommandFailure (List String) := do
  Logged.ofExcept (requireDirectory disk arguments.package)
  let layout ← Logged.ofExcept (chooseLayout disk arguments.layout)
  let pinned ← Logged.ofExcept (loadPinned disk arguments.publicKey)
  let report ← (Verification.checkPackage scheme disk arguments.package layout pinned).mapError
    .verification
  pure (if arguments.quiet then [] else report.summary arguments.package)

/-- Run a command. -/
def runCommand (scheme : SignatureScheme) : Command → Action CommandFailure (List String)
  | .seal arguments => sealFor scheme arguments
  | .verify arguments => Action.look fun disk => verifyFor scheme disk arguments

/-- How the program is called. -/
def usage : List String := [
  "usage: modseal seal DIR [--key-dir DIR] [--private-key FILE] [--layout FILE] [--quiet]",
  "       modseal verify DIR [--layout FILE] [--public-key FILE] [--quiet]"]

/-- What arguments that ask for no run come to. -/
def answer : ArgumentFault → Output
  | .versionAsked => ⟨0, version ++ "\n", []⟩
  | .helpAsked => ⟨0, String.join (usage.map fun line => line ++ "\n"), []⟩
  | _ => ⟨2, "", usage⟩

/-- Run a command line on a disk. -/
def run (scheme : SignatureScheme) (key : Option String) (texts : List String) (disk : Disk) :
    Disk × Output :=
  match parse key texts with
  | .error fault => (disk, answer fault)
  | .ok command =>
    let finished := runCommand scheme command disk
    match finished.outcome with
    | .ok lines => (finished.disk, ⟨0, "", lines⟩)
    | .error failure => (finished.disk, ⟨1, "", ["error: " ++ failure.message]⟩)

end PackageSeal.Program
