import PackageSeal.Log

/-!
# Keys

A key pair is kept outside the package, as a file with the raw seed and perhaps a file with the raw
public key. A public key that is there must be the seed's own. Whatever is wrong with the files is a
`KeyProblem`, which leaves the package unsigned but does not stop sealing.
-/

namespace PackageSeal

/-- Where a key pair is kept. -/
inductive KeyLocation where
  /-- A directory with both files under their usual names. -/
  | directory (dir : Path)
  | files (privateKey : Path) (publicKey : Option Path)
deriving DecidableEq

namespace KeyLocation

/-- The usual name of the seed's file. -/
def privateName : String := "private_key"

/-- The usual name of the public key's file. -/
def publicName : String := "public_key"

/-- The file of the seed. -/
def privatePath : KeyLocation → Path
  | directory dir => dir.join ⟨privateName⟩
  | files privateKey _ => privateKey

/-- The file of the public key, if one is named. -/
def publicPath? : KeyLocation → Option Path
  | directory dir => some (dir.join ⟨publicName⟩)
  | files _ publicKey => publicKey

/-- The octets of a key file, which must be exactly so many. -/
def readKey (disk : Disk) (path : Path) (size : Nat) : Except KeyProblem (Octets size) :=
  match disk.read path with
  | .error .notFound => .error (.missing path)
  | .error cause => .error (.unreadable path cause)
  | .ok content =>
    match Octets.ofBytes? size content with
    | some key => .ok key
    | none => .error (.wrongLength path size content.length)

/-- Tell of a public key beside an explicit seed, which is not looked at. -/
def warnOfSibling (disk : Disk) (key : Path) : Logged KeyProblem Unit :=
  let sibling := key.sibling publicName
  if sibling.components ≠ key.components ∧ disk.isFile sibling then
    Logged.tell (.siblingIgnored sibling key)
  else pure ()

/-- The seed, if its files can be used. -/
def load (scheme : SignatureScheme) (location : KeyLocation) (disk : Disk) :
    Logged KeyProblem Seed := do
  let seed ← Logged.ofExcept (readKey disk location.privatePath 32)
  match location.publicPath? with
  | some path =>
    if disk.isThere path then
      let stored ← Logged.ofExcept (readKey disk path 32)
      if stored = scheme.publicKey seed then pure seed else .fail (.mismatch path)
    else pure seed
  | none => do
    warnOfSibling disk location.privatePath
    pure seed

end KeyLocation

namespace Seed

/-- A key pair in words: the public half only. -/
def shown (scheme : SignatureScheme) (seed : Seed) : String :=
  "SigningKeyPair " ++ Text.braced (" public_key: " ++
    Text.quoted (Text.hex (scheme.publicKey seed).bytes) ++ ", .. ")

end Seed

end PackageSeal
