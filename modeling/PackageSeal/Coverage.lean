import PackageSeal.Architecture

/-!
# Coverage

What one signature covers: the whole tree, or the members listed for one architecture. Either way
the signature is a file of its own at the root of the package.
-/

namespace PackageSeal

/-- How the members under a signature are found. -/
inductive Scope where
  /-- Every regular file of the tree but the signature itself. -/
  | tree
  /-- Listed members, their sources relative to the package root. -/
  | listed (arch : Architecture) (members : List Member)
deriving DecidableEq

/-- A signature to make or check, and what it covers. -/
structure Coverage where
  /-- The file name of the signature. -/
  artifact : String
  scope : Scope
deriving DecidableEq

namespace Coverage

/-- The coverage of the whole tree. -/
def ofTree (artifact : String) : Coverage :=
  ⟨artifact, .tree⟩

/-- The coverage of the members of an architecture. -/
def ofArchitecture (arch : Architecture) (members : List Member) : Coverage :=
  ⟨arch.artifact, .listed arch members⟩

/-- The path of the signature in the package at `root`. -/
def artifactPath (coverage : Coverage) (root : Path) : Path :=
  root.join ⟨coverage.artifact⟩

/-- The coverage in words. -/
def shown (coverage : Coverage) : String :=
  match coverage.scope with
  | .tree => coverage.artifact ++ " (whole tree)"
  | .listed arch _ => coverage.artifact ++ " (" ++ arch.shown ++ ")"

end Coverage

end PackageSeal
