import PackageSeal.Coverage

/-!
# Layouts

A layout says what a package is made of: the name of the signature over the whole tree, the members
that all architectures share, the templates of those that differ, and the architectures.
-/

namespace PackageSeal

/-- What a package is made of. -/
structure Layout where
  /-- The file name of the signature over the whole tree. -/
  treeArtifact : String
  /-- The members of every architecture, named like their paths. -/
  common : List String
  /-- The members that depend on the architecture. -/
  templates : List Template
  architectures : List Architecture
deriving DecidableEq

namespace Layout

open Text (braced)

/-- The layout of a release. -/
def release : Layout where
  treeArtifact := "misaki.sig"
  common := ["module.prop", "sepolicy.rule", "post-fs-data.sh", "service.sh"]
  templates := [
    ⟨"lib/" ++ braced "abi" ++ "/libzygisk.so", braced "libdir" ++ "/libzygisk.so"⟩,
    ⟨"lib/" ++ braced "abi" ++ "/libzygisk_ptrace.so", "bin/zygisk-ptrace" ++ braced "bits"⟩,
    ⟨"bin/" ++ braced "abi" ++ "/zygiskd", "bin/zygiskd" ++ braced "bits"⟩]
  architectures := Architecture.release

/-- The file names of all signatures: those of the architectures in order, then the one over the
whole tree. -/
def outputs (layout : Layout) : List String :=
  layout.architectures.map Architecture.artifact ++ [layout.treeArtifact]

/-- The coverage of the signature over the whole tree. -/
def treeCoverage (layout : Layout) : Coverage :=
  .ofTree layout.treeArtifact

end Layout

end PackageSeal
