import PackageSeal.SignatureScheme

/-!
# Artifacts

A signature file is a placeholder without content, or a seal: the signature followed by the public
key that made it. `parse_eq_ok_iff` says that reading accepts exactly what writing produces.
-/

namespace PackageSeal

/-- A signature and the public key that made it. -/
@[ext] structure Seal where
  signature : Signature
  key : PublicKey
deriving DecidableEq

/-- The content of a signature file. -/
inductive Artifact where
  | placeholder
  | signed (mark : Seal)
deriving DecidableEq

/-- Why octets are no artifact. -/
structure ArtifactFault where
  /-- The number of octets found. -/
  length : Nat
deriving DecidableEq

namespace ArtifactFault

/-- The wording of a fault. -/
def message (fault : ArtifactFault) : String :=
  let found := fault.length
  s!"signature artifact must be 0 or 96 bytes, found {found}"

end ArtifactFault

namespace Seal

/-- The octets of a seal. -/
def octets (mark : Seal) : Bytes :=
  mark.signature.bytes ++ mark.key.bytes

@[simp] theorem length_octets (mark : Seal) : mark.octets.length = 96 := by
  simp [octets, mark.signature.length_eq, mark.key.length_eq]

end Seal

namespace Artifact

/-- The octets of an artifact. -/
def octets : Artifact → Bytes
  | placeholder => []
  | signed mark => mark.octets

/-- The artifact whose octets are given. -/
def parse (bytes : Bytes) : Except ArtifactFault Artifact :=
  if bytes = [] then .ok placeholder
  else
    match Octets.ofBytes? 64 (bytes.take 64), Octets.ofBytes? 32 (bytes.drop 64) with
    | some signature, some key => .ok (signed ⟨signature, key⟩)
    | _, _ => .error ⟨bytes.length⟩

/-- Reading accepts exactly what writing produces. -/
theorem parse_eq_ok_iff {bytes : Bytes} {artifact : Artifact} :
    parse bytes = .ok artifact ↔ artifact.octets = bytes := by
  constructor
  · intro h
    unfold parse at h
    split at h
    · next hb => rw [Except.ok.injEq] at h; subst h; exact hb.symm
    · split at h
      · next signature key hs hk =>
        rw [Except.ok.injEq] at h
        subst h
        rw [Octets.ofBytes?_eq_some_iff] at hs hk
        rw [octets, Seal.octets, hs, hk, List.take_append_drop]
      · cases h
  · rintro rfl
    cases artifact with
    | placeholder => rfl
    | signed mark =>
      have hne : (signed mark).octets ≠ [] := by
        intro h
        have := congrArg List.length h
        simp [octets] at this
      rw [parse, if_neg hne]
      simp only [octets, Seal.octets]
      rw [List.take_left' mark.signature.length_eq, List.drop_left' mark.signature.length_eq,
        Octets.ofBytes?_bytes, Octets.ofBytes?_bytes]

end Artifact

end PackageSeal
