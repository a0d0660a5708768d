import PackageSeal.Proofs.Disk.Emptied
import PackageSeal.Proofs.Disk.Flat
import PackageSeal.Proofs.Sealing.Steps
import PackageSeal.Proofs.Verification.Signatures

/-!
# The form of artifacts

The file of a signature is empty, or it holds a signature of 64 octets and a key of 32, whatever
octets these are made of. So the length alone tells whether octets are an artifact
(`exists_parse_iff`); they are one in one way only (`parse_eq_ok_iff`), and of others nothing but
their length is told (`parse_eq_error_iff`). A file says the same as the octets that were written to
it last, because nothing is left of what it held before (`readArtifact_of_write`).
-/

namespace PackageSeal.Artifact

open PackageSeal.Sealing (writeArtifact ends_writeArtifact)
open PackageSeal.Verification (readArtifact readArtifact_eq_ok_iff)

variable {bytes : Bytes} {disk after : Disk} {path : Path}

/-! ## Octets -/

/-- An artifact has no octets, or those of a signature and a key. -/
theorem length_octets (artifact : Artifact) :
    artifact.octets.length = 0 ∨ artifact.octets.length = 96 := by
  cases artifact with
  | placeholder => exact .inl rfl
  | signed mark => exact .inr mark.length_octets

/-- **Octets are an artifact** where their length allows it. -/
theorem exists_parse_iff :
    (∃ found, parse bytes = .ok found) ↔ bytes.length = 0 ∨ bytes.length = 96 := by
  simp only [parse_eq_ok_iff]
  constructor
  · rintro ⟨found, rfl⟩
    exact found.length_octets
  · rintro (hlength | hlength)
    · exact ⟨.placeholder, (List.length_eq_zero_iff.mp hlength).symm⟩
    · have hsignature : (bytes.take 64).length = 64 := by simp [hlength]
      have hkey : (bytes.drop 64).length = 32 := by simp [hlength]
      exact ⟨.signed ⟨⟨_, hsignature⟩, ⟨_, hkey⟩⟩, List.take_append_drop 64 bytes⟩

/-- **Octets of any other length** are refused for their length. -/
theorem parse_eq_error_iff {fault : ArtifactFault} : parse bytes = .error fault ↔
    bytes.length ≠ 0 ∧ bytes.length ≠ 96 ∧ fault = ⟨bytes.length⟩ := by
  have hlength : ∀ {fault}, parse bytes = .error fault → fault = ⟨bytes.length⟩ := by
    intro fault h
    unfold parse at h
    split at h
    · cases h
    · split at h
      · cases h
      · exact (Except.error.inj h).symm
  rw [← and_assoc, ← not_or, ← exists_parse_iff]
  cases hparse : parse bytes with
  | ok found => simp
  | error cause => simp [hlength hparse, eq_comm]

/-! ## Files -/

/-- What was written to a file is read as what its octets are. -/
theorem readArtifact_of_write (hw : disk.WellFormed) (h : disk.write path bytes = .ok after) :
    readArtifact after path =
      (parse bytes).mapError fun fault => .brokenRule (.artifactOctets path fault) := by
  rw [readArtifact, Disk.read_of_write hw h]

/-- **Octets and artifacts stand for each other.** Octets are read as an artifact exactly if there
are none or 96 of them, and they are then those of the artifact; those of every artifact are read as
it, so no octets of a signature or a key are refused or changed; and any other number of octets is
refused and told. The same holds of a file that can be written, whatever the disk held there: an
artifact that is written to it is what is then read from it, and other octets are what they are. -/
theorem parse_octets_file (bytes : Bytes) (artifact : Artifact) :
    ((∃ found, parse bytes = .ok found) ↔ bytes.length = 0 ∨ bytes.length = 96) ∧
    (∀ found, parse bytes = .ok found → found.octets = bytes) ∧
    parse artifact.octets = .ok artifact ∧
    (∀ fault, parse bytes = .error fault ↔
      bytes.length ≠ 0 ∧ bytes.length ≠ 96 ∧ fault = ⟨bytes.length⟩) ∧
    ∀ (disk : Disk) (path : Path) (old : Bytes) (first : Disk), disk.WellFormed →
      disk.write path old = .ok first →
      (∃ after, (writeArtifact path artifact).Ends disk () after ∧
        readArtifact after path = .ok artifact) ∧
      ∃ after, disk.write path bytes = .ok after ∧
        ((∃ found, readArtifact after path = .ok found) ↔ bytes.length = 0 ∨ bytes.length = 96) ∧
        (∀ found, readArtifact after path = .ok found → found.octets = bytes) ∧
        (bytes.length ≠ 0 → bytes.length ≠ 96 → readArtifact after path =
          .error (.brokenRule (.artifactOctets path ⟨bytes.length⟩))) := by
  refine ⟨exists_parse_iff, fun found h => parse_eq_ok_iff.mp h, parse_eq_ok_iff.mpr rfl,
    fun fault => parse_eq_error_iff, fun disk path old first hw hold => ⟨?_, ?_⟩⟩
  · obtain ⟨after, hwrite, -⟩ := (Disk.SameTree.refl disk).write hold artifact.octets
    exact ⟨after, ends_writeArtifact.mpr hwrite,
      readArtifact_eq_ok_iff.mpr (Disk.read_of_write hw hwrite)⟩
  · obtain ⟨after, hwrite, -⟩ := (Disk.SameTree.refl disk).write hold bytes
    refine ⟨after, hwrite, ?_⟩
    rw [readArtifact_of_write hw hwrite]
    simp only [mapError_eq_ok_iff]
    refine ⟨exists_parse_iff, fun found h => parse_eq_ok_iff.mp h, fun hzero hfull => ?_⟩
    rw [parse_eq_error_iff.mpr ⟨hzero, hfull, rfl⟩]
    rfl

/-- A seal of octets that are all the largest, which are canonical for no number. -/
def stray : Seal :=
  ⟨⟨List.replicate 64 255, List.length_replicate⟩, ⟨List.replicate 32 255, List.length_replicate⟩⟩

/-- A file with more octets than an artifact has. -/
def longFile : Disk :=
  .flat [("s", List.replicate 200 7)]

theorem longFile_wellFormed : longFile.WellFormed :=
  Disk.flat_wellFormed ["s"] rfl (by decide) (by decide)

/-- Octets that are not canonical are read as they were written over a longer file, and 95 are
refused. -/
theorem parse_octets_file_stray :
    parse (signed stray).octets = .ok (signed stray) ∧
      parse (List.replicate 95 0) = .error ⟨95⟩ ∧
      (∃ after, (writeArtifact ⟨"s"⟩ (signed stray)).Ends longFile () after ∧
        readArtifact after ⟨"s"⟩ = .ok (signed stray)) ∧
      ∃ after, longFile.write ⟨"s"⟩ (List.replicate 95 0) = .ok after ∧
        readArtifact after ⟨"s"⟩ = .error (.brokenRule (.artifactOctets ⟨"s"⟩ ⟨95⟩)) := by
  obtain ⟨-, -, hparse, hfault, hfile⟩ := parse_octets_file (List.replicate 95 0) (signed stray)
  obtain ⟨hwritten, after, hafter, -, -, hrefused⟩ :=
    hfile longFile ⟨"s"⟩ [] _ longFile_wellFormed rfl
  exact ⟨hparse, (hfault _).mpr ⟨by decide, by decide, rfl⟩, hwritten, after, hafter,
    hrefused (by decide) (by decide)⟩

end PackageSeal.Artifact
