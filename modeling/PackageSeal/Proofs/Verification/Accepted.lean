import PackageSeal.Proofs.Schemes
import PackageSeal.Proofs.Sealing.Sealed
import PackageSeal.Proofs.Verification.Package

/-!
# Which packages are accepted

A package is accepted exactly where the layout keeps its rules, every file has its checksum beside
it, and either all signatures are there and right or all are empty files and no key is asked for
(`accepted_iff`). A signature is right by what the disk holds, not by how it is looked through: the
key is one, the pinned one if there is one, and the signature is over the frames of what is covered
(`SealedBy`). The first signature that fails by itself decides how a refusal is worded.
-/

namespace PackageSeal.Verification

variable {scheme : SignatureScheme} {disk : Disk} {root : Path} {layout : Layout}
  {pinned : Option PublicKey} {coverages : List Coverage}

/-- The file of the signature holds a signature and after it a key, which is the pinned one if there
is one; the signature is over the frames of what is covered, in strictly ascending order of the
names. -/
def SealedBy (scheme : SignatureScheme) (disk : Disk) (root : Path) (pinned : Option PublicKey)
    (coverage : Coverage) (key : PublicKey) : Prop :=
  ∃ (signature : Signature) (entries held : List (MemberName × Bytes)),
    disk.read (coverage.artifactPath root) = .ok (signature.bytes ++ key.bytes) ∧
    (∀ expected, pinned = some expected → key = expected) ∧ scheme.acceptsKey key = true ∧
    coverage.Covers disk root entries ∧ held.Perm entries ∧
    (held.Pairwise fun a b => a.1 < b.1) ∧
    scheme.verifies key (Frame.canonical held) signature = true

theorem checkCoverage_eq_verified_iff_sealedBy (hw : disk.WellFormed) {coverage : Coverage}
    {key : PublicKey} :
    (checkCoverage scheme disk root coverage pinned).outcome = .ok (.verified key) ↔
      SealedBy scheme disk root pinned coverage key := by
  rw [checkCoverage_eq_verified_iff]
  constructor
  · rintro ⟨mark, held, hread, hpinned, haccepts, hholds, hverifies, rfl⟩
    obtain ⟨hascending, entries, hcovers, hperm⟩ := (Coverage.holds_iff_covers hw).mp hholds
    exact ⟨mark.signature, entries, held, hread, hpinned, haccepts, hcovers, hperm, hascending,
      hverifies⟩
  · rintro ⟨signature, entries, held, hread, hpinned, haccepts, hcovers, hperm, hascending,
      hverifies⟩
    have hholds := (Coverage.holds_iff_covers hw).mpr ⟨hascending, entries, hcovers, hperm⟩
    exact ⟨⟨signature, key⟩, held, hread, hpinned, haccepts, hholds, hverifies, rfl⟩

/-! ## All signatures at once -/

/-- What the signatures of a package are found to be if all are there and right: each verified under
its key; or if all are empty and no key is pinned: each unsigned. -/
def Judged (scheme : SignatureScheme) (disk : Disk) (root : Path) (pinned : Option PublicKey)
    (coverages : List Coverage) (targets : List (String × Status)) : Prop :=
  List.Forall₂ (fun coverage target => ∃ key, SealedBy scheme disk root pinned coverage key ∧
      target = (coverage.artifact, .verified key)) coverages targets ∨
    (pinned = none ∧ (∀ coverage ∈ coverages, disk.read (coverage.artifactPath root) = .ok []) ∧
      targets = coverages.map fun coverage => (coverage.artifact, .unsigned))

variable {targets : List (String × Status)}

/-- Signatures that are all found verified are each there and right. -/
theorem all_verified_iff (hw : disk.WellFormed) :
    List.Forall₂ (fun coverage target =>
        (checkCoverage scheme disk root coverage pinned).outcome = .ok target.2 ∧
          coverage.artifact = target.1) coverages targets ∧
      (∀ target ∈ targets, target.2.isVerified = true) ↔
    List.Forall₂ (fun coverage target => ∃ key, SealedBy scheme disk root pinned coverage key ∧
      target = (coverage.artifact, .verified key)) coverages targets := by
  rw [forall₂_and_right]
  refine forall₂_congr_of_mem fun coverage _ target => ?_
  obtain ⟨artifact, status⟩ := target
  constructor
  · rintro ⟨⟨houtcome, rfl⟩, hverified⟩
    cases status with
    | unsigned => cases hverified
    | verified key => exact ⟨key, (checkCoverage_eq_verified_iff_sealedBy hw).mp houtcome, rfl⟩
  · rintro ⟨key, hkey, heq⟩
    obtain ⟨rfl, rfl⟩ := Prod.mk.inj heq
    exact ⟨⟨(checkCoverage_eq_verified_iff_sealedBy hw).mpr hkey, rfl⟩, rfl⟩

/-- Signatures that are all found unsigned are empty files, and no key is asked for. -/
theorem all_unsigned_iff :
    List.Forall₂ (fun coverage target =>
        (checkCoverage scheme disk root coverage pinned).outcome = .ok target.2 ∧
          coverage.artifact = target.1) coverages targets ∧
      (∀ target ∈ targets, target.2 = .unsigned) ↔
    (∀ coverage ∈ coverages, pinned = none ∧ disk.read (coverage.artifactPath root) = .ok []) ∧
      targets = coverages.map fun coverage => (coverage.artifact, .unsigned) := by
  have hone : ∀ coverage ∈ coverages, ∀ target : String × Status,
      (((checkCoverage scheme disk root coverage pinned).outcome = .ok target.2 ∧
        coverage.artifact = target.1) ∧ target.2 = .unsigned) ↔
      (pinned = none ∧ disk.read (coverage.artifactPath root) = .ok []) ∧
        (coverage.artifact, .unsigned) = target := by
    rintro coverage - ⟨artifact, status⟩
    constructor
    · rintro ⟨⟨houtcome, rfl⟩, rfl⟩
      exact ⟨checkCoverage_eq_unsigned_iff.mp houtcome, rfl⟩
    · rintro ⟨hempty, heq⟩
      obtain ⟨rfl, rfl⟩ := Prod.mk.inj heq
      exact ⟨⟨checkCoverage_eq_unsigned_iff.mpr hempty, rfl⟩, rfl⟩
  rw [forall₂_and_right, forall₂_congr_of_mem hone, List.forall₂_and_left,
    ← List.forall₂_map_left_iff, List.forall₂_eq_eq_eq, eq_comm (a := targets)]

/-- Signatures are each found to be something, and are not mixed, exactly where all are verified or
all are unsigned. -/
theorem judged_iff (hw : disk.WellFormed) (hne : coverages ≠ []) :
    List.Forall₂ (fun coverage target =>
        (checkCoverage scheme disk root coverage pinned).outcome = .ok target.2 ∧
          coverage.artifact = target.1) coverages targets ∧ checkMix targets = .ok () ↔
      Judged scheme disk root pinned coverages targets := by
  rw [checkMix_eq_ok_iff, and_or_left, all_verified_iff hw, all_unsigned_iff, Judged, ← and_assoc]
  -- There is a signature that tells whether a key is asked for.
  have hpinned : (∀ coverage ∈ coverages, pinned = none ∧
      disk.read (coverage.artifactPath root) = .ok []) ↔
      pinned = none ∧ ∀ coverage ∈ coverages, disk.read (coverage.artifactPath root) = .ok [] := by
    obtain ⟨coverage, hcoverage⟩ := List.exists_mem_of_ne_nil coverages hne
    constructor
    · intro hall
      exact ⟨(hall coverage hcoverage).1, fun other hother => (hall other hother).2⟩
    · rintro ⟨hnone, hempty⟩ other hother
      exact ⟨hnone, hempty other hother⟩
  rw [hpinned]

/-! ## The whole -/

/-- **Which packages are accepted**, and what is found in them: the layout keeps its rules, the
signatures are all verified or all unsigned, in the order of the layout and the one over the tree
last, and the sidecars are right. A signature that fails by itself is reported if those before it do
not. -/
theorem accepted_iff (hw : disk.WellFormed) :
    (∀ report, (checkPackage scheme disk root layout pinned).outcome = .ok report ↔
      layout.check = .ok () ∧ ∃ coverages, layout.architectureCoverages = .ok coverages ∧
        Judged scheme disk root pinned (coverages ++ [layout.treeCoverage]) report.targets ∧
        Sidecar.Intact disk root report.sidecars) ∧
    ∀ coverages front coverage rest failure, layout.check = .ok () →
      layout.architectureCoverages = .ok coverages →
      coverages ++ [layout.treeCoverage] = front ++ coverage :: rest →
      (∀ other ∈ front, ∃ status,
        (checkCoverage scheme disk root other pinned).outcome = .ok status) →
      (checkCoverage scheme disk root coverage pinned).outcome = .error failure →
      (checkPackage scheme disk root layout pinned).outcome = .error failure := by
  constructor
  · intro report
    rw [checkPackage_eq_ok_iff]
    refine and_congr_right fun _ => exists_congr fun coverages => and_congr_right fun _ => ?_
    rw [← and_assoc, judged_iff hw (List.append_ne_nil_of_right_ne_nil _ (List.cons_ne_nil _ _)),
      checkSidecars_iff_intact hw]
  · intro coverages front coverage rest failure hcheck hcoverages hsplit hfront hfailure
    exact checkPackage_eq_error hcheck hcoverages hsplit hfront hfailure

/-- The small package without signatures. -/
def smallUnsigned : Disk :=
  Sealing.smallDisk (Sidecar.digest [1]) [] (Sidecar.digest []) [] (Sidecar.digest [])

theorem smallUnsigned_intact : Sidecar.Intact smallUnsigned ⟨"."⟩ 3 := by
  have hw : smallUnsigned.WellFormed := Sealing.smallDisk_wellFormed _ _ _ _ _
  rw [← checkSidecars_iff_intact hw, checkSidecars_eq_ok_iff]
  have hrecorded : ∀ aSum sSum tSum,
      (Sealing.smallDisk aSum [] sSum [] tSum).read ⟨"./a.sha256"⟩ = .ok aSum ∧
      (Sealing.smallDisk aSum [] sSum [] tSum).read ⟨"./s.sha256"⟩ = .ok sSum ∧
      (Sealing.smallDisk aSum [] sSum [] tSum).read ⟨"./t.sha256"⟩ = .ok tSum :=
    fun _ _ _ => ⟨rfl, rfl, rfl⟩
  obtain ⟨ha, hs, ht⟩ := hrecorded (Sidecar.digest [1]) (Sidecar.digest []) (Sidecar.digest [])
  refine ⟨[⟨"./a"⟩, ⟨"./s"⟩, ⟨"./t"⟩], Sidecar.subjects_eq_ok_iff.mpr
    ⟨_, Sealing.filesUnder_smallDisk _ _ _ _ _, by decide⟩, rfl, ?_⟩
  rw [List.forall_mem_cons, List.forall_mem_cons, List.forall_mem_singleton]
  exact ⟨⟨[1], rfl, ha⟩, ⟨[], rfl, hs⟩, ⟨[], rfl, ht⟩⟩

/-- The small package without signatures is accepted as long as no key is asked for; otherwise the
first signature is reported. -/
theorem accepted_iff_smallUnsigned :
    (checkPackage Ed25519.scheme smallUnsigned ⟨"."⟩ Sealing.small none).outcome =
        .ok ⟨[("s", .unsigned), ("t", .unsigned)], 3⟩ ∧
      (checkPackage Ed25519.scheme smallUnsigned ⟨"."⟩ Sealing.small
        (some (Ed25519.scheme.publicKey Sealing.smallSeed))).outcome =
          .error (.leftUnsigned "s") := by
  have hw : smallUnsigned.WellFormed := Sealing.smallDisk_wellFormed _ _ _ _ _
  constructor
  · refine ((accepted_iff hw).1 _).mpr ⟨rfl, [Sealing.smallCoverage], rfl, .inr ⟨rfl, ?_, rfl⟩,
      smallUnsigned_intact⟩
    rw [List.singleton_append, List.forall_mem_cons, List.forall_mem_singleton]
    exact ⟨rfl, rfl⟩
  · exact (accepted_iff hw).2 [Sealing.smallCoverage] [] Sealing.smallCoverage
      [Sealing.small.treeCoverage] _ rfl rfl rfl (List.forall_mem_nil _) rfl

end PackageSeal.Verification
