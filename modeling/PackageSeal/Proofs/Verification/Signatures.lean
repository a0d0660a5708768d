import PackageSeal.Proofs.Coverage.Holdings
import PackageSeal.Verification

/-!
# What checking a signature comes to

A signature is verified exactly where its file holds a seal by an accepted key, and the seal
verifies the canonical stream of what the coverage holds (`checkCoverage_eq_verified_iff`); it is
unsigned where its file is empty and no key is asked for (`checkCoverage_eq_unsigned_iff`). So
nothing else on the disk has a say in the result (`outcome_checkCoverage`).
-/

namespace PackageSeal

namespace Coverage

/-- A coverage holds one sequence of named contents at most. -/
theorem Holds.unique {coverage : Coverage} {disk : Disk} {root : Path}
    {held held' : List (MemberName × Bytes)} (h : coverage.Holds disk root held)
    (h' : coverage.Holds disk root held') : held = held' := by
  obtain ⟨roster, hroster, hheld⟩ := h
  obtain ⟨roster', hroster', hheld'⟩ := h'
  rw [hroster, Except.ok.injEq] at hroster'
  rw [← hroster', hheld, Except.ok.injEq] at hheld'
  exact hheld'

end Coverage

/-- A seal is determined by its octets. -/
theorem Seal.octets_injective {mark mark' : Seal} (h : mark.octets = mark'.octets) :
    mark = mark' := by
  have hparse : Artifact.parse mark.octets = .ok (.signed mark) :=
    Artifact.parse_eq_ok_iff.mpr rfl
  have hparse' : Artifact.parse mark'.octets = .ok (.signed mark') :=
    Artifact.parse_eq_ok_iff.mpr rfl
  rw [h, hparse', Except.ok.injEq, Artifact.signed.injEq] at hparse
  exact hparse.symm

namespace Verification

variable {scheme : SignatureScheme} {disk : Disk} {root : Path} {coverage : Coverage}
  {pinned : Option PublicKey}

theorem readArtifact_eq_ok_iff {path : Path} {artifact : Artifact} :
    readArtifact disk path = .ok artifact ↔ disk.read path = .ok artifact.octets := by
  unfold readArtifact
  cases disk.read path with
  | error cause => simp
  | ok content =>
      rw [mapError_eq_ok_iff, Artifact.parse_eq_ok_iff, Except.ok.injEq, eq_comm]

theorem checkKey_eq_ok_iff {artifact : String} {mark : Seal} :
    checkKey scheme artifact pinned mark = .ok () ↔
      (∀ key, pinned = some key → mark.key = key) ∧ scheme.acceptsKey mark.key = true := by
  unfold checkKey
  cases pinned with
  | none =>
      by_cases hkey : scheme.acceptsKey mark.key = true
      · simp [hkey, pure, Except.pure]
      · simp [hkey, throw, throwThe, MonadExceptOf.throw]
  | some expected =>
      by_cases hne : mark.key = expected
      · by_cases hkey : scheme.acceptsKey expected = true
        · simp [hne, hkey, pure, Except.pure]
        · simp [hne, hkey, throw, throwThe, MonadExceptOf.throw]
      · simp [hne, bind, Except.bind, throw, throwThe, MonadExceptOf.throw]

/-- What is made of an artifact over a message. -/
def judge (scheme : SignatureScheme) (artifact : String) (pinned : Option PublicKey)
    (message : Bytes) : Artifact → Except VerifyFailure Status
  | .placeholder => if pinned.isSome then .error (.leftUnsigned artifact) else .ok .unsigned
  | .signed mark => do
    checkKey scheme artifact pinned mark
    if scheme.verifies mark.key message mark.signature then .ok (.verified mark.key)
    else .error (.wrongSignature artifact)

/-- **Nothing but the artifact and what the coverage holds has a say** in what a signature is found
to be. -/
theorem outcome_checkCoverage {held : List (MemberName × Bytes)}
    (h : coverage.Holds disk root held) :
    (checkCoverage scheme disk root coverage pinned).outcome =
      ((readArtifact disk (coverage.artifactPath root)).mapError VerifyFailure.failed >>=
        judge scheme coverage.artifact pinned (Frame.canonical held)) := by
  obtain ⟨roster, hroster, hheld⟩ := h
  have hmembers : (coverage.members disk root).mapError VerifyFailure.failed = .ok roster := by
    rw [mapError_eq_ok_iff, hroster]
  have hstream : (Frame.stream disk roster).outcome.mapError VerifyFailure.failed =
      .ok (Frame.canonical held) := by
    rw [mapError_eq_ok_iff, Frame.outcome_stream, map_eq_ok_iff]
    exact ⟨held, hheld, rfl⟩
  unfold checkCoverage
  rw [Logged.outcome_bind, Logged.outcome_ofExcept]
  congr 1
  funext artifact
  cases artifact with
  | placeholder =>
      cases pinned with
      | none => rfl
      | some key => rfl
  | signed mark =>
      rw [Logged.outcome_bind, Logged.outcome_ofExcept, judge]
      congr 1
      funext _
      rw [Logged.outcome_bind, Logged.outcome_ofExcept, hmembers]
      show (Logged.mapError VerifyFailure.failed (Frame.stream disk roster) >>= _).outcome = _
      rw [Logged.outcome_bind, Logged.outcome_mapError, hstream]
      by_cases hv : scheme.verifies mark.key (Frame.canonical held) mark.signature = true
      · simp [hv, bind, Except.bind]
      · simp [hv, bind, Except.bind]

/-- A signature can only be verified where its coverage holds something. -/
theorem holds_of_checkCoverage {key : PublicKey}
    (h : (checkCoverage scheme disk root coverage pinned).outcome = .ok (.verified key)) :
    ∃ held, coverage.Holds disk root held := by
  unfold checkCoverage at h
  rw [Logged.outcome_bind, bind_eq_ok_iff] at h
  obtain ⟨artifact, -, hrest⟩ := h
  cases artifact with
  | placeholder =>
      cases pinned with
      | none => simp at hrest
      | some key => simp at hrest
  | signed mark =>
      rw [Logged.outcome_bind, bind_eq_ok_iff] at hrest
      obtain ⟨-, -, hrest⟩ := hrest
      rw [Logged.outcome_bind, bind_eq_ok_iff, Logged.outcome_ofExcept] at hrest
      obtain ⟨roster, hroster, hrest⟩ := hrest
      rw [Logged.outcome_bind, bind_eq_ok_iff, Logged.outcome_mapError, Frame.outcome_stream]
        at hrest
      obtain ⟨message, hstream, -⟩ := hrest
      obtain ⟨held, hheld, -⟩ := map_eq_ok_iff.mp (mapError_eq_ok_iff.mp hstream)
      exact ⟨held, roster, mapError_eq_ok_iff.mp hroster, hheld⟩

/-- **A signature is verified** exactly where its file holds a seal by an accepted key that verifies
the canonical stream of what the coverage holds. -/
theorem checkCoverage_eq_verified_iff {key : PublicKey} :
    (checkCoverage scheme disk root coverage pinned).outcome = .ok (.verified key) ↔
      ∃ (mark : Seal) (held : List (MemberName × Bytes)),
        disk.read (coverage.artifactPath root) = .ok mark.octets ∧
        (∀ expected, pinned = some expected → mark.key = expected) ∧
        scheme.acceptsKey mark.key = true ∧ coverage.Holds disk root held ∧
        scheme.verifies mark.key (Frame.canonical held) mark.signature = true ∧
        mark.key = key := by
  constructor
  · intro h
    obtain ⟨held, hheld⟩ := holds_of_checkCoverage h
    rw [outcome_checkCoverage hheld, bind_eq_ok_iff] at h
    obtain ⟨artifact, hartifact, hjudge⟩ := h
    have hread := readArtifact_eq_ok_iff.mp (mapError_eq_ok_iff.mp hartifact)
    cases artifact with
    | placeholder =>
        rw [judge] at hjudge
        split_ifs at hjudge
        cases hjudge
    | signed mark =>
        rw [judge, bind_eq_ok_iff] at hjudge
        obtain ⟨⟨⟩, hkey, hverdict⟩ := hjudge
        obtain ⟨hpinned, haccepts⟩ := checkKey_eq_ok_iff.mp hkey
        split_ifs at hverdict with hv
        rw [Except.ok.injEq, Status.verified.injEq] at hverdict
        exact ⟨mark, held, hread, hpinned, haccepts, hheld, hv, hverdict⟩
  · rintro ⟨mark, held, hread, hpinned, haccepts, hheld, hv, rfl⟩
    rw [outcome_checkCoverage hheld, bind_eq_ok_iff]
    refine ⟨.signed mark, ?_, ?_⟩
    · rw [mapError_eq_ok_iff, readArtifact_eq_ok_iff]
      exact hread
    · rw [judge, bind_eq_ok_iff]
      exact ⟨(), checkKey_eq_ok_iff.mpr ⟨hpinned, haccepts⟩, if_pos hv⟩

/-- **A signature is found unsigned** exactly where its file is empty and no key is pinned. -/
theorem checkCoverage_eq_unsigned_iff :
    (checkCoverage scheme disk root coverage pinned).outcome = .ok .unsigned ↔
      pinned = none ∧ disk.read (coverage.artifactPath root) = .ok [] := by
  unfold checkCoverage
  rw [Logged.outcome_bind, Logged.outcome_ofExcept, bind_eq_ok_iff]
  simp only [mapError_eq_ok_iff, readArtifact_eq_ok_iff]
  constructor
  · rintro ⟨artifact, hread, hrest⟩
    cases artifact with
    | placeholder =>
        cases pinned with
        | none => exact ⟨rfl, hread⟩
        | some key => simp at hrest
    | signed mark =>
        -- A seal is verified or refused.
        rw [Logged.outcome_bind, bind_eq_ok_iff] at hrest
        obtain ⟨⟨⟩, -, hrest⟩ := hrest
        rw [Logged.outcome_bind, bind_eq_ok_iff] at hrest
        obtain ⟨roster, -, hrest⟩ := hrest
        rw [Logged.outcome_bind, bind_eq_ok_iff] at hrest
        obtain ⟨message, -, hverdict⟩ := hrest
        by_cases hv : scheme.verifies mark.key message mark.signature = true
        · simp [hv] at hverdict
        · simp [hv] at hverdict
  · rintro ⟨rfl, hread⟩
    exact ⟨.placeholder, hread, rfl⟩

/-- Where a key is pinned, an empty file is not enough. -/
theorem checkCoverage_of_empty (hread : disk.read (coverage.artifactPath root) = .ok [])
    (key : PublicKey) : (checkCoverage scheme disk root coverage (some key)).outcome =
      .error (.leftUnsigned coverage.artifact) := by
  have hartifact : readArtifact disk (coverage.artifactPath root) = .ok .placeholder :=
    readArtifact_eq_ok_iff.mpr hread
  unfold checkCoverage
  rw [Logged.outcome_bind, Logged.outcome_ofExcept, hartifact]
  rfl

end Verification

end PackageSeal
