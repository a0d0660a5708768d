import PackageSeal.Proofs.Schemes
import PackageSeal.Proofs.Sealing.Sealed
import PackageSeal.Proofs.Verification.Package

/-!
# What was sealed verifies

Verification looks at the final tree only, while sealing signed the architectures over the tree as
it was at the start. So the sources must hold at the end what they held at the start: no signature
is written over a source, and no sidecar is, where none of the sources is called like one. Then
every signature is found verified, and every file has the checksum beside it that sealing wrote
(`sealed_verifies`).
-/

namespace PackageSeal.Sealing

variable {scheme : SignatureScheme} {seed : Seed} {before after : Disk} {root : Path}
  {layout : Layout} {report : Report} {loc : Location} {coverages : List Coverage}

/-- No source of an architecture is called like a sidecar. -/
def NoMarkedSource (layout : Layout) : Prop :=
  ∀ arch ∈ layout.architectures, ∀ members, layout.membersOf arch = .ok members →
    ∀ member ∈ members, Sidecar.isMarked member.source = false

/-- No key is pinned, or that of the seed. -/
def PinsSeed (scheme : SignatureScheme) (seed : Seed) (pinned : Option PublicKey) : Prop :=
  pinned = none ∨ pinned = some (scheme.publicKey seed)

/-- Sealing writes no source that is not called like a sidecar. -/
theorem apart_of_noMarkedSource (hvalid : layout.Valid coverages)
    (hsources : NoMarkedSource layout) {coverage : Coverage} (hcoverage : coverage ∈ coverages) :
    ∃ arch members, coverage = .ofArchitecture arch members ∧
      Coverage.Apart loc (IsProduct before loc layout.outputs) members := by
  obtain ⟨arch, harch, hof⟩ :=
    exists_left_of_forall₂ (mapM_eq_ok_iff.mp hvalid.coverages_eq) hcoverage
  obtain ⟨members, hmembers, rfl, hrules⟩ := Layout.coverageOf_eq_ok hof
  refine ⟨arch, members, rfl, fun member hmember => ?_⟩
  obtain ⟨hinside, hover⟩ := hrules member hmember
  refine ⟨hinside, ?_⟩
  rintro (houtput | ⟨texts, hsubject, -, heq⟩)
  · exact not_isOutput_place hinside hover houtput
  · have hunmarked := hsources arch harch members hmembers member hmember
    refine Sidecar.not_isMarkedPlace_names hinside hunmarked ?_
    show Sidecar.IsMarkedPlace member.place
    rw [List.append_cancel_left heq]
    exact Sidecar.isMarkedPlace_beside hsubject.ne_nil

/-- A seal over what a coverage holds is found verified. -/
theorem checkCoverage_of_seal (hS : scheme.Lawful) {pinned : Option PublicKey}
    (hpinned : PinsSeed scheme seed pinned) {coverage : Coverage}
    {held : List (MemberName × Bytes)} (hholds : coverage.Holds after root held)
    (hread : after.read (coverage.artifactPath root) = .ok (sealOver scheme seed held).octets) :
    (Verification.checkCoverage scheme after root coverage pinned).outcome =
      .ok (.verified (scheme.publicKey seed)) := by
  have hkey : ∀ key, pinned = some key → scheme.publicKey seed = key := by
    intro key hsome
    cases hpinned with
    | inl hnone => rw [hnone] at hsome; cases hsome
    | inr hseed => exact Option.some.inj (hseed.symm.trans hsome)
  exact Verification.checkCoverage_eq_verified_iff.mpr
    ⟨sealOver scheme seed held, held, hread, hkey, hS.acceptsKey_publicKey seed, hholds,
      hS.verifies_sign seed _, rfl⟩

/-- All signatures of a sealed package are found verified. -/
theorem Sealed.checkCoverage (hS : scheme.Lawful) (hvalid : layout.Valid coverages)
    (hsources : NoMarkedSource layout) {pinned : Option PublicKey}
    (hpinned : PinsSeed scheme seed pinned)
    (h : Sealed scheme seed root layout coverages loc before after report) {coverage : Coverage}
    (hcoverage : coverage ∈ coverages ++ [layout.treeCoverage]) :
    (Verification.checkCoverage scheme after root coverage pinned).outcome =
      .ok (.verified (scheme.publicKey seed)) := by
  rw [List.mem_append, List.mem_singleton] at hcoverage
  cases hcoverage with
  | inl hmem =>
      obtain ⟨held, hholds, hread⟩ := h.runtime coverage hmem
      obtain ⟨arch, members, rfl, happart⟩ := apart_of_noMarkedSource hvalid hsources hmem
      have hafter := Coverage.holds_of_apart happart h.before_rooted h.differs hholds
      exact checkCoverage_of_seal hS hpinned hafter hread
  | inr heq =>
      obtain ⟨held, hholds, hread⟩ := h.tree
      rw [heq]
      exact checkCoverage_of_seal hS hpinned hholds hread

/-- All sidecars of a furnished package are found right, as many as were written. -/
theorem Furnished.checkSidecars {key : Except KeyProblem Seed}
    (h : Furnished scheme key root layout coverages loc before after report) :
    Verification.checkSidecars after root = .ok report.sidecars := by
  obtain ⟨places, hplaces, hcount, hpairs⟩ := h.sidecars
  have hroot := h.after_rooted
  refine (Verification.checkSidecars_iff_intact hroot.wellFormed).mpr
    ⟨loc, places, hroot.leads, hroot.dir, h.walkable, hplaces, hcount,
      fun texts content hplace => ?_⟩
  obtain ⟨hsubject, -, -⟩ := (hplaces.mem_iff texts content).mp hplace
  rw [Sidecar.pathFor_descend hroot.leads.text_ne_empty hsubject.ne_nil hsubject.isName]
  exact (hpairs texts content hplace).sidecar.read

/-- A furnished package verifies where all its signatures are found to be the same. -/
theorem Furnished.checkPackage_of_status {key : Except KeyProblem Seed}
    (hcheck : layout.check = .ok ()) (hvalid : layout.Valid coverages)
    (h : Furnished scheme key root layout coverages loc before after report)
    {pinned : Option PublicKey} {status : Status}
    (hstatus : ∀ coverage ∈ coverages ++ [layout.treeCoverage],
      (Verification.checkCoverage scheme after root coverage pinned).outcome = .ok status) :
    (Verification.checkPackage scheme after root layout pinned).outcome =
      .ok ⟨layout.outputs.map fun name => (name, status), report.sidecars⟩ := by
  refine Verification.checkPackage_eq_ok_iff.mpr ⟨hcheck, coverages, hvalid.coverages_eq, ?_,
    Verification.checkMix_eq_ok_iff.mpr ?_, h.checkSidecars⟩
  · rw [hvalid.outputs_eq_map, List.map_map, List.forall₂_map_right_iff, List.forall₂_same]
    exact fun coverage hcoverage => ⟨hstatus coverage hcoverage, rfl⟩
  · cases status with
    | verified key => exact .inl (List.forall_mem_map.mpr fun name _ => rfl)
    | unsigned => exact .inr (List.forall_mem_map.mpr fun name _ => rfl)

/-- **What was sealed verifies**, with the key of the seed pinned or none: every signature in the
order of the layout, and as many sidecars as were written. -/
theorem sealed_verifies (hS : scheme.Lawful) (hw : before.WellFormed)
    (hlinks : before.NoLinks root) (hsources : NoMarkedSource layout)
    (hends : (withKey scheme root layout (.ok seed)).Ends before report after)
    (pinned : Option PublicKey) (hpinned : PinsSeed scheme seed pinned) :
    (Verification.checkPackage scheme after root layout pinned).outcome =
      .ok ⟨layout.outputs.map fun name => (name, .verified (scheme.publicKey seed)),
        report.sidecars⟩ := by
  obtain ⟨coverages, loc, hvalid, hsealed⟩ := sealed_of_ends hS.toStreams hw hlinks hends
  obtain ⟨_, _, _, hphases⟩ := (ends_withKey hS.toStreams).mp hends
  refine Verification.checkPackage_eq_ok_iff.mpr ⟨hphases.check, coverages, hvalid.coverages_eq,
    ?_, Verification.checkMix_of_verified ?_, hsealed.checkSidecars⟩
  · have houtputs : layout.outputs =
        (coverages ++ [layout.treeCoverage]).map Coverage.artifact := by
      rw [hvalid.outputs_eq, List.map_append]
      rfl
    rw [houtputs, List.map_map, List.forall₂_map_right_iff, List.forall₂_same]
    intro coverage hcoverage
    exact ⟨hsealed.checkCoverage hS hvalid hsources hpinned hcoverage, rfl⟩
  · intro target htarget
    obtain ⟨name, -, rfl⟩ := List.mem_map.mp htarget
    rfl

theorem small_noMarkedSource : NoMarkedSource small := by
  intro arch harch members hmembers member hmember
  obtain rfl := List.mem_singleton.mp harch
  obtain rfl : [Member.a] = members := Except.ok.inj hmembers
  rw [List.mem_singleton.mp hmember]
  decide

/-- The small package verifies once it was sealed, with the key pinned. -/
theorem sealed_verifies_small : ∃ report after,
    (withKey Ed25519.scheme.completed ⟨"."⟩ small (.ok smallSeed)).Ends (smallDisk [] [] [] [] [])
      report after ∧
    (Verification.checkPackage Ed25519.scheme.completed after ⟨"."⟩ small
        (some (Ed25519.scheme.completed.publicKey smallSeed))).outcome =
      .ok ⟨[("s", .verified (Ed25519.scheme.completed.publicKey smallSeed)),
        ("t", .verified (Ed25519.scheme.completed.publicKey smallSeed))], report.sidecars⟩ := by
  have hlawful := Ed25519.scheme_streams.completed_lawful
  obtain ⟨report, after, hends⟩ := small_ends [] [] [] [] [] hlawful.toStreams
  exact ⟨report, after, hends, sealed_verifies hlawful (smallDisk_wellFormed [] [] [] [] [])
    (smallDisk_noLinks [] [] [] [] [] ⟨"."⟩) small_noMarkedSource hends _ (.inr rfl)⟩

end PackageSeal.Sealing
