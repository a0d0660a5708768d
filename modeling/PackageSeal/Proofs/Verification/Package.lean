import PackageSeal.Proofs.Sealing.Sidecars
import PackageSeal.Proofs.Verification.Signatures

/-!
# What verifying a package comes to

A package verifies exactly where the layout keeps its rules, every signature is checked, signed and
unsigned ones are not mixed, and every file with a sidecar can be read and has its checksum beside
it (`checkPackage_eq_ok_iff`, `checkSidecars_eq_ok_iff`).
-/

namespace PackageSeal

/-! ## Checksums as text -/

namespace Checksum

theorem utf8ByteSize_text (checksum : Checksum) : checksum.text.utf8ByteSize = 64 := by
  rw [utf8ByteSize_eq_length fun c hc => utf8Size_of_isLowerHex (checksum.isLowerHex c hc),
    checksum.length_eq]

/-- A text is read as the checksum of which it is the text. -/
theorem ofText_eq_ok_iff {text : String} {checksum : Checksum} :
    ofText text = .ok checksum ↔ checksum.text = text := by
  constructor
  · intro h
    unfold ofText at h
    split at h
    · cases h
    · split at h
      · cases h
      · split at h
        · cases h
        · rw [← Except.ok.inj h]
  · rintro rfl
    obtain ⟨hdigits, hupper⟩ := forall_isLowerHex_iff.mp checksum.isLowerHex
    unfold ofText
    rw [dif_neg (by rw [checksum.utf8ByteSize_text]; simp)]
    split
    · next hfound => simp [hdigits] at hfound
    · rw [dif_neg hupper]

end Checksum

/-! ## Sidecars -/

/-- A sidecar records the checksum whose text is its content. -/
theorem Sidecar.recorded_eq_ok_iff {disk : Disk} {path : Path} {checksum : Checksum} :
    recorded disk path = .ok checksum ↔ disk.read (pathFor path) = .ok (utf8 checksum.text) := by
  unfold recorded Disk.readText
  cases hread : disk.read (pathFor path) with
  | error cause => simp
  | ok content =>
      cases htext : ofUtf8? content with
      | none =>
          simp only [htext, reduceCtorEq, Except.ok.injEq, false_iff]
          intro heq
          rw [heq, ofUtf8?_utf8] at htext
          cases htext
      | some text =>
          have hcontent := utf8_of_ofUtf8? htext
          have hiff : content = utf8 checksum.text ↔ checksum.text = text := by
            rw [← hcontent]
            exact ⟨fun heq => (utf8_injective heq).symm, fun heq => by rw [heq]⟩
          simp only [htext, Except.ok.injEq, hiff, ← Checksum.ofText_eq_ok_iff]
          cases Checksum.ofText text with
          | error fault => simp
          | ok other => simp

namespace Sidecar

variable {disk : Disk} {root : Path}

/-- The tree below the root can be walked, and the sidecar of every file that has one can be read
and holds the checksum of the file; there are so many of them. -/
def Intact (disk : Disk) (root : Path) (count : Nat) : Prop :=
  ∃ loc places, disk.Leads root loc ∧ disk.at? loc = some .dir ∧ disk.Walkable root loc ∧
    IsSubjects disk loc [] places ∧ count = places.length ∧
    ∀ texts content, (texts, content) ∈ places →
      disk.read (pathFor (root.descend (Path.names texts))) = .ok (digest content)

/-- A file can be read where its sidecar can: the path of the sidecar is the longer one. -/
theorem read_of_read_pathFor (hw : disk.WellFormed) {loc : Location} (hleads : disk.Leads root loc)
    (hdir : disk.at? loc = some .dir) {texts : List String} (hsubject : IsSubject texts)
    {content recorded : Bytes} (hat : disk.at? (loc ++ Path.names texts) = some (.file content))
    (hread : disk.read (pathFor (root.descend (Path.names texts))) = .ok recorded) :
    disk.read (root.descend (Path.names texts)) = .ok content := by
  obtain ⟨other, ⟨node, hfind⟩, -⟩ := Disk.read_eq_ok_iff.mp hread
  obtain ⟨route, -, hroute, -⟩ := Disk.find_eq_ok_iff.mp hfind
  have hpath := Route.ofPath_of_extend (Path.descend_ne_empty hleads.text_ne_empty hsubject.isName)
    hroute
  have hto := Disk.leads_descend hw hleads hdir hsubject.isName hat hpath
  exact Disk.read_eq_ok_iff.mpr ⟨_, hto, hat⟩

end Sidecar

namespace Verification

variable {scheme : SignatureScheme} {disk : Disk} {root : Path}

/-- The sidecar of a file passes exactly where it holds the checksum of what the file holds. -/
theorem checkSidecar_eq_ok_iff {path : Path} :
    checkSidecar disk path = .ok () ↔ ∃ content, disk.read path = .ok content ∧
      disk.read (Sidecar.pathFor path) = .ok (Sidecar.digest content) := by
  have hcheck : checkSidecar disk path = .ok () ↔ disk.isFile (Sidecar.pathFor path) = true ∧
      ∃ recorded, Sidecar.recorded disk path = .ok recorded ∧
        ∃ actual, Sidecar.checksumOf disk path = .ok actual ∧ recorded = actual := by
    unfold checkSidecar
    rw [guard_eq_ok_iff]
    simp only [bind_eq_ok_iff, mapError_eq_ok_iff, last_guard_eq_ok_iff, Bool.not_eq_true',
      Bool.not_eq_false, ne_eq, not_not]
  rw [hcheck]
  simp only [Sidecar.recorded_eq_ok_iff, Sidecar.checksumOf_eq_ok_iff]
  constructor
  · rintro ⟨-, recorded, hrecorded, actual, ⟨content, hread, rfl⟩, rfl⟩
    exact ⟨content, hread, hrecorded⟩
  · rintro ⟨content, hread, hrecorded⟩
    exact ⟨Disk.isFile_iff.mpr ⟨_, hrecorded⟩, _, hrecorded, _, ⟨content, hread, rfl⟩, rfl⟩

/-- All sidecars pass exactly where the sidecar of every file that has one does. -/
theorem checkSidecars_eq_ok_iff {count : Nat} :
    checkSidecars disk root = .ok count ↔ ∃ paths, Sidecar.subjects disk root [] = .ok paths ∧
      paths.length = count ∧ ∀ path ∈ paths, ∃ content, disk.read path = .ok content ∧
        disk.read (Sidecar.pathFor path) = .ok (Sidecar.digest content) := by
  unfold checkSidecars
  simp only [bind_eq_ok_iff, mapError_eq_ok_iff, pure_eq_ok_iff]
  constructor
  · rintro ⟨paths, hpaths, ⟨⟩, hall, rfl⟩
    exact ⟨paths, hpaths, rfl, fun path hpath =>
      checkSidecar_eq_ok_iff.mp (forM_eq_ok_iff.mp hall path hpath)⟩
  · rintro ⟨paths, hpaths, rfl, hall⟩
    exact ⟨paths, hpaths, (), forM_eq_ok_iff.mpr fun path hpath =>
      checkSidecar_eq_ok_iff.mpr (hall path hpath), rfl⟩

/-- All sidecars pass exactly where the tree can be walked and every sidecar holds the checksum of
its file. -/
theorem checkSidecars_iff_intact (hw : disk.WellFormed) {count : Nat} :
    checkSidecars disk root = .ok count ↔ Sidecar.Intact disk root count := by
  rw [checkSidecars_eq_ok_iff]
  constructor
  · rintro ⟨paths, hsubjects, rfl, hall⟩
    obtain ⟨files, hfiles, -⟩ := Sidecar.subjects_eq_ok_iff.mp hsubjects
    obtain ⟨loc, hlisted⟩ := Disk.listed_of_filesUnder hw hfiles
    obtain ⟨places, hplaces, hmap⟩ :=
      Sidecar.subjects_of_listed hfiles hlisted (List.forall_mem_nil _)
    rw [hsubjects, Except.ok.injEq] at hmap
    refine ⟨loc, places, hlisted.leads, hlisted.dir, hlisted.walkable, hplaces,
      by rw [hmap, List.length_map], fun texts content hplace => ?_⟩
    have hpath : root.descend (Path.names texts) ∈ paths := by
      rw [hmap]
      exact List.mem_map_of_mem hplace
    obtain ⟨held, hread, hrecorded⟩ := hall _ hpath
    obtain ⟨hsubject, -, hat⟩ := (hplaces.mem_iff texts content).mp hplace
    obtain ⟨-, rfl⟩ :=
      Disk.read_descend hw hlisted.leads hlisted.dir hsubject.isName hat hread
    exact hrecorded
  · rintro ⟨loc, places, hleads, hdir, hwalk, hplaces, rfl, hall⟩
    obtain ⟨files, hfiles⟩ := Disk.filesUnder_of_walkable hw hleads hdir hwalk
    obtain ⟨found, hlisted⟩ := Disk.listed_of_filesUnder hw hfiles
    obtain rfl := hleads.unique hlisted.leads
    obtain ⟨subjects, hsubjects, hmap⟩ :=
      Sidecar.subjects_of_listed hfiles hlisted (List.forall_mem_nil _)
    have hperm := hsubjects.perm hplaces
    refine ⟨_, hmap, by rw [List.length_map, hperm.length_eq], ?_⟩
    intro path hpath
    obtain ⟨⟨texts, content⟩, hplace, rfl⟩ := List.mem_map.mp hpath
    obtain ⟨hsubject, -, hat⟩ := (hsubjects.mem_iff texts content).mp hplace
    have hrecorded := hall texts content (hperm.mem_iff.mp hplace)
    exact ⟨content, Sidecar.read_of_read_pathFor hw hleads hdir hsubject hat hrecorded, hrecorded⟩

/-! ## The whole -/

/-- **Signatures are not mixed** exactly where all are verified or none is. -/
theorem checkMix_eq_ok_iff {targets : List (String × Status)} :
    checkMix targets = .ok () ↔ (∀ target ∈ targets, target.2.isVerified = true) ∨
      ∀ target ∈ targets, target.2 = .unsigned := by
  have hunsigned : ∀ status : Status, status.isVerified = false ↔ status = .unsigned := by
    intro status
    cases status with
    | verified key => simp [Status.isVerified]
    | unsigned => simp [Status.isVerified]
  unfold checkMix
  by_cases hany : targets.any fun target => target.2.isVerified
  · obtain ⟨one, hone, hverified⟩ := List.any_eq_true.mp hany
    have hnone : ¬ ∀ target ∈ targets, target.2 = .unsigned := by
      intro hall
      rw [hall one hone] at hverified
      cases hverified
    rw [if_pos hany]
    cases hfind : targets.find? fun target => !target.2.isVerified with
    | none =>
        rw [List.find?_eq_none] at hfind
        refine iff_of_true rfl (.inl fun target htarget => ?_)
        simpa using hfind target htarget
    | some target =>
        refine iff_of_false (by simp) ?_
        rintro (hall | hall)
        · have hverified := hall target (List.mem_of_find?_eq_some hfind)
          have hnot := List.find?_some hfind
          rw [hverified] at hnot
          cases hnot
        · exact hnone hall
  · rw [if_neg hany]
    refine iff_of_true rfl (.inr fun target htarget => (hunsigned _).mp ?_)
    rw [List.any_eq_true, not_exists] at hany
    simpa using fun hverified => hany target ⟨htarget, hverified⟩

theorem checkMix_of_verified {targets : List (String × Status)}
    (h : ∀ target ∈ targets, target.2.isVerified = true) : checkMix targets = .ok () :=
  checkMix_eq_ok_iff.mpr (.inl h)

/-- **A package verifies** exactly where all its parts do. -/
theorem checkPackage_eq_ok_iff {layout : Layout} {pinned : Option PublicKey} {report : Report} :
    (checkPackage scheme disk root layout pinned).outcome = .ok report ↔
      layout.check = .ok () ∧ ∃ coverages, layout.architectureCoverages = .ok coverages ∧
        List.Forall₂ (fun coverage target =>
            (checkCoverage scheme disk root coverage pinned).outcome = .ok target.2 ∧
              coverage.artifact = target.1)
          (coverages ++ [layout.treeCoverage]) report.targets ∧
        checkMix report.targets = .ok () ∧ checkSidecars disk root = .ok report.sidecars := by
  have htarget : ∀ (coverage : Coverage) (target : String × Status),
      (∃ status, (checkCoverage scheme disk root coverage pinned).outcome = .ok status ∧
        (coverage.artifact, status) = target) ↔
        (checkCoverage scheme disk root coverage pinned).outcome = .ok target.2 ∧
          coverage.artifact = target.1 := by
    intro coverage target
    constructor
    · rintro ⟨status, hstatus, rfl⟩
      exact ⟨hstatus, rfl⟩
    · rintro ⟨hstatus, hartifact⟩
      exact ⟨target.2, hstatus, Prod.ext hartifact rfl⟩
  unfold checkPackage
  simp only [Logged.outcome_bind, Logged.outcome_ofExcept, Logged.outcome_mapM,
    Logged.outcome_tell, Logged.outcome_pure, bind_eq_ok_iff, mapError_eq_ok_iff, mapM_eq_ok_iff,
    Except.ok.injEq, true_and, exists_const, htarget]
  constructor
  · rintro ⟨⟨⟩, hcheck, coverages, hcoverages, targets, htargets, ⟨⟩, hmix,
      sidecars, hsidecars, rfl⟩
    exact ⟨hcheck, coverages, hcoverages, htargets, hmix, hsidecars⟩
  · rintro ⟨hcheck, coverages, hcoverages, htargets, hmix, hsidecars⟩
    exact ⟨(), hcheck, coverages, hcoverages, report.targets, htargets, (), hmix, report.sidecars,
      hsidecars, rfl⟩

/-- The first signature that fails by itself is what is reported. -/
theorem checkPackage_eq_error {layout : Layout} {pinned : Option PublicKey}
    {coverages : List Coverage} (hcheck : layout.check = .ok ())
    (hcoverages : layout.architectureCoverages = .ok coverages) {front rest : List Coverage}
    {coverage : Coverage} (hsplit : coverages ++ [layout.treeCoverage] = front ++ coverage :: rest)
    (hfront : ∀ other ∈ front, ∃ status,
      (checkCoverage scheme disk root other pinned).outcome = .ok status)
    {failure : VerifyFailure}
    (hfailure : (checkCoverage scheme disk root coverage pinned).outcome = .error failure) :
    (checkPackage scheme disk root layout pinned).outcome = .error failure := by
  have hfirst : ((front ++ coverage :: rest).mapM fun other => do
      let status ← (checkCoverage scheme disk root other pinned).outcome
      Except.ok (other.artifact, status)) = .error failure := by
    refine mapM_eq_error (fun other hother => ?_) ?_
    · obtain ⟨status, hstatus⟩ := hfront other hother
      exact ⟨_, by rw [hstatus]; rfl⟩
    · rw [hfailure]
      rfl
  unfold checkPackage
  simp only [Logged.outcome_bind, Logged.outcome_ofExcept, Logged.outcome_mapM,
    Logged.outcome_tell, Logged.outcome_pure, hcheck, hcoverages, Except.mapError, ok_bind, hsplit,
    hfirst]
  rfl

end Verification

end PackageSeal
