import PackageSeal.Proofs.Coverage.Holdings
import PackageSeal.Proofs.Disk.Rewrites
import PackageSeal.Sealing

/-!
# The steps of sealing

What writing the file of a coverage and writing a sidecar come to, each in one statement: which disk
they leave and what they wrote there. A run without a key writes empty files where one with a key
writes signatures, and goes through the same phases (`ends_withKey`). No later proof opens the runs
themselves.
-/

namespace PackageSeal

/-! ## Checksums -/

namespace Sidecar

/-- A file has the checksum of what reading it gives. -/
theorem checksumOf_eq_ok_iff {disk : Disk} {path : Path} {checksum : Checksum} :
    checksumOf disk path = .ok checksum ↔
      ∃ content, disk.read path = .ok content ∧ Checksum.ofContent content = checksum := by
  unfold checksumOf Disk.read
  cases disk.find path with
  | error cause => simp
  | ok found =>
      obtain ⟨loc, node⟩ := found
      cases hcontent : Disk.contentOf node with
      | error cause => simp [hcontent]
      | ok content =>
          simp only [hcontent, Except.ok.injEq, exists_eq_left']
          rw [Checksum.ofParts_eq, flatten_pieces (by decide)]

variable {before after : Disk}

/-- Writing a sidecar puts the checksum of the file beside it. -/
theorem ends_write {path result : Path} :
    (write path).Ends before result after ↔
      result = pathFor path ∧ ∃ content, before.read path = .ok content ∧
        before.write (pathFor path) (utf8 (Checksum.ofContent content).text) = .ok after := by
  unfold write
  simp only [Action.ends_bind, Action.ends_look, Logged.outcome_ofExcept, Action.ends_change,
    Action.ends_tell, Action.ends_pure, mapError_eq_ok_iff, checksumOf_eq_ok_iff]
  constructor
  · rintro ⟨checksum, _, ⟨⟨content, hread, rfl⟩, rfl⟩, ⟨⟩, _, hwrite, ⟨⟩, _, rfl, rfl, rfl⟩
    exact ⟨rfl, content, hread, hwrite⟩
  · rintro ⟨rfl, content, hread, hwrite⟩
    exact ⟨_, before, ⟨⟨content, hread, rfl⟩, rfl⟩, (), after, hwrite, (), after, rfl, rfl, rfl⟩

theorem subjects_eq_ok_iff {disk : Disk} {root : Path} {excluded : List String}
    {paths : List Path} :
    subjects disk root excluded = .ok paths ↔
      ∃ files, disk.filesUnder root = .ok files ∧
        files.filter (fun path => !isMarked path && !isExcluded root excluded path) = paths := by
  simp only [subjects, filesUnder, map_eq_ok_iff, mapError_eq_ok_iff]

/-- Writing all sidecars writes one for each subject in turn. -/
theorem ends_writeAll {root : Path} {excluded : List String} {count : Nat} :
    (writeAll root excluded).Ends before count after ↔
      ∃ paths, subjects before root excluded = .ok paths ∧ count = paths.length ∧
        (paths.forM fun path => discard (write path)).Ends before () after := by
  unfold writeAll
  simp only [Action.ends_bind, Action.ends_look, Logged.outcome_ofExcept, Action.ends_pure]
  constructor
  · rintro ⟨paths, _, ⟨hpaths, rfl⟩, ⟨⟩, _, hwrites, rfl, rfl⟩
    exact ⟨paths, hpaths, rfl, hwrites⟩
  · rintro ⟨paths, hpaths, rfl, hwrites⟩
    exact ⟨paths, before, ⟨hpaths, rfl⟩, (), after, hwrites, rfl, rfl⟩

end Sidecar

/-! ## Signatures -/

namespace Sealing

variable {scheme : SignatureScheme} {seed : Seed} {before after : Disk} {root : Path}

/-- The seal of a sequence of named contents: the signature of their canonical stream, and the
public key. -/
def sealOver (scheme : SignatureScheme) (seed : Seed) (held : List (MemberName × Bytes)) : Seal :=
  ⟨scheme.sign seed (Frame.canonical held), scheme.publicKey seed⟩

/-- **Signing a roster in two passes signs its canonical stream.** -/
theorem outcome_signRoster (hS : scheme.Streams) (disk : Disk) (roster : Roster) :
    (signRoster scheme disk seed roster).outcome =
      (roster.holdings disk).map (sealOver scheme seed) := by
  have hpass : ∀ start, (Frame.sendRoster disk (Sink.ofAbsorb scheme.absorb) roster start).outcome =
      (roster.holdings disk).map fun held => scheme.absorb start (Frame.canonical held) := by
    intro start
    have hsent := Frame.outcome_sendRoster (hS.follows_absorb start) disk roster []
    rw [hS.absorb_nil] at hsent
    exact hsent
  unfold signRoster
  simp only [Logged.outcome_bind, hpass, Logged.outcome_pure]
  cases hheld : roster.holdings disk with
  | error failure => rfl
  | ok held => rfl

theorem ends_writeArtifact {path : Path} {artifact : Artifact} {u : Unit} :
    (writeArtifact path artifact).Ends before u after ↔
      before.write path artifact.octets = .ok after := by
  rw [writeArtifact, Action.ends_change, mapError_eq_ok_iff]

/-- Signing writes the seal of what the roster holds by then. -/
theorem ends_putSigned (hS : scheme.Streams) {coverage : Coverage} {roster : Roster}
    {result : Path} :
    (putSigned scheme root seed coverage roster).Ends before result after ↔
      result = coverage.artifactPath root ∧ ∃ held, roster.holdings before = .ok held ∧
        before.write (coverage.artifactPath root) (sealOver scheme seed held).octets =
          .ok after := by
  unfold putSigned
  simp only [Action.ends_bind, Action.ends_look, outcome_signRoster hS, map_eq_ok_iff,
    ends_writeArtifact, Action.ends_tell, Action.ends_pure, Artifact.octets]
  constructor
  · rintro ⟨_, _, ⟨⟨held, hheld, rfl⟩, rfl⟩, ⟨⟩, _, hwrite, ⟨⟩, _, rfl, rfl, rfl⟩
    exact ⟨rfl, held, hheld, hwrite⟩
  · rintro ⟨rfl, held, hheld, hwrite⟩
    exact ⟨_, before, ⟨⟨held, hheld, rfl⟩, rfl⟩, (), after, hwrite, (), after, rfl, rfl, rfl⟩

theorem ends_membersNow {coverage : Coverage} {roster : Roster} :
    (membersNow root coverage).Ends before roster after ↔
      coverage.members before root = .ok roster ∧ before = after := by
  rw [membersNow, Action.ends_look, Logged.outcome_ofExcept]

/-- Without a seed an empty file is written. -/
theorem ends_putPlaceholder {coverage : Coverage} {result : Path} :
    (putPlaceholder root coverage).Ends before result after ↔
      result = coverage.artifactPath root ∧
        before.write (coverage.artifactPath root) [] = .ok after := by
  unfold putPlaceholder
  simp only [Action.ends_bind, ends_writeArtifact, Action.ends_tell, Action.ends_pure,
    Artifact.octets]
  constructor
  · rintro ⟨⟨⟩, _, hwrite, ⟨⟩, _, rfl, rfl, rfl⟩
    exact ⟨rfl, hwrite⟩
  · rintro ⟨rfl, hwrite⟩
    exact ⟨(), after, hwrite, (), after, rfl, rfl, rfl⟩

/-- What is written into the file of a signature: the seal of the members that were found on the
first disk, as they are on the second; nothing for want of a seed. -/
def Inscription (scheme : SignatureScheme) (seed? : Option Seed) (root : Path) (first disk : Disk)
    (coverage : Coverage) (content : Bytes) : Prop :=
  match seed? with
  | some seed => ∃ roster held, coverage.members first root = .ok roster ∧
      roster.holdings disk = .ok held ∧ content = (sealOver scheme seed held).octets
  | none => content = []

variable {seed? : Option Seed}

/-- On one disk the seal is that of what the coverage holds. -/
theorem inscription_some_iff {disk : Disk} {coverage : Coverage} {content : Bytes} :
    Inscription scheme (some seed) root disk disk coverage content ↔
      ∃ held, coverage.Holds disk root held ∧ content = (sealOver scheme seed held).octets := by
  constructor
  · rintro ⟨roster, held, hroster, hheld, hcontent⟩
    exact ⟨held, ⟨roster, hroster, hheld⟩, hcontent⟩
  · rintro ⟨held, ⟨roster, hroster, hheld⟩, hcontent⟩
    exact ⟨roster, held, hroster, hheld, hcontent⟩

/-- What is inscribed goes by what the coverage holds. -/
theorem Inscription.of_holds {disk disk' : Disk} {coverage : Coverage} {content : Bytes}
    (h : Inscription scheme seed? root disk disk coverage content)
    (hholds : ∀ held, coverage.Holds disk root held → coverage.Holds disk' root held) :
    Inscription scheme seed? root disk' disk' coverage content := by
  cases seed? with
  | none => exact h
  | some seed =>
      obtain ⟨held, hheld, hcontent⟩ := inscription_some_iff.mp h
      exact inscription_some_iff.mpr ⟨held, hholds held hheld, hcontent⟩

/-- Where a coverage holds something, something can be inscribed. -/
theorem exists_inscription (scheme : SignatureScheme) (seed? : Option Seed) {disk : Disk}
    {coverage : Coverage} {held : List (MemberName × Bytes)} (h : coverage.Holds disk root held) :
    ∃ content, Inscription scheme seed? root disk disk coverage content := by
  cases seed? with
  | none => exact ⟨[], rfl⟩
  | some seed => exact ⟨_, inscription_some_iff.mpr ⟨held, h, rfl⟩⟩

/-- The signature over the tree is written over the tree as it is. -/
theorem ends_putTree (hS : scheme.Streams) {coverage : Coverage} {result : Path} :
    (putTree scheme root seed? coverage).Ends before result after ↔
      result = coverage.artifactPath root ∧ ∃ content,
        Inscription scheme seed? root before before coverage content ∧
        before.write (coverage.artifactPath root) content = .ok after := by
  cases seed? with
  | none => simp only [putTree, ends_putPlaceholder, Inscription, exists_eq_left]
  | some seed =>
      simp only [putTree, Action.ends_bind, ends_membersNow, ends_putSigned hS]
      constructor
      · rintro ⟨roster, _, ⟨hroster, rfl⟩, rfl, held, hheld, hwrite⟩
        exact ⟨rfl, _, ⟨roster, held, hroster, hheld, rfl⟩, hwrite⟩
      · rintro ⟨rfl, _, ⟨roster, held, hroster, hheld, rfl⟩, hwrite⟩
        exact ⟨roster, before, ⟨hroster, rfl⟩, rfl, held, hheld, hwrite⟩

/-! ## The signatures of the architectures -/

/-- The signatures of the coverages are written in turn, from the members found on the first
disk. -/
inductive Inscribed (scheme : SignatureScheme) (seed? : Option Seed) (root : Path) (first : Disk) :
    Disk → List Coverage → Disk → Prop where
  | nil {disk : Disk} : Inscribed scheme seed? root first disk [] disk
  | cons {disk middle after : Disk} {coverage : Coverage} {rest : List Coverage} {content : Bytes}
      (hcontent : Inscription scheme seed? root first disk coverage content)
      (hwrite : disk.write (coverage.artifactPath root) content = .ok middle)
      (hrest : Inscribed scheme seed? root first middle rest after) :
      Inscribed scheme seed? root first disk (coverage :: rest) after

/-- Finding all members first looks only. -/
theorem ends_rosters {targets : List Coverage} {found : List (Coverage × Roster)} :
    (targets.mapM fun coverage => do
      let roster ← membersNow root coverage
      pure (coverage, roster)).Ends before found after ↔
      before = after ∧ found.map Prod.fst = targets ∧
        ∀ entry ∈ found, entry.1.members before root = .ok entry.2 := by
  induction targets generalizing found with
  | nil =>
      rw [Action.ends_mapM_nil, List.map_eq_nil_iff]
      constructor
      · rintro ⟨rfl, rfl⟩
        exact ⟨rfl, rfl, by simp⟩
      · rintro ⟨rfl, rfl, -⟩
        exact ⟨rfl, rfl⟩
  | cons coverage rest ih =>
      simp only [Action.ends_mapM_cons, Action.ends_bind, ends_membersNow, Action.ends_pure]
      constructor
      · rintro ⟨_, others, _, ⟨roster, _, ⟨hroster, rfl⟩, rfl, rfl⟩, hothers, rfl⟩
        obtain ⟨rfl, rfl, hall⟩ := ih.mp hothers
        exact ⟨rfl, rfl, List.forall_mem_cons.mpr ⟨hroster, hall⟩⟩
      · rintro ⟨rfl, hmap, hall⟩
        obtain ⟨entry, others, rfl, rfl, rfl⟩ := List.map_eq_cons_iff.mp hmap
        rw [List.forall_mem_cons] at hall
        exact ⟨entry, others, before, ⟨entry.2, before, ⟨hall.1, rfl⟩, rfl, rfl⟩,
          ih.mpr ⟨rfl, rfl, hall.2⟩, rfl⟩

theorem ends_placeholders {targets : List Coverage} {results : List Path} {first : Disk} :
    (targets.mapM (putPlaceholder root)).Ends before results after ↔
      results = targets.map (Coverage.artifactPath · root) ∧
        Inscribed scheme none root first before targets after := by
  induction targets generalizing before results with
  | nil =>
      rw [Action.ends_mapM_nil]
      refine and_congr_right fun _ => ⟨?_, ?_⟩
      · rintro rfl
        exact .nil
      · rintro ⟨⟩
        rfl
  | cons coverage rest ih =>
      simp only [Action.ends_mapM_cons, ends_putPlaceholder, ih]
      constructor
      · rintro ⟨_, _, middle, ⟨rfl, hwrite⟩, ⟨rfl, hrest⟩, rfl⟩
        exact ⟨rfl, .cons rfl hwrite hrest⟩
      · rintro ⟨rfl, hwrite⟩
        cases hwrite with
        | cons hcontent hwrite hrest =>
            cases hcontent
            exact ⟨_, _, _, ⟨rfl, hwrite⟩, ⟨rfl, hrest⟩, rfl⟩

theorem ends_signatures (hS : scheme.Streams) {found : List (Coverage × Roster)}
    {results : List Path} {first : Disk}
    (hmembers : ∀ entry ∈ found, entry.1.members first root = .ok entry.2) :
    (found.mapM fun entry => putSigned scheme root seed entry.1 entry.2).Ends before results after ↔
      results = (found.map Prod.fst).map (Coverage.artifactPath · root) ∧
        Inscribed scheme (some seed) root first before (found.map Prod.fst) after := by
  induction found generalizing before results with
  | nil =>
      rw [Action.ends_mapM_nil]
      refine and_congr_right fun _ => ⟨?_, ?_⟩
      · rintro rfl
        exact .nil
      · rintro ⟨⟩
        rfl
  | cons entry rest ih =>
      rw [List.forall_mem_cons] at hmembers
      simp only [Action.ends_mapM_cons, ends_putSigned hS, ih hmembers.2]
      constructor
      · rintro ⟨_, _, middle, ⟨rfl, held, hheld, hwrite⟩, ⟨rfl, hrest⟩, rfl⟩
        exact ⟨rfl, .cons ⟨entry.2, held, hmembers.1, hheld, rfl⟩ hwrite hrest⟩
      · rintro ⟨rfl, hwrite⟩
        cases hwrite with
        | cons hcontent hwrite hrest =>
            obtain ⟨roster, held, hroster, hheld, rfl⟩ := hcontent
            rw [hmembers.1, Except.ok.injEq] at hroster
            subst hroster
            exact ⟨_, _, _, ⟨rfl, held, hheld, hwrite⟩, ⟨rfl, hrest⟩, rfl⟩

/-- Members have been found for whatever was signed. -/
theorem Inscribed.exists_found {first : Disk} {targets : List Coverage}
    (h : Inscribed scheme (some seed) root first before targets after) :
    ∃ found : List (Coverage × Roster), found.map Prod.fst = targets ∧
      ∀ entry ∈ found, entry.1.members first root = .ok entry.2 := by
  induction h with
  | nil => exact ⟨[], rfl, List.forall_mem_nil _⟩
  | @cons _ _ _ coverage _ _ hcontent _ _ ih =>
      obtain ⟨roster, held, hroster, -⟩ := hcontent
      obtain ⟨found, rfl, hmembers⟩ := ih
      exact ⟨(coverage, roster) :: found, rfl, List.forall_mem_cons.mpr ⟨hroster, hmembers⟩⟩

/-- **The signatures of the architectures are written in turn**, from the members found at the
start. -/
theorem ends_putArchitectures (hS : scheme.Streams) {targets : List Coverage}
    {results : List Path} :
    (putArchitectures scheme root seed? targets).Ends before results after ↔
      results = targets.map (Coverage.artifactPath · root) ∧
        Inscribed scheme seed? root before before targets after := by
  cases seed? with
  | none => exact ends_placeholders
  | some seed =>
      simp only [putArchitectures, Action.ends_bind, ends_rosters]
      constructor
      · rintro ⟨found, _, ⟨rfl, rfl, hmembers⟩, hends⟩
        exact (ends_signatures hS hmembers).mp hends
      · rintro ⟨rfl, hwrites⟩
        obtain ⟨found, rfl, hmembers⟩ := hwrites.exists_found
        exact ⟨found, before, ⟨rfl, rfl, hmembers⟩,
          (ends_signatures hS hmembers).mpr ⟨rfl, hwrites⟩⟩

/-! ## Whole runs -/

/-- **The phases of writing**, each from the disk that the one before it leaves. -/
structure Writes (scheme : SignatureScheme) (root : Path) (layout : Layout) (seed? : Option Seed)
    (before signed listed whole after : Disk) (paths : List Path) (count : Nat) : Prop where
  architectures : ∃ targets, layout.architectureCoverages = .ok targets ∧
    Inscribed scheme seed? root before before targets signed ∧
    paths = (targets ++ [layout.treeCoverage]).map (Coverage.artifactPath · root)
  sidecars : ∃ others, (Sidecar.writeAll root [layout.treeArtifact]).Ends signed others listed ∧
    count = others + 1
  tree : ∃ content, Inscription scheme seed? root listed listed layout.treeCoverage content ∧
    listed.write (layout.treeCoverage.artifactPath root) content = .ok whole
  last : ∃ path, (Sidecar.write (layout.treeCoverage.artifactPath root)).Ends whole path after

theorem ends_writeAll (hS : scheme.Streams) {layout : Layout} {paths : List Path} {count : Nat} :
    (writeAll scheme root layout seed?).Ends before (paths, count) after ↔
      ∃ signed listed whole,
        Writes scheme root layout seed? before signed listed whole after paths count := by
  unfold writeAll
  simp only [Action.ends_bind, Action.ends_ofExcept, mapError_eq_ok_iff, Action.ends_pure,
    ends_putArchitectures hS, ends_putTree hS]
  constructor
  · rintro ⟨targets, _, ⟨htargets, rfl⟩, _, signed, ⟨rfl, hsigned⟩, others, listed, hlisted, _,
      whole, ⟨rfl, htree⟩, path, _, hlast, heq, rfl⟩
    obtain ⟨rfl, rfl⟩ := Prod.mk.inj heq
    exact ⟨signed, listed, whole, ⟨targets, htargets, hsigned, by rw [List.map_append]; rfl⟩,
      ⟨others, hlisted, rfl⟩, htree, ⟨path, hlast⟩⟩
  · rintro ⟨signed, listed, whole, ⟨targets, htargets, hsigned, rfl⟩, ⟨others, hlisted, rfl⟩, htree,
      ⟨path, hlast⟩⟩
    exact ⟨targets, before, ⟨htargets, rfl⟩, _, signed, ⟨rfl, hsigned⟩, others, listed, hlisted, _,
      whole, ⟨rfl, htree⟩, path, after, hlast, by rw [List.map_append]; rfl, rfl⟩

/-- Whether a run with this key makes signatures. -/
def outcomeOf (scheme : SignatureScheme) : Except KeyProblem Seed → Outcome
  | .ok seed => .signed (scheme.publicKey seed)
  | .error problem => .unsigned problem

/-- **The phases of a run**: the layout is checked, and everything is written. -/
structure Phases (scheme : SignatureScheme) (root : Path) (layout : Layout)
    (key : Except KeyProblem Seed) (before signed listed whole after : Disk) (report : Report) :
    Prop extends Writes scheme root layout key.toOption before signed listed whole after
      report.artifacts report.sidecars where
  check : layout.check = .ok ()
  outcome : report.outcome = outcomeOf scheme key

/-- A run goes through all phases, with a key or without. -/
theorem ends_withKey (hS : scheme.Streams) {layout : Layout} {key : Except KeyProblem Seed}
    {report : Report} :
    (withKey scheme root layout key).Ends before report after ↔
      ∃ signed listed whole,
        Phases scheme root layout key before signed listed whole after report := by
  have hends : (withKey scheme root layout key).Ends before report after ↔
      layout.check = .ok () ∧ report.outcome = outcomeOf scheme key ∧
        (writeAll scheme root layout key.toOption).Ends before (report.artifacts, report.sidecars)
          after := by
    unfold withKey
    cases key with
    | ok seed =>
        simp only [Action.ends_bind, Action.ends_ofExcept, mapError_eq_ok_iff, Action.ends_pure]
        constructor
        · rintro ⟨⟨⟩, _, ⟨hcheck, rfl⟩, ⟨paths, count⟩, _, hwrites, rfl, rfl⟩
          exact ⟨hcheck, rfl, hwrites⟩
        · rintro ⟨hcheck, houtcome, hwrites⟩
          exact ⟨(), before, ⟨hcheck, rfl⟩, _, after, hwrites,
            congrArg (Report.mk · report.artifacts report.sidecars) houtcome.symm, rfl⟩
    | error problem =>
        simp only [Action.ends_bind, Action.ends_ofExcept, mapError_eq_ok_iff, Action.ends_tell,
          Action.ends_pure]
        constructor
        · rintro ⟨⟨⟩, _, ⟨hcheck, rfl⟩, ⟨⟩, _, rfl, ⟨paths, count⟩, _, hwrites, rfl, rfl⟩
          exact ⟨hcheck, rfl, hwrites⟩
        · rintro ⟨hcheck, houtcome, hwrites⟩
          exact ⟨(), before, ⟨hcheck, rfl⟩, (), before, rfl, _, after, hwrites,
            congrArg (Report.mk · report.artifacts report.sidecars) houtcome.symm, rfl⟩
  rw [hends, ends_writeAll hS]
  constructor
  · rintro ⟨hcheck, houtcome, signed, listed, whole, hwrites⟩
    exact ⟨signed, listed, whole, hwrites, hcheck, houtcome⟩
  · rintro ⟨signed, listed, whole, hwrites, hcheck, houtcome⟩
    exact ⟨hcheck, houtcome, signed, listed, whole, hwrites⟩

end Sealing

end PackageSeal
