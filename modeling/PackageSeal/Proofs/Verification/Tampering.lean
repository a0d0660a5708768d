import PackageSeal.Proofs.Disk.Flat
import PackageSeal.Proofs.Schemes
import PackageSeal.Proofs.Verification.Signatures

/-!
# Tampering

What two disks have in common on which one signature file is verified (`tamper_evident`). Unless the
signature is valid for two messages, what the signature covers is the same on both: because the
canonical stream can be taken apart in one way only, the named contents are the same; and because
names tell the places, so are the files. What the signature does not cover may differ in any way.
-/

namespace PackageSeal

/-- The seal is valid for two different messages. -/
def SignatureScheme.Ambiguous (S : SignatureScheme) (mark : Seal) : Prop :=
  ∃ message message', message ≠ message' ∧ S.verifies mark.key message mark.signature = true ∧
    S.verifies mark.key message' mark.signature = true

namespace Disk

/-- No name on the way to a file below the root holds a backslash. -/
def NoBackslash (disk : Disk) (root : Path) : Prop :=
  ∀ loc content, disk.FileBelow root loc content → ∀ name ∈ loc, (92 : UInt8) ∉ name.bytes

/-- Every file has a size that a frame can hold. -/
def FilesFit (disk : Disk) : Prop :=
  ∀ loc content, disk.at? loc = some (.file content) → Frame.Fits content

end Disk

namespace Coverage

variable {disk disk' : Disk} {root : Path} {coverage : Coverage}

/-- What the coverage covers is the same on both disks: the contents of the listed sources, or all
regular files but those called like the signature or its sidecar. -/
def Agrees (coverage : Coverage) (root : Path) (disk disk' : Disk) : Prop :=
  match coverage.scope with
  | .listed _ listed => ∀ member ∈ listed, ∃ content,
      disk.read (root.join member.source) = .ok content ∧
      disk'.read (root.join member.source) = .ok content
  | .tree => disk.NoBackslash root → disk'.NoBackslash root →
      ∀ loc content, ¬ IsOwn coverage.artifact loc →
        (disk.FileBelow root loc content ↔ disk'.FileBelow root loc content)

/-- What a coverage holds fits into frames where all files do. -/
theorem Holds.fits {held : List (MemberName × Bytes)} (h : coverage.Holds disk root held)
    (hfit : disk.FilesFit) : ∀ entry ∈ held, Frame.Fits entry.2 := by
  obtain ⟨roster, -, hheld⟩ := h
  have hroster : Frame.RosterFits disk roster := by
    intro member _ content hread
    obtain ⟨loc, -, hat⟩ := Disk.read_eq_ok_iff.mp hread
    exact hfit loc content hat
  exact hroster.holdings hheld

/-- Members with the same names and contents have sources with the same contents. -/
theorem agrees_of_holds_listed {artifact : String} {arch : Architecture} {listed : List Member}
    {held : List (MemberName × Bytes)}
    (h : Holds ⟨artifact, .listed arch listed⟩ disk root held)
    (h' : Holds ⟨artifact, .listed arch listed⟩ disk' root held) :
    Agrees ⟨artifact, .listed arch listed⟩ root disk disk' := by
  obtain ⟨hascending, pairs, hpairs, hperm⟩ := holds_listed_iff.mp h
  obtain ⟨-, pairs', hpairs', hperm'⟩ := holds_listed_iff.mp h'
  intro member hmember
  obtain ⟨entry, hentry, hname, hread⟩ := exists_right_of_forall₂ hpairs hmember
  obtain ⟨entry', hentry', hname', hread'⟩ := exists_right_of_forall₂ hpairs' hmember
  -- Both entries have the name of the member, and a name stands in one entry only.
  have hmem := hperm.mem_iff.mpr hentry
  have hmem' := hperm'.mem_iff.mpr hentry'
  have hnodup : (held.map Prod.fst).Nodup := by
    rw [List.nodup_iff_pairwise_ne, List.pairwise_map]
    refine hascending.imp fun {a b} hlt heq => ?_
    rw [heq] at hlt
    exact MemberName.lt_irrefl _ hlt
  obtain rfl : entry = entry' :=
    List.inj_on_of_nodup_map hnodup hmem hmem' (hname.symm.trans hname')
  exact ⟨entry.2, hread, hread'⟩

/-- A file that is covered on one disk is there on every disk where the coverage holds the same. -/
theorem fileBelow_of_holds_tree (hw : disk.WellFormed) (hw' : disk'.WellFormed) {artifact : String}
    {held : List (MemberName × Bytes)} (h : Holds ⟨artifact, .tree⟩ disk root held)
    (h' : Holds ⟨artifact, .tree⟩ disk' root held) (hback : disk.NoBackslash root)
    (hback' : disk'.NoBackslash root) {loc : Location} {content : Bytes}
    (hown : ¬ IsOwn artifact loc) (hfile : disk.FileBelow root loc content) :
    disk'.FileBelow root loc content := by
  obtain ⟨-, start, places, pairs, hleads, hdir, hwalk, hcensus, hpairs, hperm⟩ :=
    (holds_tree_iff hw).mp h
  obtain ⟨-, start', places', pairs', hleads', hdir', -, hcensus', hpairs', hperm'⟩ :=
    (holds_tree_iff hw').mp h'
  obtain ⟨other, hother, hat⟩ := id hfile
  obtain rfl := hleads.unique hother
  obtain ⟨texts, rfl, htexts⟩ := hwalk.names hw hat
  -- The file is an entry of what is held on the first disk,
  have hplace := (hcensus.mem_iff texts content).mpr ⟨htexts, hown, hat⟩
  obtain ⟨entry, hentry, hname, hread⟩ := exists_right_of_forall₂ hpairs hplace
  have hcontent := (Disk.read_descend hw hleads hdir htexts hat hread).2
  -- and that entry is some file on the second.
  have hentry' := hperm'.mem_iff.mp (hperm.mem_iff.mpr hentry)
  obtain ⟨⟨texts', content'⟩, hplace', hname', hread'⟩ := exists_left_of_forall₂ hpairs' hentry'
  obtain ⟨htexts', -, hat'⟩ := (hcensus'.mem_iff texts' content').mp hplace'
  have hcontent' := (Disk.read_descend hw' hleads' hdir' htexts' hat' hread').2
  have hplain : ∀ {d : Disk} {start : Location} {texts : List String} {content : Bytes},
      d.NoBackslash root → d.Leads root start →
      d.at? (start ++ Path.names texts) = some (.file content) →
      ∀ text ∈ texts, '\\' ∉ text.toList := by
    intro d start texts content hback hleads hat text htext hmem
    have hname := hback _ _ ⟨start, hleads, hat⟩ (.utf8 text) (List.mem_map_of_mem htext)
    exact hname ((mem_utf8_iff (c := '\\') (by decide)).mpr hmem)
  have heq : texts = texts' :=
    MemberName.ofTexts_inj (Disk.texts_ne_nil hdir hat) (Disk.texts_ne_nil hdir' hat')
      htexts htexts' (hplain hback hleads hat) (hplain hback' hleads' hat') hname hname'
  subst heq
  exact ⟨start', hleads', by rw [hat', ← hcontent', hcontent]⟩

/-- **Coverages that hold the same cover the same.** -/
theorem agrees_of_holds (hw : disk.WellFormed) (hw' : disk'.WellFormed)
    {held : List (MemberName × Bytes)} (h : coverage.Holds disk root held)
    (h' : coverage.Holds disk' root held) : coverage.Agrees root disk disk' := by
  obtain ⟨artifact, scope⟩ := coverage
  cases scope with
  | listed arch listed => exact agrees_of_holds_listed h h'
  | tree =>
      intro hback hback' loc content hown
      exact ⟨fileBelow_of_holds_tree hw hw' h h' hback hback' hown,
        fileBelow_of_holds_tree hw' hw h' h hback' hback hown⟩

end Coverage

namespace Verification

variable {scheme : SignatureScheme} {disk disk' : Disk} {root : Path} {coverage : Coverage}

/-- **Signatures make tampering evident, and nothing else matters to them.** On two disks where a
signature file holds the same: if the signature is verified on both, then what it covers is the same
on both, unless its seal is valid for two different messages; and if the coverage holds the same
named contents on both, then the result of checking it is the same, whatever else differs. -/
theorem tamper_evident (hw : disk.WellFormed) (hw' : disk'.WellFormed) (hfit : disk.FilesFit)
    (hfit' : disk'.FilesFit) (pinned : Option PublicKey)
    (hartifact : disk.read (coverage.artifactPath root) =
      disk'.read (coverage.artifactPath root)) :
    (∀ key key',
      (checkCoverage scheme disk root coverage pinned).outcome = .ok (.verified key) →
      (checkCoverage scheme disk' root coverage pinned).outcome = .ok (.verified key') →
      (∃ held, coverage.Holds disk root held ∧ coverage.Holds disk' root held ∧
        coverage.Agrees root disk disk') ∨
      ∃ mark : Seal, disk.read (coverage.artifactPath root) = .ok mark.octets ∧
        scheme.Ambiguous mark) ∧
    ∀ held, coverage.Holds disk root held → coverage.Holds disk' root held →
      (checkCoverage scheme disk root coverage pinned).outcome =
        (checkCoverage scheme disk' root coverage pinned).outcome := by
  constructor
  · intro key key' h h'
    obtain ⟨mark, held, hread, -, -, hheld, hverifies, -⟩ := checkCoverage_eq_verified_iff.mp h
    obtain ⟨mark', held', hread', -, -, hheld', hverifies', -⟩ :=
      checkCoverage_eq_verified_iff.mp h'
    obtain rfl : mark' = mark := by
      rw [hartifact, hread', Except.ok.injEq] at hread
      exact Seal.octets_injective hread
    by_cases hstream : Frame.canonical held = Frame.canonical held'
    · have heq : held = held' :=
        (Frame.canonical_inj (hheld.fits hfit) (hheld'.fits hfit')).mp hstream
      subst heq
      exact .inl ⟨held, hheld, hheld', Coverage.agrees_of_holds hw hw' hheld hheld'⟩
    · exact .inr ⟨_, hread, _, _, hstream, hverifies, hverifies'⟩
  · intro held hheld hheld'
    rw [outcome_checkCoverage hheld, outcome_checkCoverage hheld', readArtifact, readArtifact,
      hartifact]

/-- A coverage of one listed file. -/
def lone : Coverage :=
  ⟨"s", .listed ⟨"x86", "s", .thirtyTwo⟩ [Member.a]⟩

/-- The named contents of the listed file. -/
def loneHeld : List (MemberName × Bytes) :=
  [(MemberName.a, [1])]

/-- A disk with the listed file, a file beside it and a signature over the first. -/
def loneDisk (beside : Bytes) (mark : Seal) : Disk :=
  .flat [("a", [1]), ("b", beside), ("s", mark.octets)]

theorem loneDisk_wellFormed (beside : Bytes) (mark : Seal) : (loneDisk beside mark).WellFormed :=
  Disk.flat_wellFormed ["a", "b", "s"] rfl (by decide) (by decide)

theorem loneDisk_filesFit {beside : Bytes} (hbeside : Frame.Fits beside) (mark : Seal) :
    (loneDisk beside mark).FilesFit := by
  intro loc content hat
  obtain ⟨-, heq⟩ | ⟨file, hfile, -, heq⟩ := Disk.at?_flat_eq_some hat
  · cases heq
  · cases heq
    simp only [List.mem_cons, List.not_mem_nil, or_false] at hfile
    rcases hfile with rfl | rfl | rfl
    · decide
    · exact hbeside
    · simp [Frame.Fits, UInt64.size]

/-- A file beside the covered one was changed: the signature is verified before and after. -/
theorem tamper_evident_beside :
    ∃ (key : PublicKey) (mark : Seal),
      (checkCoverage Ed25519.scheme.completed (loneDisk [] mark) ⟨"."⟩ lone none).outcome =
        .ok (.verified key) ∧
      (checkCoverage Ed25519.scheme.completed (loneDisk [2] mark) ⟨"."⟩ lone none).outcome =
        .ok (.verified key) ∧
      ((∃ held, lone.Holds (loneDisk [] mark) ⟨"."⟩ held ∧
          lone.Holds (loneDisk [2] mark) ⟨"."⟩ held ∧
          lone.Agrees ⟨"."⟩ (loneDisk [] mark) (loneDisk [2] mark)) ∨
        ∃ mark', (loneDisk [] mark).read ⟨"./s"⟩ = .ok (Seal.octets mark') ∧
          Ed25519.scheme.completed.Ambiguous mark') := by
  have hlawful := Ed25519.scheme_streams.completed_lawful
  let seed : Seed := ⟨List.replicate 32 0, by simp⟩
  generalize hS : Ed25519.scheme.completed = S at hlawful ⊢
  let mark : Seal := ⟨S.sign seed (Frame.canonical loneHeld), S.publicKey seed⟩
  have hverified : ∀ beside, (checkCoverage S (loneDisk beside mark) ⟨"."⟩ lone none).outcome =
      .ok (.verified (S.publicKey seed)) := by
    intro beside
    refine checkCoverage_eq_verified_iff.mpr ⟨mark, loneHeld, rfl, by simp,
      hlawful.acceptsKey_publicKey seed,
      ⟨.ofMembers [⟨⟨"a", _⟩, ⟨"./a"⟩⟩] (List.pairwise_singleton _ _), rfl, rfl⟩,
      hlawful.verifies_sign seed _, rfl⟩
  have hartifact : (loneDisk [] mark).read (lone.artifactPath ⟨"."⟩) =
      (loneDisk [2] mark).read (lone.artifactPath ⟨"."⟩) := rfl
  obtain ⟨heither, -⟩ := tamper_evident (loneDisk_wellFormed [] mark)
    (loneDisk_wellFormed [2] mark) (loneDisk_filesFit (by decide) mark)
    (loneDisk_filesFit (by decide) mark) none hartifact
  exact ⟨S.publicKey seed, mark, hverified [], hverified [2],
    heither _ _ (hverified []) (hverified [2])⟩

end Verification

end PackageSeal
