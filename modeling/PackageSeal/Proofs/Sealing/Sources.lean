import PackageSeal.Proofs.Sealing.Covered
import PackageSeal.Proofs.Sealing.Digests

/-!
# What becomes of the sources

A valid layout has no source where a signature is written. It may have one where a sidecar is
written, though: a source that is called like the sidecar of another file is signed with what it
held before the run, and holds the checksum of that file after it (`sources_kept`,
`source_overwritten`).
-/

namespace PackageSeal

/-- The place is where the sidecar of a file below the root belongs, and the file has this
content. -/
def Sidecar.Belongs (disk : Disk) (root : Path) (place : Location) (content : Bytes) : Prop :=
  ∃ front name, isMarkedName name = false ∧
    disk.FileBelow root (Path.names (front ++ [name])) content ∧
    place = Path.names (front ++ [name ++ suffix])

namespace Sealing

variable {scheme : SignatureScheme} {key : Except KeyProblem Seed} {seed : Seed}
  {before after : Disk} {root : Path} {layout : Layout} {report : Report} {loc : Location}
  {coverages : List Coverage}

namespace Furnished

/-- All signatures can be read after a run. -/
theorem exists_read (h : Furnished scheme key root layout coverages loc before after report)
    {coverage : Coverage} (hcoverage : coverage ∈ coverages ++ [layout.treeCoverage]) :
    ∃ content, after.read (coverage.artifactPath root) = .ok content := by
  rw [List.mem_append, List.mem_singleton] at hcoverage
  cases hcoverage with
  | inl hmem =>
      obtain ⟨content, -, hread⟩ := h.inscriptions coverage hmem
      exact ⟨content, hread⟩
  | inr heq =>
      obtain ⟨content, -, hread⟩ := h.treeInscription
      exact ⟨content, heq ▸ hread⟩

/-- The files that get a sidecar are all there after the run. -/
theorem exists_file (hvalid : layout.Valid coverages)
    (h : Furnished scheme key root layout coverages loc before after report) {texts : List String}
    (hsubject : Sidecar.IsSubject texts)
    (hfile : (∃ content, before.at? (loc ++ Path.names texts) = some (.file content)) ∨
      IsOutput loc layout.outputs (loc ++ Path.names texts)) :
    ∃ content, after.at? (loc ++ Path.names texts) = some (.file content) := by
  by_cases houtput : IsOutput loc layout.outputs (loc ++ Path.names texts)
  · obtain ⟨name, hname, heq⟩ := houtput
    obtain rfl : texts = [name] := Path.names_inj (List.append_cancel_left heq)
    rw [hvalid.outputs_eq_map] at hname
    obtain ⟨coverage, hcoverage, rfl⟩ := List.mem_map.mp hname
    obtain ⟨content, hread⟩ := h.exists_read hcoverage
    exact ⟨content,
      (h.after_rooted.stores_descend hsubject.ne_nil hsubject.isName hread).at?_eq⟩
  · obtain ⟨content, hat⟩ := hfile.resolve_right houtput
    refine ⟨content, ?_⟩
    rw [h.differs.at?_eq ?_, hat]
    rintro (hsignature | ⟨others, hother, -, heq⟩)
    · exact houtput hsignature
    · exact hsubject.ne_beside hother.ne_nil heq

/-- What a run writes but signatures are the sidecars of the files that are there after it. -/
theorem exists_belongs (hvalid : layout.Valid coverages)
    (h : Furnished scheme key root layout coverages loc before after report) {place : Location}
    (hplace : ¬ IsOutput loc layout.outputs (loc ++ place))
    (hproduct : IsProduct before loc layout.outputs (loc ++ place)) :
    ∃ content, Sidecar.Belongs after root place content := by
  obtain ⟨texts, hsubject, hfile, heq⟩ := hproduct.resolve_left hplace
  obtain ⟨content, hat⟩ := h.exists_file hvalid hsubject hfile
  obtain ⟨front, name, rfl, hunmarked⟩ := hsubject.unmarked
  rw [Sidecar.beside_concat] at heq
  exact ⟨content, front, name, hunmarked, h.after_rooted.fileBelow_iff.mpr hat,
    List.append_cancel_left heq⟩

/-- A source where a sidecar belongs holds the checksum after the run. -/
theorem read_of_belongs (h : Furnished scheme key root layout coverages loc before after report)
    {member : Member} (hinside : Layout.staysInside member.source = true) {held content : Bytes}
    (hread : before.read (root.join member.source) = .ok held)
    (hbelongs : Sidecar.Belongs after root member.place content) :
    after.read (root.join member.source) = .ok (Sidecar.digest content) := by
  obtain ⟨front, name, hunmarked, hfile, hplace⟩ := hbelongs
  have hat := h.after_rooted.fileBelow_iff.mp (h.fileBelow_beside hfile hunmarked)
  rw [← hplace] at hat
  have hstores := h.before_rooted.stores_source hinside hread
  exact Disk.read_eq_ok_iff.mpr
    ⟨_, hstores.leads.of_sameShape h.differs.shape (by rw [hat]; simp), hat⟩

/-- A source that no signature overwrites is kept where no sidecar belongs. -/
theorem read_of_not_belongs (hvalid : layout.Valid coverages)
    (h : Furnished scheme key root layout coverages loc before after report) {member : Member}
    (hinside : Layout.staysInside member.source = true)
    (hover : Layout.isOverwritten layout.outputs member.source = false) {held : Bytes}
    (hread : before.read (root.join member.source) = .ok held)
    (hnone : ∀ content, ¬ Sidecar.Belongs after root member.place content) :
    after.read (root.join member.source) = .ok held := by
  have hstores := h.before_rooted.stores_source hinside hread
  refine (h.differs.stores hstores fun hproduct => ?_).read
  obtain ⟨content, hbelongs⟩ :=
    h.exists_belongs hvalid (not_isOutput_place hinside hover) hproduct
  exact hnone content hbelongs

end Furnished

/-- **What becomes of the sources.** A run with a key signs for every architecture what the sources
of its members held before. After it, a source where the sidecar of a file belongs holds the
checksum of this file; and a source still holds what was signed if and only if this already was the
checksum, or no sidecar belongs there. -/
theorem sources_kept (hS : scheme.Streams) (hw : before.WellFormed) (hlinks : before.NoLinks root)
    (hends : (withKey scheme root layout (.ok seed)).Ends before report after) :
    ∀ arch ∈ layout.architectures, ∃ members entries, layout.membersOf arch = .ok members ∧
      SignedOver scheme seed after root arch.artifact entries ∧
      List.Forall₂ (fun member entry => member.name = entry.1 ∧
        before.read (root.join member.source) = .ok entry.2 ∧
        (∀ content, Sidecar.Belongs after root member.place content →
          after.read (root.join member.source) = .ok (Sidecar.digest content)) ∧
        (after.read (root.join member.source) = .ok entry.2 ↔
          ∀ content, Sidecar.Belongs after root member.place content →
            entry.2 = Sidecar.digest content)) members entries := by
  intro arch harch
  obtain ⟨coverages, loc, hvalid, hsealed⟩ := sealed_of_ends hS hw hlinks hends
  obtain ⟨coverage, hcoverage, hof⟩ :=
    exists_right_of_forall₂ (mapM_eq_ok_iff.mp hvalid.coverages_eq) harch
  obtain ⟨members, hmembers, rfl, hrules⟩ := Layout.coverageOf_eq_ok hof
  obtain ⟨held, hholds, hread⟩ := hsealed.runtime _ hcoverage
  obtain ⟨entries, hentries, hsigned⟩ := signedOver_of_listed hholds hread
  refine ⟨members, entries, hmembers, hsigned, forall₂_imp_of_mem ?_ hentries⟩
  rintro member hmember entry ⟨hname, hbefore⟩
  obtain ⟨hinside, hover⟩ := hrules member hmember
  have hdigest : ∀ content, Sidecar.Belongs after root member.place content →
      after.read (root.join member.source) = .ok (Sidecar.digest content) :=
    fun content => hsealed.read_of_belongs hinside hbefore
  refine ⟨hname, hbefore, hdigest, fun hkept content hbelongs => ?_, fun hsame => ?_⟩
  · have heq := hdigest content hbelongs
    rwa [hkept, Except.ok.injEq] at heq
  · by_cases hnone : ∃ content, Sidecar.Belongs after root member.place content
    · obtain ⟨content, hbelongs⟩ := hnone
      rw [hdigest content hbelongs, hsame content hbelongs]
    · rw [not_exists] at hnone
      exact hsealed.read_of_not_belongs hvalid hinside hover hbefore hnone

section Small

/-- What is signed of one member alone. -/
theorem entries_eq_singleton {disk : Disk} {member : Member} {content : Bytes}
    {entries : List (MemberName × Bytes)}
    (hread : disk.read (root.join member.source) = .ok content)
    (h : List.Forall₂ (fun member entry => member.name = entry.1 ∧
      disk.read (root.join member.source) = .ok entry.2) [member] entries) :
    entries = [(member.name, content)] := by
  cases h with
  | @cons _ entry _ _ hentry hrest =>
      cases hrest
      have hsame : entry = (member.name, content) :=
        Prod.ext hentry.1.symm (Except.ok.inj (hentry.2.symm.trans hread))
      rw [hsame]

/-- The member of the small package is kept: no sidecar is called like it. -/
theorem sources_kept_small : ∃ report after,
    (withKey Ed25519.scheme ⟨"."⟩ small (.ok smallSeed)).Ends (smallDisk [] [] [] [] [])
      report after ∧
    SignedOver Ed25519.scheme smallSeed after ⟨"."⟩ "s" [(MemberName.a, [1])] ∧
    after.read ⟨"./a"⟩ = .ok [1] := by
  have hstreams := Ed25519.scheme_streams
  obtain ⟨report, after, hends⟩ := small_ends [] [] [] [] [] hstreams
  obtain ⟨members, entries, hmembers, hsigned, hentries⟩ := sources_kept hstreams
    (smallDisk_wellFormed [] [] [] [] []) (smallDisk_noLinks [] [] [] [] [] ⟨"."⟩) hends _
    List.mem_cons_self
  obtain rfl : [Member.a] = members := Except.ok.inj hmembers
  have hone : (smallDisk [] [] [] [] []).read (Path.join ⟨"."⟩ ⟨"a"⟩) = .ok [1] := rfl
  obtain rfl := entries_eq_singleton hone (hentries.imp fun _ _ hentry => ⟨hentry.1, hentry.2.1⟩)
  obtain ⟨⟨-, -, -, hkept⟩, -⟩ := List.forall₂_cons.mp hentries
  refine ⟨report, after, hends, hsigned, hkept.mpr ?_⟩
  rintro content ⟨front, name, -, -, hplace⟩
  have htexts : [] ++ ["a"] = front ++ [name ++ Sidecar.suffix] := Path.names_inj hplace
  have hmarked : Sidecar.isMarkedName "a" = true :=
    Sidecar.isMarkedName_iff.mpr ⟨name, (List.append_singleton_inj.mp htexts).2⟩
  cases hmarked

/-- A layout for the small package where the member is what should be the sidecar of a file. -/
def smallMarked : Layout :=
  ⟨"t", ["a.sha256"], [], [⟨"x86", "s", .thirtyTwo⟩]⟩

/-- **A source can be overwritten.** The layout keeps its rules and there is no link, but after the
run the source does not hold what was signed. -/
theorem source_overwritten : smallMarked.check = .ok () ∧
    (smallDisk [2] [] [] [] []).WellFormed ∧ (smallDisk [2] [] [] [] []).NoLinks ⟨"."⟩ ∧
    ∃ name report after,
      smallMarked.membersOf ⟨"x86", "s", .thirtyTwo⟩ = .ok [⟨name, ⟨"a.sha256"⟩⟩] ∧
      (withKey Ed25519.scheme ⟨"."⟩ smallMarked (.ok smallSeed)).Ends (smallDisk [2] [] [] [] [])
        report after ∧
      SignedOver Ed25519.scheme smallSeed after ⟨"."⟩ "s" [(name, [2])] ∧
      after.read (Path.join ⟨"."⟩ ⟨"a.sha256"⟩) = .ok (Sidecar.digest [1]) ∧
      Sidecar.digest [1] ≠ [2] := by
  have hstreams := Ed25519.scheme_streams
  have hwell := smallDisk_wellFormed [2] [] [] [] []
  have hlinks := smallDisk_noLinks [2] [] [] [] [] ⟨"."⟩
  obtain ⟨name, hmembers, hcoverages⟩ : ∃ name : MemberName,
      smallMarked.membersOf ⟨"x86", "s", .thirtyTwo⟩ = .ok [⟨name, ⟨"a.sha256"⟩⟩] ∧
      smallMarked.architectureCoverages =
        .ok [.ofArchitecture ⟨"x86", "s", .thirtyTwo⟩ [⟨name, ⟨"a.sha256"⟩⟩]] :=
    ⟨⟨"a.sha256", by decide, by decide, by decide, rfl⟩, rfl, rfl⟩
  have hstored : ∀ aSum s sSum t tSum,
      (smallDisk aSum s sSum t tSum).read (Path.join ⟨"."⟩ ⟨"a.sha256"⟩) = .ok aSum :=
    fun _ _ _ _ _ => rfl
  have hholds : Coverage.Holds (.ofArchitecture ⟨"x86", "s", .thirtyTwo⟩ [⟨name, ⟨"a.sha256"⟩⟩])
      (smallDisk [2] [] [] [] []) ⟨"."⟩ [(name, [2])] :=
    Coverage.holds_listed_iff.mpr ⟨List.pairwise_singleton _ _, _,
      .cons ⟨rfl, hstored [2] [] [] [] []⟩ .nil, .refl _⟩
  obtain ⟨_, _, hends⟩ := small_furnished_of [2] [] [] [] [] hstreams (.ok smallSeed) rfl
    hcoverages rfl hholds
  refine ⟨rfl, hwell, hlinks, name, _, _, hmembers, hends, ?_,
    hstored (Sidecar.digest [1]) _ _ _ _, ?_⟩
  · obtain ⟨coverages, loc, hvalid, hsealed⟩ := sealed_of_ends hstreams hwell hlinks hends
    have hsame := hvalid.coverages_eq
    rw [hcoverages, Except.ok.injEq] at hsame
    obtain ⟨held, hheld, hread⟩ := hsealed.runtime _ (hsame ▸ List.mem_cons_self)
    obtain ⟨entries, hentries, hsigned⟩ := signedOver_of_listed hheld hread
    rwa [entries_eq_singleton (hstored [2] [] [] [] []) hentries] at hsigned
  · -- A checksum has 64 digits.
    intro heq
    have hlength := congrArg List.length heq
    rw [Sidecar.digest, length_utf8, Checksum.utf8ByteSize_text] at hlength
    cases hlength

end Small

end Sealing

end PackageSeal
