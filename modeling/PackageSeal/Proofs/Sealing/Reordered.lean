import PackageSeal.Proofs.Layout.Reordered
import PackageSeal.Proofs.Sealing.Repeated

/-!
# Sealing by a reordered layout

The signatures of the architectures are written one after the other, each into a tree that holds
those before it. But none of them is a source, so each can be written exactly if it could be written
first (`Inscribed.writable`, `exists_inscribed`), which is said without their order. Once all are
written, the disk is the same in every order (`Inscribed.reordered`), and from there the phases of
the two runs go side by side. Verification looks at each signature by itself. So the order of the
declarations shows in nothing but the order of the reports (`order_ignored`).
-/

namespace PackageSeal

open Coverage (Alike)

namespace Sealing

variable {scheme : SignatureScheme} {seed? : Option Seed} {root : Path} {layout layout' : Layout}
  {loc : Location} {first before signed after : Disk} {coverages coverages' matched : List Coverage}
  {coverage coverage' : Coverage} {names : List String} {content content' : Bytes}

/-! ## Signatures in any order -/

/-- Alike coverages are inscribed alike. -/
theorem Inscription.of_alike (h : Inscription scheme seed? root first first coverage content)
    (halike : Alike coverage coverage') :
    Inscription scheme seed? root first first coverage' content := by
  cases seed? with
  | none => exact h
  | some seed =>
      obtain ⟨held, hheld, hcontent⟩ := inscription_some_iff.mp h
      exact inscription_some_iff.mpr ⟨held, halike.holds hheld, hcontent⟩

/-- There is one thing to inscribe at most. -/
theorem Inscription.unique (h : Inscription scheme seed? root first first coverage content)
    (h' : Inscription scheme seed? root first first coverage content') : content = content' := by
  cases seed? with
  | none => exact Eq.trans h (Eq.symm h')
  | some seed =>
      obtain ⟨held, hheld, hcontent⟩ := inscription_some_iff.mp h
      obtain ⟨held', hheld', hcontent'⟩ := inscription_some_iff.mp h'
      rw [hcontent, hcontent', hheld.unique hheld']

/-- The signature of the coverage can be written: there is something to inscribe, and it can be put
where the signature belongs. -/
def Writable (scheme : SignatureScheme) (seed? : Option Seed) (root : Path) (first : Disk)
    (coverage : Coverage) : Prop :=
  ∃ content after, Inscription scheme seed? root first first coverage content ∧
    first.write (coverage.artifactPath root) content = .ok after

theorem Writable.of_alike (h : Writable scheme seed? root first coverage)
    (halike : Alike coverage coverage') : Writable scheme seed? root first coverage' := by
  obtain ⟨content, after, hcontent, hwrite⟩ := h
  refine ⟨content, after, hcontent.of_alike halike, ?_⟩
  rw [halike.artifactPath_eq]
  exact hwrite

/-- A signature that can be written on a disk can be written on every other of its shape. -/
theorem exists_write_of_sameShape {disk other : Disk} (hroot : disk.Rooted root loc)
    (hother : other.Rooted root loc) (hshape : Disk.SameShape disk other)
    (hplain : Layout.IsArtifactName coverage.artifact)
    (hwrite : disk.write (coverage.artifactPath root) content = .ok after) :
    ∃ after', other.write (coverage.artifactPath root) content = .ok after' := by
  have hpath : coverage.artifactPath root = root.descend (Path.names [coverage.artifact]) := rfl
  obtain ⟨hname, -⟩ := hroot.write_name hplain.ne_empty hplain.no_separator hwrite
  rw [hpath] at hwrite ⊢
  exact hroot.write_of_sameShape hother hshape (List.cons_ne_nil _ _)
    (List.forall_mem_singleton.mpr hname) hwrite

/-- What was written after other signatures could have been written before them, -/
theorem Inscribed.writable (h : Inscribed scheme seed? root first before coverages after)
    (hfirst : first.Rooted root loc) (hbefore : before.Rooted root loc)
    (hsofar : first.Differs (IsOutput loc names) before)
    (hlisting : ∀ coverage ∈ coverages, Listing loc names coverage) :
    ∀ coverage ∈ coverages, Writable scheme seed? root first coverage := by
  induction h with
  | nil => exact List.forall_mem_nil _
  | @cons disk middle after coverage rest content hcontent hwrite _ ih =>
      rw [List.forall_mem_cons] at hlisting ⊢
      have hplain := hlisting.1.isArtifactName
      obtain ⟨-, hover, hmiddle, -⟩ :=
        hbefore.write_name hplain.ne_empty hplain.no_separator hwrite
      have hwritten := hover.differs (isOutput_iff.mpr hlisting.1.mem)
      obtain ⟨after', hwrite'⟩ :=
        exists_write_of_sameShape hbefore hfirst hsofar.shape.symm hplain hwrite
      have hstart := (hlisting.1.inscription_iff hfirst hsofar).mp hcontent
      exact ⟨⟨content, after', hstart, hwrite'⟩, ih hmiddle (hsofar.trans hwritten) hlisting.2⟩

/-- and what can each be written first can be written one after the other. -/
theorem exists_inscribed (hfirst : first.Rooted root loc) (hbefore : before.Rooted root loc)
    (hsofar : first.Differs (IsOutput loc names) before)
    (hlisting : ∀ coverage ∈ coverages, Listing loc names coverage)
    (hwritable : ∀ coverage ∈ coverages, Writable scheme seed? root first coverage) :
    ∃ after, Inscribed scheme seed? root first before coverages after := by
  induction coverages generalizing before with
  | nil => exact ⟨before, .nil⟩
  | cons coverage rest ih =>
      rw [List.forall_mem_cons] at hlisting hwritable
      obtain ⟨content, _, hcontent, hwrite⟩ := hwritable.1
      have hplain := hlisting.1.isArtifactName
      obtain ⟨middle, hmiddle⟩ :=
        exists_write_of_sameShape hfirst hbefore hsofar.shape hplain hwrite
      obtain ⟨-, hover, hmiddleRoot, -⟩ :=
        hbefore.write_name hplain.ne_empty hplain.no_separator hmiddle
      have hwritten := hover.differs (isOutput_iff.mpr hlisting.1.mem)
      obtain ⟨after, hrest⟩ := ih hmiddleRoot (hsofar.trans hwritten) hlisting.2 hwritable.2
      exact ⟨after, .cons ((hlisting.1.inscription_iff hfirst hsofar).mpr hcontent) hmiddle hrest⟩

/-- **Signatures written in another order** leave the same disk. -/
theorem Inscribed.reordered (h : Inscribed scheme seed? root before before coverages signed)
    (hroot : before.Rooted root loc) (hvalid : layout.Valid coverages)
    (hvalid' : layout'.Valid coverages') (halike : List.Forall₂ Alike coverages matched)
    (hperm : matched.Perm coverages') :
    ∃ signed', Inscribed scheme seed? root before before coverages' signed' ∧
      signed.Rooted root loc ∧ signed'.Rooted root loc ∧
        signed.Differs (fun _ => False) signed' := by
  have hlike : ∀ coverage' ∈ coverages', ∃ coverage ∈ coverages, Alike coverage coverage' :=
    fun coverage' hmem => exists_left_of_forall₂ halike (hperm.mem_iff.mpr hmem)
  have hnames : (coverages.map Coverage.artifact).Perm (coverages'.map Coverage.artifact) := by
    rw [map_eq_map_of_forall₂ halike fun coverage coverage' hsame => hsame.artifact_eq.symm]
    exact hperm.map Coverage.artifact
  have hwritable : ∀ coverage' ∈ coverages', Writable scheme seed? root before coverage' := by
    intro coverage' hmem
    obtain ⟨coverage, hcoverage, hsame⟩ := hlike coverage' hmem
    exact (h.writable hroot hroot (Disk.Differs.refl _ _)
      (fun coverage hcoverage => listing_of_valid hvalid hcoverage)
      coverage hcoverage).of_alike hsame
  obtain ⟨signed', hsigned'⟩ := exists_inscribed hroot hroot (Disk.Differs.refl _ _)
    (fun coverage hcoverage => listing_of_valid hvalid' hcoverage) hwritable
  obtain ⟨hsignedRoot, hdiffers, hstores⟩ := after_signatures hroot hvalid h
  obtain ⟨hsignedRoot', hdiffers', hstores'⟩ := after_signatures hroot hvalid' hsigned'
  refine ⟨signed', hsigned', hsignedRoot, hsignedRoot', hdiffers.shape.symm.trans hdiffers'.shape,
    fun {place} _ => ?_⟩
  by_cases houtput : IsOutput loc (coverages'.map Coverage.artifact) place
  · obtain ⟨name, hname, rfl⟩ := houtput
    obtain ⟨coverage', hmem, rfl⟩ := List.mem_map.mp hname
    obtain ⟨coverage, hcoverage, hsame⟩ := hlike coverage' hmem
    obtain ⟨content, hcontent, hstored⟩ := hstores coverage hcoverage
    obtain ⟨content', hcontent', hstored'⟩ := hstores' coverage' hmem
    have hat := hstored.at?_eq
    rw [← hsame.artifact_eq] at hat
    rw [hstored'.at?_eq, hat, (hcontent.of_alike hsame).unique hcontent']
  · have hother : ¬ IsOutput loc (coverages.map Coverage.artifact) place :=
      fun h => houtput (h.mono hnames.subset)
    rw [hdiffers'.at?_eq houtput, hdiffers.at?_eq hother]

/-! ## Whole runs -/

/-- **Everything is written by the other layout as well**, and leaves the same disk. -/
theorem Writes.reordered {listed whole : Disk} {paths : List Path} {count : Nat}
    (hre : layout.Reordered layout') (hcheck : layout.check = .ok ())
    (hroot : before.Rooted root loc)
    (h : Writes scheme root layout seed? before signed listed whole after paths count) :
    ∃ signed' listed' whole' after' paths',
      Writes scheme root layout' seed? before signed' listed' whole' after' paths' count ∧
      paths.Perm paths' ∧ after.Differs (fun _ => False) after' := by
  obtain ⟨coverages, hcoverages, hsigned, hpaths⟩ := h.architectures
  obtain ⟨others, hlisted, hcount⟩ := h.sidecars
  obtain ⟨content, hcontent, hwrite⟩ := h.tree
  obtain ⟨path, hlast⟩ := h.last
  obtain ⟨matched, coverages', halike, hperm, hcoverages'⟩ :=
    Layout.coverages_reordered hre hcheck hcoverages
  obtain ⟨checked, hvalid⟩ := Layout.valid_of_check hcheck
  obtain rfl : checked = coverages := Except.ok.inj (hvalid.coverages_eq.symm.trans hcoverages)
  obtain ⟨checked', hvalid'⟩ := Layout.valid_of_check (Layout.check_eq_ok_iff_declared.mpr
    ((Layout.check_eq_ok_iff_declared.mp hcheck).reordered hre))
  obtain rfl : checked' = coverages' := Except.ok.inj (hvalid'.coverages_eq.symm.trans hcoverages')
  have hplain := hvalid.isArtifactName _ (tree_mem_outputs layout)
  obtain ⟨signed', hsigned', hsignedRoot, hsignedRoot', hsame⟩ :=
    hsigned.reordered hroot hvalid hvalid' halike hperm
  -- From here on both runs find and write the same.
  obtain ⟨_, listed', -, hlisted', hlistedRoot, hlistedRoot', hsecond⟩ :=
    Sidecar.writeAll_alike hsignedRoot hsignedRoot' hsame
      (List.forall_mem_singleton.mpr hplain.no_separator) (fun _ _ _ => not_false)
      (fun _ _ hpending => hpending.elim) hlisted
  obtain ⟨whole', after', hcontent', hwrite', hlast', hend⟩ :=
    tree_alike hvalid hlistedRoot hlistedRoot' (hsecond.mono fun _ hplace => hplace.1.elim) hcontent
      hwrite hlast
  rw [hre.tree] at hlisted'
  rw [← hre.treeCoverage_eq] at hcontent' hwrite' hlast'
  refine ⟨signed', listed', whole', after', _, ⟨⟨_, hcoverages', hsigned', rfl⟩,
    ⟨others, hlisted', hcount⟩, ⟨content, hcontent', hwrite'⟩, ⟨path, hlast'⟩⟩, ?_, hend⟩
  rw [hpaths, List.map_append, List.map_append, hre.treeCoverage_eq]
  rw [map_eq_map_of_forall₂ halike fun coverage coverage' hlike => hlike.artifactPath_eq.symm]
  exact (hperm.map _).append_right _

/-- The reports tell the same, but for the order of the signatures. -/
structure Report.Alike (report report' : Report) : Prop where
  outcome : report'.outcome = report.outcome
  sidecars : report'.sidecars = report.sidecars
  artifacts : report.artifacts.Perm report'.artifacts

/-- A run by a layout ends alike by every other that declares the same. -/
theorem ends_reordered {key : Except KeyProblem Seed} {report : Report} (hS : scheme.Streams)
    (hw : before.WellFormed) (hlinks : before.NoLinks root) (hre : layout.Reordered layout')
    (hends : (withKey scheme root layout key).Ends before report after) :
    ∃ report' after', (withKey scheme root layout' key).Ends before report' after' ∧
      report.Alike report' ∧ ∀ place, after'.at? place = after.at? place := by
  obtain ⟨signed, listed, whole, h⟩ := (ends_withKey hS).mp hends
  obtain ⟨loc, hroot⟩ := h.toWrites.rooted hw hlinks
  obtain ⟨signed', listed', whole', after', paths', hwrites, hpaths, hsame⟩ :=
    h.toWrites.reordered hre h.check hroot
  have hcheck : layout'.check = .ok () := Layout.check_eq_ok_iff_declared.mpr
    ((Layout.check_eq_ok_iff_declared.mp h.check).reordered hre)
  exact ⟨⟨report.outcome, paths', report.sidecars⟩, after',
    (ends_withKey hS).mpr ⟨signed', listed', whole', hwrites, hcheck, h.outcome⟩,
    ⟨rfl, rfl, hpaths⟩, fun place => hsame.at?_eq not_false⟩

end Sealing

namespace Verification

variable {scheme : SignatureScheme} {disk : Disk} {root : Path} {layout layout' : Layout}
  {pinned : Option PublicKey}

/-- What a signature is found to be does not depend on the order of the members. -/
theorem checkCoverage_of_alike {coverage coverage' : Coverage} {status : Status}
    (h : (checkCoverage scheme disk root coverage pinned).outcome = .ok status)
    (halike : Alike coverage coverage') :
    (checkCoverage scheme disk root coverage' pinned).outcome = .ok status := by
  cases status with
  | verified key =>
      obtain ⟨mark, held, hread, hpinned, haccepts, hholds, hrest⟩ :=
        checkCoverage_eq_verified_iff.mp h
      rw [← halike.artifactPath_eq] at hread
      exact checkCoverage_eq_verified_iff.mpr
        ⟨mark, held, hread, hpinned, haccepts, halike.holds hholds, hrest⟩
  | unsigned =>
      obtain ⟨hpinned, hread⟩ := checkCoverage_eq_unsigned_iff.mp h
      rw [← halike.artifactPath_eq] at hread
      exact checkCoverage_eq_unsigned_iff.mpr ⟨hpinned, hread⟩

theorem checkMix_of_perm {targets targets' : List (String × Status)}
    (h : checkMix targets = .ok ()) (hperm : targets.Perm targets') :
    checkMix targets' = .ok () := by
  rw [checkMix_eq_ok_iff] at h ⊢
  cases h with
  | inl hverified => exact .inl fun target hmem => hverified target (hperm.mem_iff.mpr hmem)
  | inr hunsigned => exact .inr fun target hmem => hunsigned target (hperm.mem_iff.mpr hmem)

/-- The reports tell the same, but for the order of the signatures. -/
structure Report.Alike (report report' : Report) : Prop where
  sidecars : report'.sidecars = report.sidecars
  targets : report.targets.Perm report'.targets

/-- What verifies by a layout verifies by every other that declares the same. -/
theorem checkPackage_reordered {report : Report} (hre : layout.Reordered layout')
    (h : (checkPackage scheme disk root layout pinned).outcome = .ok report) :
    ∃ report', (checkPackage scheme disk root layout' pinned).outcome = .ok report' ∧
      report.Alike report' := by
  obtain ⟨hcheck, coverages, hcoverages, htargets, hmix, hsidecars⟩ := checkPackage_eq_ok_iff.mp h
  obtain ⟨matched, coverages', halike, hperm, hcoverages'⟩ :=
    Layout.coverages_reordered hre hcheck hcoverages
  have hcheck' : layout'.check = .ok () := Layout.check_eq_ok_iff_declared.mpr
    ((Layout.check_eq_ok_iff_declared.mp hcheck).reordered hre)
  -- Each signature is found to be the same with the members in the other order,
  have hmatched : List.Forall₂ (fun coverage target =>
      (checkCoverage scheme disk root coverage pinned).outcome = .ok target.2 ∧
        coverage.artifact = target.1) (matched ++ [layout.treeCoverage]) report.targets := by
    have hsame : List.Forall₂ (fun coverage' coverage => Alike coverage coverage' ∨
        coverage' = coverage) (matched ++ [layout.treeCoverage])
        (coverages ++ [layout.treeCoverage]) :=
      List.rel_append (halike.flip.imp fun _ _ => .inl) (.cons (.inr rfl) .nil)
    refine (forall₂_exists_iff.mpr ⟨_, hsame, htargets⟩).imp fun coverage' target hboth => ?_
    obtain ⟨coverage, hlike | rfl, hstatus, hartifact⟩ := hboth
    · exact ⟨checkCoverage_of_alike hstatus hlike, hlike.artifact_eq.trans hartifact⟩
    · exact ⟨hstatus, hartifact⟩
  -- and the signatures may then take their other order.
  obtain ⟨targets', htargets', hperm'⟩ :=
    List.perm_comp_forall₂ (hperm.symm.append_right [layout.treeCoverage]) hmatched
  rw [← hre.treeCoverage_eq] at htargets'
  exact ⟨⟨targets', report.sidecars⟩, checkPackage_eq_ok_iff.mpr ⟨hcheck', coverages', hcoverages',
    htargets', checkMix_of_perm hmix hperm'.symm, hsidecars⟩, rfl, hperm'.symm⟩

end Verification

namespace Sealing

variable {scheme : SignatureScheme} {layout layout' : Layout}

/-- **The order of the declarations does not matter.** Of two layouts that declare the same, both
are accepted or none. On a disk without links below the root a run by the one ends exactly if it
ends by the other, with the same files on the disk and the same report but for the order of the
signatures; and a package verifies by the one exactly if it does by the other, each signature being
found the same. -/
theorem order_ignored (hS : scheme.Streams) (hre : layout.Reordered layout') :
    (layout.check = .ok () ↔ layout'.check = .ok ()) ∧
    (∀ (root : Path) (key : Except KeyProblem Seed) (disk : Disk), disk.WellFormed →
      disk.NoLinks root →
      ((∃ report after, (withKey scheme root layout key).Ends disk report after) ↔
        ∃ report after, (withKey scheme root layout' key).Ends disk report after) ∧
      ∀ report report' after after', (withKey scheme root layout key).Ends disk report after →
        (withKey scheme root layout' key).Ends disk report' after' →
        report.Alike report' ∧ ∀ place, after'.at? place = after.at? place) ∧
    ∀ (root : Path) (pinned : Option PublicKey) (disk : Disk),
      ((∃ report, (Verification.checkPackage scheme disk root layout pinned).outcome = .ok report) ↔
        ∃ report,
          (Verification.checkPackage scheme disk root layout' pinned).outcome = .ok report) ∧
      ∀ report report',
        (Verification.checkPackage scheme disk root layout pinned).outcome = .ok report →
        (Verification.checkPackage scheme disk root layout' pinned).outcome = .ok report' →
        report.Alike report' := by
  refine ⟨?_, fun root key disk hw hlinks => ⟨⟨?_, ?_⟩, ?_⟩, fun root pinned disk => ⟨⟨?_, ?_⟩, ?_⟩⟩
  · rw [Layout.check_eq_ok_iff_declared, Layout.check_eq_ok_iff_declared]
    exact ⟨fun h => h.reordered hre, fun h => h.reordered hre.symm⟩
  · intro ⟨report, after, hends⟩
    obtain ⟨report', after', hends', -⟩ := ends_reordered hS hw hlinks hre hends
    exact ⟨report', after', hends'⟩
  · intro ⟨report, after, hends⟩
    obtain ⟨report', after', hends', -⟩ := ends_reordered hS hw hlinks hre.symm hends
    exact ⟨report', after', hends'⟩
  · intro report report' after after' hends hends'
    obtain ⟨found, final, ⟨hreport, hdisk⟩, halike, hsame⟩ :=
      ends_reordered hS hw hlinks hre hends
    obtain ⟨hreport', hdisk'⟩ := hends'
    rw [hreport, Except.ok.injEq] at hreport'
    rw [← hreport', ← hdisk', hdisk]
    exact ⟨halike, hsame⟩
  · intro ⟨report, hreport⟩
    obtain ⟨report', hreport', -⟩ := Verification.checkPackage_reordered hre hreport
    exact ⟨report', hreport'⟩
  · intro ⟨report, hreport⟩
    obtain ⟨report', hreport', -⟩ := Verification.checkPackage_reordered hre.symm hreport
    exact ⟨report', hreport'⟩
  · intro report report' hreport hreport'
    obtain ⟨found, hfound, halike⟩ := Verification.checkPackage_reordered hre hreport
    rw [hfound, Except.ok.injEq] at hreport'
    rw [← hreport']
    exact halike

section Small

/-- A layout for the small package with two members, in a given order. -/
def smallInOrder (common : List String) : Layout :=
  ⟨"t", common, [], [⟨"x86", "s", .thirtyTwo⟩]⟩

/-- The small package is sealed alike with its two members in either order. -/
theorem order_ignored_small : ∃ report after report' after',
    (withKey Ed25519.scheme ⟨"."⟩ (smallInOrder ["a", "a.sha256"]) (.ok smallSeed)).Ends
      (smallDisk [2] [3] [4] [5] [6]) report after ∧
    (withKey Ed25519.scheme ⟨"."⟩ (smallInOrder ["a.sha256", "a"]) (.ok smallSeed)).Ends
      (smallDisk [2] [3] [4] [5] [6]) report' after' ∧
    report.Alike report' ∧ ∀ place, after'.at? place = after.at? place := by
  have hre : (smallInOrder ["a", "a.sha256"]).Reordered (smallInOrder ["a.sha256", "a"]) :=
    ⟨rfl, .swap _ _ _, .nil, .refl _⟩
  obtain ⟨-, hruns, -⟩ := order_ignored Ed25519.scheme_streams hre
  obtain ⟨hiff, hsame⟩ := hruns ⟨"."⟩ (.ok smallSeed) _ (smallDisk_wellFormed [2] [3] [4] [5] [6])
    (smallDisk_noLinks [2] [3] [4] [5] [6] ⟨"."⟩)
  have hholds : Coverage.Holds (.ofArchitecture ⟨"x86", "s", .thirtyTwo⟩
      [Member.a, ⟨⟨"a.sha256", by decide, by decide, by decide, rfl⟩, ⟨"a.sha256"⟩⟩])
      (smallDisk [2] [3] [4] [5] [6]) ⟨"."⟩
      [(MemberName.a, [1]), (⟨"a.sha256", by decide, by decide, by decide, rfl⟩, [2])] :=
    ⟨.ofMembers [⟨MemberName.a, ⟨"./a"⟩⟩, ⟨⟨"a.sha256", by decide, by decide, by decide, rfl⟩,
      ⟨"./a.sha256"⟩⟩] (by decide), rfl, rfl⟩
  obtain ⟨_, _, hends⟩ := small_furnished_of [2] [3] [4] [5] [6] Ed25519.scheme_streams
    (.ok smallSeed) (rfl : (smallInOrder ["a", "a.sha256"]).check = .ok ()) rfl rfl hholds
  obtain ⟨report', after', hends'⟩ := hiff.mp ⟨_, _, hends⟩
  exact ⟨_, _, report', after', hends, hends', hsame _ _ _ _ hends hends'⟩

end Small

end Sealing

end PackageSeal
