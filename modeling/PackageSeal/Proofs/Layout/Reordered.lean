import PackageSeal.Proofs.Coverage.Holdings
import PackageSeal.Proofs.Layout.Declared

/-!
# Layouts in another order

Two layouts that declare the same in another order (`Reordered`). The rules are about which members
and names there are, so both keep them or neither does (`Declared.reordered`). The coverages of the
one are, in another order, those of the other with their members in another order
(`coverages_reordered`), and coverages with the same members hold the same (`Coverage.Alike.holds`).
-/

namespace PackageSeal

/-! ## Coverages with the same members -/

namespace Coverage

/-- Both coverages list the same members of one architecture, each in its order. -/
def Alike (coverage coverage' : Coverage) : Prop :=
  ∃ arch members members', coverage = .ofArchitecture arch members ∧
    coverage' = .ofArchitecture arch members' ∧ members.Perm members'

namespace Alike

variable {coverage coverage' : Coverage} {disk : Disk} {root : Path}
  {held : List (MemberName × Bytes)}

theorem artifact_eq (h : Alike coverage coverage') : coverage'.artifact = coverage.artifact := by
  obtain ⟨arch, members, members', rfl, rfl, -⟩ := h
  rfl

theorem artifactPath_eq (h : Alike coverage coverage') :
    coverage'.artifactPath root = coverage.artifactPath root := by
  rw [artifactPath, artifactPath, h.artifact_eq]

/-- **What a coverage holds does not depend on the order of its members.** -/
theorem holds (h : Alike coverage coverage') (hholds : coverage.Holds disk root held) :
    coverage'.Holds disk root held := by
  obtain ⟨arch, members, members', rfl, rfl, hperm⟩ := h
  obtain ⟨hascending, pairs, hpairs, hheld⟩ := holds_listed_iff.mp hholds
  obtain ⟨pairs', hpairs', hsame⟩ := List.perm_comp_forall₂ hperm.symm hpairs
  exact holds_listed_iff.mpr ⟨hascending, pairs', hpairs', hheld.trans hsame.symm⟩

end Alike

end Coverage

namespace Layout

/-- The layouts declare the same, each in its order. -/
structure Reordered (layout layout' : Layout) : Prop where
  tree : layout.treeArtifact = layout'.treeArtifact
  common : layout.common.Perm layout'.common
  templates : layout.templates.Perm layout'.templates
  architectures : layout.architectures.Perm layout'.architectures

variable {layout layout' : Layout}

namespace Reordered

theorem symm (h : layout.Reordered layout') : layout'.Reordered layout :=
  ⟨h.tree.symm, h.common.symm, h.templates.symm, h.architectures.symm⟩

theorem treeCoverage_eq (h : layout.Reordered layout') :
    layout'.treeCoverage = layout.treeCoverage := by
  rw [treeCoverage, treeCoverage, h.tree]

theorem outputs (h : layout.Reordered layout') : layout.outputs.Perm layout'.outputs := by
  rw [Layout.outputs, Layout.outputs, h.tree]
  exact (h.architectures.map Architecture.artifact).append_right _

theorem rows (h : layout.Reordered layout') (arch : Architecture) :
    (layout.rows arch).Perm (layout'.rows arch) :=
  (h.common.map _).append (h.templates.map _)

end Reordered

theorem IsUsable.of_perm {outputs outputs' : List String} {row : String × String}
    (h : IsUsable outputs row) (hperm : outputs.Perm outputs') : IsUsable outputs' row where
  named := h.named
  relative := h.relative
  inside := h.inside
  kept name hname := h.kept name (hperm.mem_iff.mpr hname)

/-- **The rules do not depend on the order of the declarations.** -/
theorem Declared.reordered (h : layout.Declared) (hre : layout.Reordered layout') :
    layout'.Declared where
  artifacts name hname := h.artifacts name (hre.outputs.mem_iff.mpr hname)
  nodup_artifacts := hre.outputs.nodup_iff.mp h.nodup_artifacts
  architectures hnil := by
    have hperm := hre.architectures
    rw [hnil, List.perm_nil] at hperm
    exact h.architectures hperm
  names arch harch := h.names arch (hre.architectures.mem_iff.mpr harch)
  nodup_names := (hre.architectures.map Architecture.name).nodup_iff.mp h.nodup_names
  templates template htemplate := h.templates template (hre.templates.mem_iff.mpr htemplate)
  members := by
    cases h.members with
    | inl hcommon => exact .inl fun hnil => hcommon (List.perm_nil.mp (hnil ▸ hre.common))
    | inr htemplates => exact .inr fun hnil => htemplates (List.perm_nil.mp (hnil ▸ hre.templates))
  usable arch harch row hrow :=
    (h.usable arch (hre.architectures.mem_iff.mpr harch) row
      ((hre.rows arch).mem_iff.mpr hrow)).of_perm hre.outputs
  distinct arch harch :=
    ((hre.rows arch).map fun row => MemberName.normalize row.1.toList).nodup_iff.mp
      (h.distinct arch (hre.architectures.mem_iff.mpr harch))

/-- A coverage by one layout has its like by the other. -/
theorem Lays.reordered {arch : Architecture} {coverage : Coverage} (h : layout.Lays arch coverage)
    (hre : layout.Reordered layout') :
    ∃ coverage', layout'.Lays arch coverage' ∧ coverage.Alike coverage' := by
  obtain ⟨members, hmembers, hcoverage⟩ := h
  obtain ⟨members', hmembers', hperm⟩ := List.perm_comp_forall₂ (hre.rows arch).symm hmembers
  exact ⟨_, ⟨members', hmembers', rfl⟩, arch, members, members', hcoverage, rfl, hperm.symm⟩

/-- **The coverages of reordered layouts** are alike, but for their order. -/
theorem coverages_reordered (hre : layout.Reordered layout') (hcheck : layout.check = .ok ())
    {coverages : List Coverage} (hcoverages : layout.architectureCoverages = .ok coverages) :
    ∃ matched coverages', List.Forall₂ Coverage.Alike coverages matched ∧
      matched.Perm coverages' ∧ layout'.architectureCoverages = .ok coverages' := by
  have hdeclared := (check_eq_ok_iff_declared.mp hcheck).reordered hre
  obtain ⟨-, hlays⟩ := architectureCoverages_eq_ok_iff.mp hcoverages
  -- First the members take the other order, then the architectures.
  have hpairs : List.Forall₂ (fun coverage arch => ∃ coverage', coverage.Alike coverage' ∧
      layout'.Lays arch coverage') coverages layout.architectures := by
    refine List.Forall₂.flip (hlays.imp fun arch coverage hlay => ?_)
    obtain ⟨coverage', hlay', halike⟩ := hlay.reordered hre
    exact ⟨coverage', halike, hlay'⟩
  obtain ⟨matched, halike, hmatched⟩ := forall₂_exists_iff.mp hpairs
  have hmatched' : List.Forall₂ layout'.Lays layout.architectures matched := hmatched.flip
  obtain ⟨coverages', hlays', hperm⟩ := List.perm_comp_forall₂ hre.architectures.symm hmatched'
  refine ⟨matched, coverages', halike, hperm.symm, architectureCoverages_eq_ok_iff.mpr
    ⟨fun arch harch => ⟨hdeclared.usable arch harch, hdeclared.distinct arch harch⟩, hlays'⟩⟩

end Layout

end PackageSeal
