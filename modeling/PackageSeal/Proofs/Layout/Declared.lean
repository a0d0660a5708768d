import Mathlib.Data.List.Nodup
import PackageSeal.Proofs.Layout.Placeholders
import PackageSeal.Proofs.Path.Sources

/-!
# Declared layouts

The rules of a layout, said without the checker: no order in which they are looked at, no names seen
so far, and no scan. `Declared` speaks of the layout as it is written, the members of an
architecture being the texts of their names and sources (`rows`). The checker accepts exactly the
declared layouts (`check_eq_ok_iff_declared`), and an accepted layout has a coverage for every
architecture, which lists these members in this order (`coverages_of_declared`).
-/

namespace PackageSeal.Layout

variable {layout : Layout} {arch : Architecture}

/-! ## Names -/

/-- A plain file name that is not called like a sidecar. -/
structure IsPlain (name : String) : Prop where
  ne_empty : name ≠ ""
  no_separator : '/' ∉ name.toList
  no_backslash : '\\' ∉ name.toList
  no_nul : '\x00' ∉ name.toList
  not_sidecar : ∀ text, name ≠ text ++ Sidecar.suffix

/-- A single segment of a path. -/
structure IsSegment (name : String) : Prop where
  ne_empty : name ≠ ""
  no_separator : '/' ∉ name.toList
  no_backslash : '\\' ∉ name.toList

theorem checkArtifactName_iff_isPlain {name : String} :
    checkArtifactName name = .ok () ↔ IsPlain name := by
  rw [checkArtifactName_eq_ok_iff, holds_eq_false_iff, ← Bool.not_eq_true, Sidecar.isMarkedName_iff]
  simp only [List.forall_mem_cons, List.not_mem_nil, false_implies, implies_true, and_true,
    not_exists]
  constructor
  · intro ⟨hne, ⟨hsep, hback, hnul⟩, hmarked⟩
    exact ⟨hne, hsep, hback, hnul, hmarked⟩
  · intro ⟨hne, hsep, hback, hnul, hmarked⟩
    exact ⟨hne, ⟨hsep, hback, hnul⟩, hmarked⟩

theorem isSegment_iff {name : String} :
    (name ≠ "" ∧ holds name ['/', '\\'] = false) ↔ IsSegment name := by
  rw [holds_eq_false_iff]
  simp only [List.forall_mem_cons, List.not_mem_nil, false_implies, implies_true, and_true]
  constructor
  · intro ⟨hne, hsep, hback⟩
    exact ⟨hne, hsep, hback⟩
  · intro ⟨hne, hsep, hback⟩
    exact ⟨hne, hsep, hback⟩

/-! ## Members -/

/-- The members of an architecture as they are declared, each by the texts of its name and its
source: the common ones, then the templates filled in. -/
def rows (layout : Layout) (arch : Architecture) : List (String × String) :=
  layout.common.map (fun path => (path, path)) ++
    layout.templates.map fun template => (arch.fill template.name, arch.fill template.source)

/-- The member is the one that the texts declare. -/
structure Declares (row : String × String) (member : Member) : Prop where
  name_eq : MemberName.ofText row.1 = .ok member.name
  source_eq : member.source = ⟨row.2⟩

/-- The texts declare a member that the signatures leave alone. -/
structure IsUsable (outputs : List String) (row : String × String) : Prop where
  named : ∃ name, MemberName.ofText row.1 = .ok name
  relative : (Path.mk row.2).isAbsolute = false
  inside : .up ∉ (Path.mk row.2).components
  kept : ∀ name ∈ outputs, (Path.mk row.2).components.filter (· != .here) ≠ [.name name]

theorem declares_iff {row : String × String} {member : Member} : Declares row member ↔
    ∃ name, MemberName.ofText row.1 = .ok name ∧ Member.mk name ⟨row.2⟩ = member := by
  obtain ⟨name, source⟩ := member
  constructor
  · intro ⟨hname, hsource⟩
    exact ⟨name, hname, congrArg (Member.mk name) hsource.symm⟩
  · intro ⟨named, hname, heq⟩
    obtain ⟨rfl, rfl⟩ := Member.mk.inj heq
    exact ⟨hname, rfl⟩

theorem ofPath_eq_ok_iff {path : String} {member : Member} :
    Member.ofPath path = .ok member ↔ Declares (path, path) member := by
  rw [declares_iff, Member.ofPath]
  cases hname : MemberName.ofText path <;> simp

theorem memberFor_eq_ok_iff {template : Template} {member : Member} :
    template.memberFor arch = .ok member ↔
      Declares (arch.fill template.name, arch.fill template.source) member := by
  rw [declares_iff, Template.memberFor]
  cases hname : MemberName.ofText (arch.fill template.name) <;> simp

/-- **The members of an architecture are those that its rows declare**, in their order. -/
theorem membersOf_eq_ok_iff {members : List Member} :
    layout.membersOf arch = .ok members ↔ List.Forall₂ Declares (layout.rows arch) members := by
  rw [membersOf, bind_eq_ok_iff, rows]
  simp only [bind_eq_ok_iff, pure_eq_ok_iff, mapM_eq_ok_iff, ofPath_eq_ok_iff, memberFor_eq_ok_iff]
  constructor
  · intro ⟨common, hcommon, expanded, hexpanded, heq⟩
    rw [← heq]
    exact List.rel_append (List.forall₂_map_left_iff.mpr hcommon)
      (List.forall₂_map_left_iff.mpr hexpanded)
  · intro h
    obtain hcommon := List.forall₂_take_append _ _ _ h.flip
    obtain hexpanded := List.forall₂_drop_append _ _ _ h.flip
    exact ⟨_, List.forall₂_map_left_iff.mp hcommon.flip, _,
      List.forall₂_map_left_iff.mp hexpanded.flip, List.take_append_drop _ _⟩

theorem Declares.text_eq {row : String × String} {member : Member} (h : Declares row member) :
    member.name.text.toList = MemberName.normalize row.1.toList := by
  have hname := h.name_eq
  unfold MemberName.ofText at hname
  simp only at hname
  split_ifs at hname
  rw [← Except.ok.inj hname, String.toList_ofList]

/-- Members have different names exactly if what declares them has different normal forms. -/
theorem nodup_names_iff {rows : List (String × String)} {members : List Member}
    (h : List.Forall₂ Declares rows members) : (members.map Member.name).Nodup ↔
      (rows.map fun row => MemberName.normalize row.1.toList).Nodup := by
  have htexts : rows.map (fun row => MemberName.normalize row.1.toList) =
      (members.map Member.name).map fun name => name.text.toList := by
    rw [List.map_map]
    exact map_eq_map_of_forall₂ h fun row member hrow => hrow.text_eq.symm
  rw [htexts, List.nodup_map_iff fun a b heq => MemberName.ext (String.toList_inj.mp heq)]

/-- An architecture has a coverage exactly if all its rows declare usable members under different
names. -/
theorem coverageOf_eq_ok_iff_rows {coverage : Coverage} : layout.coverageOf arch = .ok coverage ↔
    (∀ row ∈ layout.rows arch, IsUsable layout.outputs row) ∧
      ((layout.rows arch).map fun row => MemberName.normalize row.1.toList).Nodup ∧
      ∃ members, List.Forall₂ Declares (layout.rows arch) members ∧
        coverage = .ofArchitecture arch members := by
  have hrules : ∀ {row member}, Declares row member →
      ((staysInside member.source = true ∧ isOverwritten layout.outputs member.source = false) ↔
        IsUsable layout.outputs row) := by
    intro row member h
    rw [h.source_eq, staysInside_iff, isOverwritten_eq_false_iff]
    constructor
    · intro ⟨⟨hrelative, hup⟩, hkept⟩
      exact ⟨⟨_, h.name_eq⟩, hrelative, hup, hkept⟩
    · intro ⟨_, hrelative, hup, hkept⟩
      exact ⟨⟨hrelative, hup⟩, hkept⟩
  simp only [coverageOf_eq_ok_iff, membersOf_eq_ok_iff]
  constructor
  · intro ⟨members, hmembers, hcoverage, hkeep, hnodup⟩
    refine ⟨fun row hrow => ?_, (nodup_names_iff hmembers).mp hnodup, members, hmembers, hcoverage⟩
    obtain ⟨member, hmember, hdeclares⟩ := exists_right_of_forall₂ hmembers hrow
    exact (hrules hdeclares).mp (hkeep member hmember)
  · intro ⟨husable, hnodup, members, hmembers, hcoverage⟩
    refine ⟨members, hmembers, hcoverage, fun member hmember => ?_,
      (nodup_names_iff hmembers).mpr hnodup⟩
    obtain ⟨row, hrow, hdeclares⟩ := exists_left_of_forall₂ hmembers hmember
    exact (hrules hdeclares).mpr (husable row hrow)

/-! ## The whole -/

/-- The layout is one of those that can be declared. -/
structure Declared (layout : Layout) : Prop where
  artifacts : ∀ name ∈ layout.outputs, IsPlain name
  nodup_artifacts : layout.outputs.Nodup
  architectures : layout.architectures ≠ []
  names : ∀ arch ∈ layout.architectures, IsSegment arch.name
  nodup_names : (layout.architectures.map Architecture.name).Nodup
  templates : ∀ template ∈ layout.templates, ∀ text ∈ [template.name, template.source],
    ∃ tokens, Token.Reads tokens text.toList
  members : layout.common ≠ [] ∨ layout.templates ≠ []
  usable : ∀ arch ∈ layout.architectures, ∀ row ∈ layout.rows arch, IsUsable layout.outputs row
  distinct : ∀ arch ∈ layout.architectures,
    ((layout.rows arch).map fun row => MemberName.normalize row.1.toList).Nodup

/-- The coverage is that of the architecture and lists what its rows declare. -/
def Lays (layout : Layout) (arch : Architecture) (coverage : Coverage) : Prop :=
  ∃ members, List.Forall₂ Declares (layout.rows arch) members ∧
    coverage = .ofArchitecture arch members

/-- Usable rows declare members. -/
theorem exists_lays (h : ∀ row ∈ layout.rows arch, IsUsable layout.outputs row) :
    ∃ coverage, layout.Lays arch coverage := by
  obtain ⟨members, hmembers⟩ : ∃ members, List.Forall₂ Declares (layout.rows arch) members := by
    refine exists_forall₂ fun row hrow => ?_
    obtain ⟨name, hname⟩ := (h row hrow).named
    exact ⟨⟨name, ⟨row.2⟩⟩, hname, rfl⟩
  exact ⟨_, members, hmembers, rfl⟩

theorem architectureCoverages_eq_ok_iff {coverages : List Coverage} :
    layout.architectureCoverages = .ok coverages ↔
      (∀ arch ∈ layout.architectures, (∀ row ∈ layout.rows arch, IsUsable layout.outputs row) ∧
        ((layout.rows arch).map fun row => MemberName.normalize row.1.toList).Nodup) ∧
      List.Forall₂ layout.Lays layout.architectures coverages := by
  rw [architectureCoverages, mapM_eq_ok_iff]
  constructor
  · intro h
    constructor
    · intro arch harch
      obtain ⟨coverage, -, hof⟩ := exists_right_of_forall₂ h harch
      obtain ⟨husable, hnodup, -⟩ := coverageOf_eq_ok_iff_rows.mp hof
      exact ⟨husable, hnodup⟩
    · exact h.imp fun arch coverage hof => (coverageOf_eq_ok_iff_rows.mp hof).2.2
  · intro ⟨hrows, hlays⟩
    refine forall₂_imp_of_mem (fun arch harch coverage hlay => ?_) hlays
    exact coverageOf_eq_ok_iff_rows.mpr ⟨(hrows arch harch).1, (hrows arch harch).2, hlay⟩

/-- **The checker accepts exactly the declared layouts.** -/
theorem check_eq_ok_iff_declared : layout.check = .ok () ↔ layout.Declared := by
  have hcoverages : (∃ coverages, layout.architectureCoverages = .ok coverages) ↔
      ∀ arch ∈ layout.architectures, (∀ row ∈ layout.rows arch, IsUsable layout.outputs row) ∧
        ((layout.rows arch).map fun row => MemberName.normalize row.1.toList).Nodup := by
    simp only [architectureCoverages_eq_ok_iff]
    constructor
    · intro h
      obtain ⟨-, hrows, -⟩ := h
      exact hrows
    · intro hrows
      obtain ⟨coverages, hlays⟩ := exists_forall₂ fun arch harch => exists_lays (hrows arch harch).1
      exact ⟨coverages, hrows, hlays⟩
  have houtputs : (∀ name ∈ layout.outputs, IsPlain name) ↔
      (∀ arch ∈ layout.architectures, IsPlain arch.artifact) ∧ IsPlain layout.treeArtifact := by
    rw [outputs, List.forall_mem_append, List.forall_mem_map, List.forall_mem_singleton]
  have htemplates : (∀ template ∈ layout.templates, checkTemplateText template.name = .ok () ∧
      checkTemplateText template.source = .ok ()) ↔
        ∀ template ∈ layout.templates, ∀ text ∈ [template.name, template.source],
          ∃ tokens, Token.Reads tokens text.toList := by
    simp only [checkTemplateText_eq_ok_iff, List.forall_mem_cons, List.not_mem_nil, false_implies,
      implies_true, and_true]
  rw [check_eq_ok_iff, hcoverages, htemplates, checkArchitectures_eq_ok_iff]
  simp only [checkArchitecture_eq_ok_iff, checkArtifactName_iff_isPlain, isSegment_iff,
    List.not_mem_nil, not_false_eq_true, true_and]
  constructor
  · intro h
    obtain ⟨htree, hsome, ⟨harchs, hnames, hartifacts⟩, htexts, hany, hrows⟩ := h
    exact {
      artifacts := houtputs.mpr ⟨fun arch harch => (harchs arch harch).1, htree⟩
      nodup_artifacts :=
        nodup_outputs_iff.mpr ⟨fun arch harch => (harchs arch harch).2.2, hartifacts⟩
      architectures := hsome
      names := fun arch harch => (harchs arch harch).2.1
      nodup_names := hnames
      templates := htexts
      members := hany
      usable := fun arch harch => (hrows arch harch).1
      distinct := fun arch harch => (hrows arch harch).2 }
  · intro h
    obtain ⟨harchs, htree⟩ := houtputs.mp h.artifacts
    obtain ⟨hfree, hartifacts⟩ := nodup_outputs_iff.mp h.nodup_artifacts
    refine ⟨htree, h.architectures, ⟨fun arch harch => ?_, h.nodup_names, hartifacts⟩, h.templates,
      h.members, fun arch harch => ⟨h.usable arch harch, h.distinct arch harch⟩⟩
    exact ⟨harchs arch harch, h.names arch harch, hfree arch harch⟩

/-- A declared layout has a coverage for every architecture, in their order. -/
theorem coverages_of_declared (h : layout.Declared) :
    ∃ coverages, layout.architectureCoverages = .ok coverages ∧
      List.Forall₂ layout.Lays layout.architectures coverages := by
  obtain ⟨coverages, hlays⟩ := exists_forall₂ fun arch harch => exists_lays (h.usable arch harch)
  exact ⟨coverages, architectureCoverages_eq_ok_iff.mpr
    ⟨fun arch harch => ⟨h.usable arch harch, h.distinct arch harch⟩, hlays⟩, hlays⟩

/-- **The accepted layouts.** A layout is accepted if and only if it is declared; and if it is
accepted, every architecture has a coverage, in the order of the architectures, that lists the
common members first and then those of the templates. -/
theorem accepted_iff_declared (layout : Layout) : (layout.check = .ok () ↔ layout.Declared) ∧
    (layout.check = .ok () → ∃ coverages, layout.architectureCoverages = .ok coverages ∧
      List.Forall₂ layout.Lays layout.architectures coverages) := by
  refine ⟨check_eq_ok_iff_declared, fun h => ?_⟩
  exact coverages_of_declared (check_eq_ok_iff_declared.mp h)

/-- A layout with one template is accepted, and its members are listed. -/
theorem accepted_templated : (templated "x86").Declared ∧
    ∃ coverages, (templated "x86").architectureCoverages = .ok coverages ∧
      coverages.map Coverage.artifact = ["s.sig"] := by
  obtain ⟨hiff, hcoverages⟩ := accepted_iff_declared (templated "x86")
  obtain ⟨coverages, heq, hlays⟩ := hcoverages rfl
  refine ⟨hiff.mp rfl, coverages, heq, ?_⟩
  exact (map_eq_map_of_forall₂ hlays fun arch coverage ⟨_, _, hcoverage⟩ => by
    rw [hcoverage]; rfl : (templated "x86").architectures.map Architecture.artifact = _).symm

end PackageSeal.Layout
