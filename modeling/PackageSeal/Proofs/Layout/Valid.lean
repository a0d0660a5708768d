import PackageSeal.Layout.Validity
import PackageSeal.Proofs.Runs

/-!
# What a valid layout promises

The rules of `Layout.check` as statements. A layout that keeps them has plain and different names
for its signatures, none of them a sidecar's (`Valid`), and every listed source stays inside the
package and away from the signatures.
-/

namespace PackageSeal.Layout

/-- A plain file name that no sidecar has. -/
structure IsArtifactName (name : String) : Prop where
  ne_empty : name ≠ ""
  no_separator : '/' ∉ name.toList
  not_marked : Sidecar.isMarkedName name = false

/-- What a layout that keeps its rules promises about its signatures and coverages. -/
structure Valid (layout : Layout) (coverages : List Coverage) : Prop where
  coverages_eq : layout.architectureCoverages = .ok coverages
  outputs_eq : layout.outputs = coverages.map Coverage.artifact ++ [layout.treeArtifact]
  isArtifactName : ∀ name ∈ layout.outputs, IsArtifactName name
  nodup_outputs : layout.outputs.Nodup
  listed : ∀ coverage ∈ coverages, ∃ arch members, coverage = .ofArchitecture arch members ∧
    ∀ member ∈ members, staysInside member.source = true ∧
      isOverwritten layout.outputs member.source = false

theorem Valid.artifact_mem {layout : Layout} {coverages : List Coverage}
    (h : layout.Valid coverages) {coverage : Coverage} (hmem : coverage ∈ coverages) :
    coverage.artifact ∈ layout.outputs := by
  rw [h.outputs_eq]
  exact List.mem_append_left _ (List.mem_map_of_mem hmem)

theorem Valid.outputs_eq_map {layout : Layout} {coverages : List Coverage}
    (h : layout.Valid coverages) :
    layout.outputs = (coverages ++ [layout.treeCoverage]).map Coverage.artifact := by
  rw [h.outputs_eq, List.map_append]
  rfl

/-! ## Rule by rule -/

theorem holds_eq_false_iff {text : String} {chars : List Char} :
    holds text chars = false ↔ ∀ c ∈ chars, c ∉ text.toList := by
  rw [holds, List.any_eq_false]
  simp only [List.contains_iff_mem]
  exact ⟨fun h c hc hmem => h c hmem hc, fun h c hmem hc => h c hc hmem⟩

theorem checkArtifactName_eq_ok_iff {name : String} : checkArtifactName name = .ok () ↔
    name ≠ "" ∧ holds name ['/', '\\', '\x00'] = false ∧ Sidecar.isMarkedName name = false := by
  rw [checkArtifactName]
  split_ifs with hplain hmarked
  · rw [← Bool.not_eq_true]
    exact iff_of_false nofun fun h => hplain.elim h.1 h.2.1
  · exact iff_of_false nofun fun h => by simp [h.2.2] at hmarked
  · rw [not_or, Bool.not_eq_true] at hplain
    exact iff_of_true rfl ⟨hplain.1, hplain.2, by simpa using hmarked⟩

theorem isArtifactName_of_check {name : String} (h : checkArtifactName name = .ok ()) :
    IsArtifactName name := by
  obtain ⟨hne, hplain, hmarked⟩ := checkArtifactName_eq_ok_iff.mp h
  exact ⟨hne, holds_eq_false_iff.mp hplain '/' (by decide), hmarked⟩

theorem checkArchitecture_eq_ok_iff {names artifacts : List String} {arch : Architecture} :
    checkArchitecture names artifacts arch = .ok () ↔
      checkArtifactName arch.artifact = .ok () ∧
        (arch.name ≠ "" ∧ holds arch.name ['/', '\\'] = false) ∧
        arch.name ∉ names ∧ arch.artifact ∉ artifacts := by
  rw [checkArchitecture]
  simp only [check_then_eq_ok_iff, guard_eq_ok_iff, last_guard_eq_ok_iff, not_or, Bool.not_eq_true,
    List.contains_eq_mem, decide_eq_false_iff_not]

/-- Architectures keep the rules exactly if each does, all names and all signatures are different,
and none of them was taken before. -/
theorem checkArchitectures_eq_ok_iff {names artifacts : List String} {archs : List Architecture} :
    checkArchitectures names artifacts archs = .ok () ↔
      (∀ arch ∈ archs, checkArchitecture names artifacts arch = .ok ()) ∧
        (archs.map Architecture.name).Nodup ∧ (archs.map Architecture.artifact).Nodup := by
  induction archs generalizing names artifacts with
  | nil =>
      rw [checkArchitectures]
      exact iff_of_true rfl ⟨by simp, List.nodup_nil, List.nodup_nil⟩
  | cons arch rest ih =>
      have hfree : ∀ other,
          checkArchitecture (arch.name :: names) (arch.artifact :: artifacts) other = .ok () ↔
            checkArchitecture names artifacts other = .ok () ∧
            other.name ≠ arch.name ∧ other.artifact ≠ arch.artifact := by
        intro other
        simp only [checkArchitecture_eq_ok_iff, List.mem_cons, not_or]
        constructor
        · intro ⟨hname, hsegment, ⟨hne, hnames⟩, hne', hartifacts⟩
          exact ⟨⟨hname, hsegment, hnames, hartifacts⟩, hne, hne'⟩
        · intro ⟨⟨hname, hsegment, hnames, hartifacts⟩, hne, hne'⟩
          exact ⟨hname, hsegment, ⟨hne, hnames⟩, hne', hartifacts⟩
      rw [checkArchitectures]
      simp only [check_then_eq_ok_iff, ih, hfree, List.forall_mem_cons, List.map_cons,
        List.nodup_cons, List.mem_map, not_exists, not_and]
      constructor
      · intro ⟨hfirst, hrest, hnames, hartifacts⟩
        exact ⟨⟨hfirst, fun other hother => (hrest other hother).1⟩,
          ⟨fun other hother => (hrest other hother).2.1, hnames⟩,
          fun other hother => (hrest other hother).2.2, hartifacts⟩
      · intro ⟨⟨hfirst, hrest⟩, ⟨hne, hnames⟩, hne', hartifacts⟩
        exact ⟨hfirst, fun other hother =>
          ⟨hrest other hother, hne other hother, hne' other hother⟩, hnames, hartifacts⟩

/-- Members keep the rules exactly if they come from inside the package and away from the
signatures, and their names are different and none was taken before. -/
theorem checkMembers_eq_ok_iff {arch : String} {artifacts : List String} {seen : List MemberName}
    {members : List Member} : checkMembers arch artifacts seen members = .ok () ↔
      (∀ member ∈ members, staysInside member.source = true ∧
          isOverwritten artifacts member.source = false) ∧
        (members.map Member.name).Nodup ∧ ∀ member ∈ members, member.name ∉ seen := by
  induction members generalizing seen with
  | nil =>
      rw [checkMembers]
      exact iff_of_true rfl ⟨by simp, List.nodup_nil, by simp⟩
  | cons member rest ih =>
      rw [checkMembers]
      simp only [List.forall_mem_cons, List.map_cons, List.nodup_cons, List.mem_map, not_exists,
        not_and]
      split_ifs with houtside hover hseen
      · exact iff_of_false nofun fun h => by simp [h.1.1.1] at houtside
      · exact iff_of_false nofun fun h => by simp [h.1.1.2] at hover
      · exact iff_of_false nofun fun h => h.2.2.1 (List.contains_iff_mem.mp hseen)
      · rw [ih]
        simp only [List.mem_cons, not_or]
        have hkeeps : staysInside member.source = true ∧
            isOverwritten artifacts member.source = false :=
          ⟨by simpa using houtside, by simpa using hover⟩
        have hfresh : member.name ∉ seen := by simpa using hseen
        constructor
        · intro ⟨hrules, hnodup, hfree⟩
          exact ⟨⟨hkeeps, hrules⟩, ⟨fun other hother => (hfree other hother).1, hnodup⟩, hfresh,
            fun other hother => (hfree other hother).2⟩
        · intro ⟨⟨_, hrules⟩, ⟨hne, hnodup⟩, _, hfree⟩
          exact ⟨hrules, hnodup, fun other hother => ⟨hne other hother, hfree other hother⟩⟩

theorem coverageOf_eq_ok_iff {layout : Layout} {arch : Architecture} {coverage : Coverage} :
    layout.coverageOf arch = .ok coverage ↔
      ∃ members, layout.membersOf arch = .ok members ∧ coverage = .ofArchitecture arch members ∧
        (∀ member ∈ members, staysInside member.source = true ∧
          isOverwritten layout.outputs member.source = false) ∧
        (members.map Member.name).Nodup := by
  rw [coverageOf, bind_eq_ok_iff]
  simp only [mapError_eq_ok_iff, check_then_eq_ok_iff, pure_eq_ok_iff, checkMembers_eq_ok_iff]
  constructor
  · intro ⟨members, hmembers, ⟨hrules, hnodup, _⟩, hcoverage⟩
    exact ⟨members, hmembers, hcoverage.symm, hrules, hnodup⟩
  · intro ⟨members, hmembers, hcoverage, hrules, hnodup⟩
    exact ⟨members, hmembers, ⟨hrules, hnodup, fun _ _ => List.not_mem_nil⟩, hcoverage.symm⟩

theorem coverageOf_eq_ok {layout : Layout} {arch : Architecture} {coverage : Coverage}
    (h : layout.coverageOf arch = .ok coverage) :
    ∃ members, layout.membersOf arch = .ok members ∧ coverage = .ofArchitecture arch members ∧
      ∀ member ∈ members, staysInside member.source = true ∧
        isOverwritten layout.outputs member.source = false := by
  obtain ⟨members, hmembers, hcoverage, hrules, -⟩ := coverageOf_eq_ok_iff.mp h
  exact ⟨members, hmembers, hcoverage, hrules⟩

/-- The members of an architecture have different names. -/
theorem nodup_of_coverageOf {layout : Layout} {arch : Architecture} {coverage : Coverage}
    {members : List Member} (h : layout.coverageOf arch = .ok coverage)
    (hmembers : layout.membersOf arch = .ok members) : (members.map Member.name).Nodup := by
  obtain ⟨listed, hlisted, -, -, hnodup⟩ := coverageOf_eq_ok_iff.mp h
  obtain rfl : listed = members := Except.ok.inj (hlisted.symm.trans hmembers)
  exact hnodup

/-! ## All rules -/

/-- A layout keeps its rules exactly if it keeps each of them. -/
theorem check_eq_ok_iff {layout : Layout} : layout.check = .ok () ↔
    checkArtifactName layout.treeArtifact = .ok () ∧ layout.architectures ≠ [] ∧
      checkArchitectures [] [layout.treeArtifact] layout.architectures = .ok () ∧
      (∀ template ∈ layout.templates, checkTemplateText template.name = .ok () ∧
        checkTemplateText template.source = .ok ()) ∧
      (layout.common ≠ [] ∨ layout.templates ≠ []) ∧
      ∃ coverages, layout.architectureCoverages = .ok coverages := by
  have hmembers : ¬ (layout.common.isEmpty && layout.templates.isEmpty) = true ↔
      layout.common ≠ [] ∨ layout.templates ≠ [] := by
    rw [Bool.and_eq_true, not_and_or, List.isEmpty_iff, List.isEmpty_iff]
  have hlast : (discard layout.architectureCoverages : Except LayoutFault Unit) = .ok () ↔
      ∃ coverages, layout.architectureCoverages = .ok coverages := by
    cases layout.architectureCoverages with
    | error fault => exact iff_of_false nofun (by simp)
    | ok coverages => exact iff_of_true rfl ⟨coverages, rfl⟩
  rw [check]
  simp only [check_then_eq_ok_iff, guard_eq_ok_iff, forM_eq_ok_iff, hmembers, hlast,
    List.isEmpty_iff]

/-- Together with the one over the whole tree the signatures have different names, if those of the
architectures have and none of them is taken. -/
theorem nodup_outputs_iff {layout : Layout} : layout.outputs.Nodup ↔
    (∀ arch ∈ layout.architectures, arch.artifact ∉ [layout.treeArtifact]) ∧
      (layout.architectures.map Architecture.artifact).Nodup := by
  rw [outputs, List.perm_append_comm.nodup_iff, List.singleton_append, List.nodup_cons]
  simp only [List.mem_map, List.mem_singleton, not_exists, not_and]

/-- **A layout that keeps its rules is valid.** -/
theorem valid_of_check {layout : Layout} (h : layout.check = .ok ()) :
    ∃ coverages, layout.Valid coverages := by
  obtain ⟨htree, -, harchs, -, -, coverages, hcoverages⟩ := check_eq_ok_iff.mp h
  obtain ⟨hrules, -, hnodup⟩ := checkArchitectures_eq_ok_iff.mp harchs
  have hpairs := mapM_eq_ok_iff.mp hcoverages
  have hartifacts : layout.architectures.map Architecture.artifact =
      coverages.map Coverage.artifact := by
    refine map_eq_map_of_forall₂ hpairs fun arch coverage hcoverage => ?_
    obtain ⟨members, -, rfl, -⟩ := coverageOf_eq_ok hcoverage
    rfl
  refine ⟨coverages, hcoverages, by rw [outputs, hartifacts], ?_, ?_, ?_⟩
  · intro name hname
    rw [outputs, List.mem_append, List.mem_singleton] at hname
    cases hname with
    | inl hmem =>
        obtain ⟨arch, harch, rfl⟩ := List.mem_map.mp hmem
        exact isArtifactName_of_check (checkArchitecture_eq_ok_iff.mp (hrules arch harch)).1
    | inr heq => rw [heq]; exact isArtifactName_of_check htree
  · exact nodup_outputs_iff.mpr
      ⟨fun arch harch => (checkArchitecture_eq_ok_iff.mp (hrules arch harch)).2.2.2, hnodup⟩
  · intro coverage hcoverage
    obtain ⟨arch, -, harch⟩ := exists_left_of_forall₂ hpairs hcoverage
    obtain ⟨members, -, heq, hmembers⟩ := coverageOf_eq_ok harch
    exact ⟨arch, members, heq, hmembers⟩

/-- The common members come first, then those of the templates. -/
theorem sources_of_membersOf {layout : Layout} {arch : Architecture} {members : List Member}
    (h : layout.membersOf arch = .ok members) : members.map Member.source =
      layout.common.map Path.mk ++
        layout.templates.map fun template => ⟨arch.fill template.source⟩ := by
  unfold membersOf at h
  obtain ⟨common, hcommon, h⟩ := bind_eq_ok_iff.mp h
  obtain ⟨expanded, hexpanded, hpure⟩ := bind_eq_ok_iff.mp h
  obtain rfl := pure_eq_ok_iff.mp hpure
  rw [List.map_append]
  congr 1
  · refine (map_eq_map_of_forall₂ (mapM_eq_ok_iff.mp hcommon) fun path member hmember => ?_).symm
    unfold Member.ofPath at hmember
    split at hmember
    · cases hmember
    · cases hmember
      rfl
  · refine (map_eq_map_of_forall₂ (mapM_eq_ok_iff.mp hexpanded)
      fun template member hmember => ?_).symm
    unfold Template.memberFor at hmember
    split at hmember
    · cases hmember
    · cases hmember
      rfl

/-- The coverages are made of these lists of members, each under different names. -/
abbrev Lists (lists : List (List Member)) (coverages : List Coverage) : Prop :=
  List.Forall₂ (fun members coverage => (∃ arch, coverage = .ofArchitecture arch members) ∧
    (members.map Member.name).Nodup) lists coverages

/-- A valid layout lists the members of every architecture. -/
theorem Valid.lists {layout : Layout} {coverages : List Coverage} (h : layout.Valid coverages) :
    ∃ lists, List.Forall₂ (fun arch members => layout.membersOf arch = .ok members)
        layout.architectures lists ∧ Lists lists coverages := by
  refine forall₂_exists_iff.mp ((mapM_eq_ok_iff.mp h.coverages_eq).imp fun arch coverage hof => ?_)
  obtain ⟨members, hmembers, hcoverage, -⟩ := coverageOf_eq_ok hof
  exact ⟨members, hmembers, ⟨arch, hcoverage⟩, nodup_of_coverageOf hof hmembers⟩

end PackageSeal.Layout
