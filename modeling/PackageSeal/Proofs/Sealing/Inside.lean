import PackageSeal.Proofs.Disk.Through
import PackageSeal.Proofs.Sealing.Sealed

/-!
# Where listed members are

The source of a listed member stays inside the package by its spelling, and the file is looked for
with links followed. So the file that is read is the one inside the package, which a walk of the
package finds too, if and only if no link stands on the way to it from the root (`sources_inside`).
Where one stands, it can lead out of the package (`link_at_source_followed`).
-/

namespace PackageSeal

namespace Disk

variable {disk : Disk} {root : Path} {start : Location} {content : Bytes}

/-- No link stands on the way to a file. -/
theorem not_linkOn_of_file {names : Location}
    (hat : disk.at? (start ++ names) = some (.file content)) :
    ¬ disk.LinkOn start names := by
  rintro ⟨front, rest, target, rfl, -, hlink⟩
  by_cases hrest : rest = []
  · rw [hrest, List.append_nil, hlink] at hat
    cases hat
  · rw [← List.append_assoc] at hat
    rw [at?_eq_dir_of_append hrest hat] at hlink
    cases hlink

variable {member : Member}

/-- A source that can be read stands at the place that its names spell, unless a link stands on the
way. -/
theorem exists_base_of_source (hw : disk.WellFormed)
    (hinside : Layout.staysInside member.source = true)
    (hread : disk.read (root.join member.source) = .ok content) :
    ∃ start, disk.Base root start ∧
      (disk.at? (start ++ member.place) = some (.file content) ↔
        ¬ disk.LinkOn start member.place) := by
  have habsolute := Layout.not_isAbsolute_of_staysInside hinside
  have hne := text_ne_empty_of_read hread
  obtain ⟨found, hleads, hat⟩ := read_eq_ok_iff.mp hread
  obtain ⟨start, hbase⟩ := hleads.exists_base hw habsolute hne
  refine ⟨start, hbase, not_linkOn_of_file, fun hfree => ?_⟩
  obtain heq | hlink := hbase.place_or_link (Path.continues_join habsolute hne)
    (Layout.up_notMem_of_staysInside hinside) hleads
  · rw [heq] at hat
    exact hat
  · exact absurd hlink hfree

/-- A walk finds a source, however it is spelled, if a file stands at the place that its names
spell. -/
theorem mem_filesUnder_iff (hw : disk.WellFormed) (hbase : disk.Base root start)
    (hinside : Layout.staysInside member.source = true) (hne : member.source.text ≠ "")
    {files : List Path} (hfiles : disk.filesUnder root = .ok files) :
    (∃ path ∈ files, path.components = (root.join member.source).components) ↔
      ∃ content, disk.at? (start ++ member.place) = some (.file content) := by
  obtain ⟨loc, hlisted⟩ := listed_of_filesUnder hw hfiles
  obtain rfl := (hlisted.leads.base hlisted.dir).unique hbase
  have hroot := hlisted.leads.text_ne_empty
  rw [Layout.components_join_inside hroot hinside hne, Member.place, Path.names_steps]
  constructor
  · rintro ⟨path, hpath, hcomponents⟩
    obtain ⟨texts, content, htexts, rfl, hat⟩ := (hlisted.mem_iff path).mp hpath
    rw [Path.components_descend hroot htexts, List.append_cancel_left_eq] at hcomponents
    rw [← List.map_injective_iff.mpr (fun _ _ => Component.name.inj) hcomponents]
    exact ⟨content, hat⟩
  · rintro ⟨content, hat⟩
    have htexts := fun text htext => (isName_of_names hw hat text htext).text
    exact ⟨_, (hlisted.mem_iff _).mpr ⟨_, content, htexts, rfl, hat⟩,
      Path.components_descend hroot htexts⟩

end Disk

namespace Coverage

variable {disk : Disk} {root : Path} {layout : Layout} {coverages : List Coverage}
  {coverage : Coverage} {roster : Roster}

/-- What is found of listed members are files at their sources, seen from the root. -/
theorem mem_of_members_listed {arch : Architecture} {listed : List Member}
    (h : (ofArchitecture arch listed).members disk root = .ok roster) {member : Member}
    (hmem : member ∈ roster.members) : ∃ source ∈ listed, member = source.under root ∧
      ∃ content, disk.read (root.join source.source) = .ok content := by
  obtain ⟨found, hfound, hperm⟩ := Roster.gather_eq_ok_iff.mp h
  obtain ⟨source, hsource, hpresent⟩ := exists_left_of_forall₂ hfound (hperm.mem_iff.mp hmem)
  obtain ⟨hfile, rfl⟩ := presentMember_eq_ok_iff.mp hpresent
  exact ⟨source, hsource, rfl, Disk.isFile_iff.mp hfile⟩

/-- **Where the members of an architecture are.** If they are found, the source of each stays inside
the package by its spelling and can be read. What is read is the file that stands inside the package
under these names, and what a walk of the package finds, exactly if no link stands on the way from
the root. -/
theorem sources_inside (hw : disk.WellFormed) (hcheck : layout.check = .ok ())
    (hcoverages : layout.architectureCoverages = .ok coverages) (hcoverage : coverage ∈ coverages)
    (hmembers : coverage.members disk root = .ok roster) :
    ∀ member ∈ roster.members, ∃ source : Member, member = source.under root ∧
      Layout.staysInside source.source = true ∧ ∃ start content, disk.Base root start ∧
        disk.read member.source = .ok content ∧
        (disk.at? (start ++ source.place) = some (.file content) ↔
          ¬ disk.LinkOn start source.place) ∧
        ∀ files, disk.filesUnder root = .ok files →
          ((∃ path ∈ files, path.components = member.source.components) ↔
            ¬ disk.LinkOn start source.place) := by
  intro member hmember
  obtain ⟨checked, hvalid⟩ := Layout.valid_of_check hcheck
  obtain rfl : checked = coverages := Except.ok.inj (hvalid.coverages_eq.symm.trans hcoverages)
  obtain ⟨arch, listed, rfl, hrules⟩ := hvalid.listed coverage hcoverage
  obtain ⟨source, hsource, rfl, content, hread⟩ := mem_of_members_listed hmembers hmember
  have hinside := (hrules source hsource).1
  obtain ⟨start, hbase, hplace⟩ := Disk.exists_base_of_source hw hinside hread
  refine ⟨source, rfl, hinside, start, content, hbase, hread, hplace, fun files hfiles => ?_⟩
  refine (Disk.mem_filesUnder_iff hw hbase hinside (Disk.text_ne_empty_of_read hread)
    hfiles).trans ?_
  rw [← hplace]
  constructor
  · rintro ⟨content', hat⟩
    exact hplace.mpr (Disk.not_linkOn_of_file hat)
  · intro hat
    exact ⟨content, hat⟩

end Coverage

namespace Sealing

/-- A walk finds the member of the small package. -/
theorem sources_inside_small : ∃ files, (smallDisk [] [] [] [] []).filesUnder ⟨"."⟩ = .ok files ∧
    ∃ path ∈ files, path.components = [.here, .name "a"] := by
  have hmembers : smallCoverage.members (smallDisk [] [] [] [] []) ⟨"."⟩ =
      .ok (.ofMembers [⟨MemberName.a, ⟨"./a"⟩⟩] (List.pairwise_singleton _ _)) := rfl
  obtain ⟨source, -, -, start, content, -, -, -, hfiles⟩ :=
    Coverage.sources_inside (smallDisk_wellFormed [] [] [] [] []) (rfl : small.check = .ok ())
      (rfl : small.architectureCoverages = .ok [smallCoverage]) List.mem_cons_self hmembers _
      List.mem_cons_self
  have hfound := filesUnder_smallDisk [] [] [] [] []
  exact ⟨_, hfound, (hfiles _ hfound).mpr ((Disk.flat_linkFree start).not_linkOn _)⟩

/-- A package whose only member is a link to a file beside the package. -/
def outsideDisk : Disk :=
  .packaged [("a", .link (.utf8 "../v"))] [7]

/-- **A member can come from outside the package**: the layout keeps its rules and the member is
found, but what is read stands beside the package, and a walk of the package finds nothing. -/
theorem link_at_source_followed : small.check = .ok () ∧
    small.architectureCoverages = .ok [smallCoverage] ∧ outsideDisk.WellFormed ∧
    ∃ roster, smallCoverage.members outsideDisk ⟨"p"⟩ = .ok roster ∧
      roster.members = [⟨MemberName.a, ⟨"p/a"⟩⟩] ∧ outsideDisk.read ⟨"p/a"⟩ = .ok [7] ∧
      outsideDisk.filesUnder ⟨"p"⟩ = .ok [] := by
  refine ⟨rfl, rfl, ?_,
    .ofMembers [⟨MemberName.a, ⟨"p/a"⟩⟩] (List.pairwise_singleton _ _), rfl, rfl, rfl, ?_⟩
  · refine Disk.packaged_wellFormed (Node.wellFormed_named ["a"] rfl (by decide) (by decide) ?_)
    rw [List.forall_mem_singleton]
    exact Node.wellFormed_link (by decide) (by decide) (by decide)
  · rw [outsideDisk, Disk.filesUnder_packaged [] rfl (by simp [Node.inside]) rfl,
      Path.sort_eq_self (by decide)]
    rfl

end Sealing

end PackageSeal
