import PackageSeal.Proofs.Disk.Flat
import PackageSeal.Proofs.Disk.Through
import PackageSeal.Proofs.Layout.Declared
import PackageSeal.Proofs.Path.Children
import PackageSeal.Proofs.Sealing.Sidecars

/-!
# The files of the signatures

Where the signatures of an accepted layout come to stand. Their names hold no separator and are
different, so they are joined to different paths. One that is not dotted is a file of its own in the
root, neither a sidecar nor a source (`IsOwnFile`). It can still be called like the directory that a
source lies in (`Path.GoesBelow`), and on a disk that holds the sources and nothing else this is the
only way in which writing a signature meets a directory (`outputs_usable`). The rules let both kinds
of names pass (`output_on_directory`).
-/

namespace PackageSeal

variable {root : Path} {name : String}

/-! ## Sidecars -/

namespace Sidecar

/-- The sidecar of a path, whatever it is, is called like one. -/
theorem lastName?_pathFor (p : Path) : ∃ text, (pathFor p).lastName? = some (text ++ suffix) := by
  have hsuffix : '/' ∉ suffix.toList := by decide
  obtain ⟨front, last, hsplit, hlast⟩ := Text.exists_split_append p.text.toList hsuffix
  have hlastSep : '/' ∉ (String.ofList last).toList := by rwa [String.toList_ofList]
  have hname := isName_append_suffix hlastSep
  have hpiece : String.ofList (last ++ suffix.toList) = String.ofList last ++ suffix := by
    rw [← String.toList_inj, String.toList_append, String.toList_ofList, String.toList_ofList]
  refine ⟨String.ofList last, ?_⟩
  rw [Path.lastName?, Path.components, Path.marked, Path.pieces, pathFor, Path.extend,
    String.toList_append, hsplit, List.map_append, List.map_singleton, hpiece]
  cases front with
  | nil => simp [Path.leading_name hname]
  | cons first rest => simp [Path.inner_name hname]

end Sidecar

namespace Path

/-- The last name stays the last without the dots. -/
theorem getLast?_bare {p : Path} (h : p.lastName? = some name) :
    p.bare.getLast? = some (.name name) := by
  obtain ⟨front, hfront⟩ : ∃ front, p.components = front ++ [.name name] := by
    rw [lastName?] at h
    split at h
    · next text hlast =>
        obtain rfl := Option.some.inj h
        exact List.getLast?_eq_some_iff.mp hlast
    · cases h
  rw [bare, hfront, List.filter_append]
  exact List.getLast?_concat

/-! ## Sources -/

/-- The source goes on below a directory of this name in the root. -/
def GoesBelow (source : Path) (name : String) : Prop :=
  ∃ next rest, source.bare = .name name :: next :: rest

/-- A source that stays inside is, but for dots, the names that it enters. -/
theorem exists_texts {source : Path} (h : Layout.staysInside source = true) :
    ∃ texts, source.bare = texts.map Component.name ∧
      Step.names (Route.ofText source.text).steps = names texts :=
  ⟨source.components.filterMap Component.name?,
    Layout.filter_eq_names fun _ hmem => Layout.mem_of_staysInside h hmem, names_steps source⟩

end Path

namespace Layout

/-- The sources of the members of all architectures. -/
def sources (layout : Layout) : List Path :=
  layout.architectures.flatMap fun arch => (layout.rows arch).map fun row => ⟨row.2⟩

variable {layout : Layout}

theorem Declared.source (h : layout.Declared) {source : Path} (hsource : source ∈ layout.sources) :
    staysInside source = true ∧ ∀ name ∈ layout.outputs, source.bare ≠ [.name name] := by
  obtain ⟨arch, harch, hmem⟩ := List.mem_flatMap.mp hsource
  obtain ⟨row, hrow, rfl⟩ := List.mem_map.mp hmem
  have husable := h.usable arch harch row hrow
  exact ⟨staysInside_iff.mpr ⟨husable.relative, husable.inside⟩, husable.kept⟩

/-- The signature of this name is a file of its own in the root. -/
structure IsOwnFile (layout : Layout) (root : Path) (name : String) : Prop where
  child : (root.join ⟨name⟩).components = root.components ++ [.name name]
  called : (root.join ⟨name⟩).lastName? = some name
  not_sidecar : ∀ file, (root.join ⟨name⟩).bare ≠ (Sidecar.pathFor file).bare
  not_source : ∀ source ∈ layout.sources, (root.join ⟨name⟩).bare ≠ (root.join source).bare
  above_iff : ∀ source ∈ layout.sources,
    (root.join ⟨name⟩).bare <+: (root.join source).bare ↔ source.GoesBelow name

theorem IsPlain.isName (h : IsPlain name) (hdot : name ≠ ".") (hdots : name ≠ "..") :
    Text.IsName name :=
  ⟨h.ne_empty, hdot, hdots, h.no_separator⟩

/-- **A signature with a plain name is a file of its own.** -/
theorem Declared.isOwnFile (h : layout.Declared) (root : Path) (hmem : name ∈ layout.outputs)
    (hname : Text.IsName name) : layout.IsOwnFile root name := by
  have hchild := Path.components_join_name root hname
  have hcalled : (root.join ⟨name⟩).lastName? = some name := by
    rw [Path.lastName?, hchild, List.getLast?_concat]
  have habove : ∀ source ∈ layout.sources,
      (root.join ⟨name⟩).bare <+: (root.join source).bare ↔ source.GoesBelow name := by
    intro source hsource
    obtain ⟨hinside, hkept⟩ := h.source hsource
    rw [Path.bare_join_name root hname, Path.bare_join_inside hinside, List.prefix_append_right_inj]
    constructor
    · intro hprefix
      obtain ⟨rest, hrest⟩ := hprefix
      cases rest with
      | nil => exact absurd hrest.symm (hkept name hmem)
      | cons next rest => exact ⟨next, rest, hrest.symm⟩
    · intro hbelow
      obtain ⟨next, rest, hbare⟩ := hbelow
      exact ⟨next :: rest, hbare.symm⟩
  refine ⟨hchild, hcalled, fun file heq => ?_, fun source hsource heq => ?_, habove⟩
  · obtain ⟨text, htext⟩ := Sidecar.lastName?_pathFor file
    have hlast := Path.getLast?_bare hcalled
    rw [heq, Path.getLast?_bare htext, Option.some.injEq] at hlast
    exact (h.artifacts name hmem).not_sidecar text (Component.name.inj hlast).symm
  · obtain ⟨hinside, hkept⟩ := h.source hsource
    rw [Path.bare_join_name root hname, Path.bare_join_inside hinside] at heq
    exact hkept name hmem (List.append_cancel_left heq).symm

/-- Signatures are joined to different paths. -/
theorem Declared.nodup_joined (h : layout.Declared) (root : Path) :
    (layout.outputs.map fun name => (root.join ⟨name⟩).components).Nodup := by
  refine List.Nodup.map_on (fun name hname name' hname' heq => ?_) h.nodup_artifacts
  have hplain := h.artifacts name hname
  have hplain' := h.artifacts name' hname'
  exact Path.components_join_inj hplain.ne_empty hplain'.ne_empty hplain.no_separator
    hplain'.no_separator heq

end Layout

/-! ## On a disk -/

namespace Disk

variable {disk after : Disk} {start : Location} {sources : List Path}

/-- Below the place stand the files of the sources, and nothing else but what leads to them. -/
structure HoldsOnly (disk : Disk) (start : Location) (sources : List Path) : Prop where
  file : ∀ source ∈ sources, ∃ content,
    disk.at? (start ++ Step.names (Route.ofText source.text).steps) = some (.file content)
  only : ∀ rest item, rest ≠ [] → disk.at? (start ++ rest) = some item →
    ∃ source ∈ sources, rest <+: Step.names (Route.ofText source.text).steps

namespace HoldsOnly

/-- What stands under a name that no source has leads to a source. -/
theorem exists_goesBelow (h : disk.HoldsOnly start sources)
    (hsources : ∀ source ∈ sources, Layout.staysInside source = true ∧ source.bare ≠ [.name name])
    {item : Item} (hat : disk.at? (start ++ [.utf8 name]) = some item) :
    ∃ source ∈ sources, source.GoesBelow name := by
  obtain ⟨source, hsource, hprefix⟩ := h.only _ _ (List.cons_ne_nil _ []) hat
  obtain ⟨hinside, hkept⟩ := hsources source hsource
  obtain ⟨texts, hbare, hnames⟩ := Path.exists_texts hinside
  rw [hnames] at hprefix
  refine ⟨source, hsource, ?_⟩
  cases texts with
  | nil => simp at hprefix
  | cons first rest =>
      rw [Path.names, List.map_cons, List.cons_prefix_cons] at hprefix
      obtain rfl : name = first := RawText.utf8.inj hprefix.1
      cases rest with
      | nil => exact absurd hbare hkept
      | cons next rest => exact ⟨_, _, hbare⟩

/-- A source that goes on below a name has a directory there. -/
theorem dir_of_goesBelow (h : disk.HoldsOnly start sources) {source : Path}
    (hsource : source ∈ sources) (hinside : Layout.staysInside source = true)
    (hbelow : source.GoesBelow name) : disk.at? (start ++ [.utf8 name]) = some .dir := by
  obtain ⟨next, rest, hbare⟩ := hbelow
  obtain ⟨texts, htexts, hnames⟩ := Path.exists_texts hinside
  obtain ⟨content, hfile⟩ := h.file source hsource
  rw [hbare] at htexts
  obtain ⟨first, others, rfl, hfirst, hothers⟩ := List.map_eq_cons_iff.mp htexts.symm
  obtain rfl := Component.name.inj hfirst
  have hne : Path.names others ≠ [] := by
    rintro hnil
    rw [List.map_eq_nil_iff.mp hnil] at hothers
    cases hothers
  rw [hnames, Path.names, List.map_cons, List.append_cons] at hfile
  exact at?_eq_dir_of_append hne hfile

end HoldsOnly

end Disk

namespace Layout

variable {layout : Layout}

/-- **The files of the signatures.** The signatures of an accepted layout are joined to different
paths at every root. One whose name is not dotted is a file of its own in the root. If the disk
holds the sources and nothing else, then whatever files are written later, it meets a directory only
where a source goes on below its name. -/
theorem outputs_usable (hcheck : layout.check = .ok ()) (root : Path) :
    (layout.outputs.map fun name => (root.join ⟨name⟩).components).Nodup ∧
    ∀ name ∈ layout.outputs, name ≠ "." → name ≠ ".." → layout.IsOwnFile root name ∧
      ∀ disk start now, disk.Base root start → disk.HoldsOnly start layout.sources →
        Disk.SameShape disk now →
          (now.at? (start ++ [.utf8 name]) = some .dir ↔
            ∃ source ∈ layout.sources, source.GoesBelow name) ∧
          ∀ content, now.write (root.join ⟨name⟩) content = .error .isDirectory →
            ∃ source ∈ layout.sources, source.GoesBelow name := by
  have hdeclared := check_eq_ok_iff_declared.mp hcheck
  refine ⟨hdeclared.nodup_joined root, fun name hmem hdot hdots => ?_⟩
  have hname := (hdeclared.artifacts name hmem).isName hdot hdots
  refine ⟨hdeclared.isOwnFile root hmem hname, fun disk start now hbase hholds hshape => ?_⟩
  have hsources : ∀ source ∈ layout.sources,
      staysInside source = true ∧ source.bare ≠ [.name name] := by
    intro source hsource
    obtain ⟨hinside, hkept⟩ := hdeclared.source hsource
    exact ⟨hinside, hkept name hmem⟩
  have hdir : now.at? (start ++ [.utf8 name]) = some .dir ↔
      ∃ source ∈ layout.sources, source.GoesBelow name := by
    rw [hshape.dir_iff]
    constructor
    · exact hholds.exists_goesBelow hsources
    · intro ⟨source, hsource, hbelow⟩
      exact hholds.dir_of_goesBelow hsource (hsources source hsource).1 hbelow
  refine ⟨hdir, fun content hwrite => hdir.mp ?_⟩
  -- A link would be a link before the files were written, and only directories stand there then.
  refine (hbase.of_sameShape hshape).dir_of_write hname (fun target hlink => ?_) hwrite
  have hlink' := hshape.link_iff.mp hlink
  have hbelow := hholds.exists_goesBelow hsources hlink'
  rw [hshape.dir_iff.mp (hdir.mpr hbelow)] at hlink'
  cases hlink'

/-- A layout with one member, which lies in the directory `lib`. -/
def oneInLibrary (treeArtifact : String) : Layout :=
  ⟨treeArtifact, ["lib/x"], [], [⟨"x86", "s.sig", .thirtyTwo⟩]⟩

/-- A disk that holds this member and nothing else. -/
def libraryDisk : Disk :=
  ⟨.named [("lib", .named [("x", .file [1])])], []⟩

theorem libraryDisk_wellFormed : libraryDisk.WellFormed where
  top := by
    refine Node.wellFormed_named ["lib"] rfl (by decide) (by decide) ?_
    rw [List.forall_mem_singleton]
    refine Node.wellFormed_named ["x"] rfl (by decide) (by decide) ?_
    rw [List.forall_mem_singleton]
    exact Node.wellFormed_file [1]
  start := ⟨_, rfl⟩

theorem libraryDisk_base : libraryDisk.Base ⟨"."⟩ [] :=
  ⟨rfl, .inr ⟨_, rfl⟩⟩

theorem libraryDisk_holdsOnly (treeArtifact : String) :
    libraryDisk.HoldsOnly [] (oneInLibrary treeArtifact).sources where
  file source hsource := by
    obtain rfl : source = ⟨"lib/x"⟩ := List.mem_singleton.mp hsource
    exact ⟨[1], rfl⟩
  only rest item _ hat := by
    obtain ⟨node, hnode, -⟩ := Option.map_eq_some_iff.mp hat
    have hplace := (Node.mem_all_iff libraryDisk_wellFormed.top).mpr hnode
    have hall : ∀ loc ∈ libraryDisk.top.all.map Prod.fst,
        loc <+: Step.names (Route.ofText "lib/x").steps := by decide
    exact ⟨⟨"lib/x"⟩, List.mem_singleton.mpr rfl, hall rest (List.mem_map_of_mem hplace)⟩

/-- The signatures over the member have files of their own. -/
theorem outputs_usable_library : (oneInLibrary "t.sig").IsOwnFile ⟨"."⟩ "t.sig" ∧
    libraryDisk.at? [.utf8 "t.sig"] ≠ some .dir := by
  have hcheck : (oneInLibrary "t.sig").check = .ok () := rfl
  obtain ⟨-, hall⟩ := outputs_usable hcheck ⟨"."⟩
  obtain ⟨hown, hdisk⟩ := hall "t.sig" (by decide) (by decide) (by decide)
  obtain ⟨hdir, -⟩ := hdisk libraryDisk [] libraryDisk libraryDisk_base
    (libraryDisk_holdsOnly "t.sig") (Disk.SameShape.refl _)
  refine ⟨hown, fun hat => ?_⟩
  obtain ⟨source, hsource, next, rest, hbare⟩ := hdir.mp hat
  obtain rfl : source = ⟨"lib/x"⟩ := List.mem_singleton.mp hsource
  have hlib : (Path.mk "lib/x").bare = [.name "lib", .name "x"] := by decide
  rw [hlib] at hbare
  simp at hbare

/-- **A signature can meet a directory.** The rules let a signature be called like the directory of
a member or like the root itself, and neither can be written. -/
theorem output_on_directory :
    libraryDisk.Base ⟨"."⟩ [] ∧
    (∀ name ∈ ["lib", ".", ".."], (oneInLibrary name).check = .ok () ∧
      libraryDisk.HoldsOnly [] (oneInLibrary name).sources ∧
      libraryDisk.write (Path.join ⟨"."⟩ ⟨name⟩) [] = .error .isDirectory) ∧
    (Path.join ⟨"."⟩ ⟨"lib"⟩).bare <+: (Path.join ⟨"."⟩ ⟨"lib/x"⟩).bare ∧
    (Path.join ⟨"."⟩ ⟨"."⟩).lastName? = none ∧ (Path.join ⟨"."⟩ ⟨".."⟩).lastName? = none := by
  refine ⟨libraryDisk_base, ?_, ?_, rfl, rfl⟩
  · simp only [List.forall_mem_cons, List.not_mem_nil, false_implies, implies_true, and_true]
    exact ⟨⟨rfl, libraryDisk_holdsOnly _, rfl⟩, ⟨rfl, libraryDisk_holdsOnly _, rfl⟩, rfl,
      libraryDisk_holdsOnly _, rfl⟩
  · decide

end Layout

end PackageSeal
