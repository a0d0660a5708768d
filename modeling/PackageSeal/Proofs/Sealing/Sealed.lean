import PackageSeal.Proofs.Disk.Flat
import PackageSeal.Proofs.Sealing.Sidecars
import PackageSeal.Proofs.Sealing.Signatures

/-!
# What sealing leaves behind

A run goes through four phases, and each reads the tree that those before it wrote into. What keeps
them apart are names: signatures are called differently from each other, from sidecars and from
sources. So each phase is described by what it touches and what it leaves, and what one leaves is
still there after the others, with a key or without (`furnished_of_ends`, `sealed_of_ends`).
-/

namespace PackageSeal

/-- No link stands below what the path leads to. -/
def Disk.NoLinks (disk : Disk) (root : Path) : Prop :=
  ∀ loc, disk.Leads root loc → disk.LinkFree loc

namespace Sealing

variable {scheme : SignatureScheme} {seed? : Option Seed} {root : Path} {layout : Layout}
  {loc : Location} {before signed listed whole after : Disk} {coverages : List Coverage}

/-! ## Names of a valid layout -/

/-- The listed coverages of a valid layout keep away from all signatures. -/
theorem listing_of_valid (hvalid : layout.Valid coverages) {coverage : Coverage}
    (hmem : coverage ∈ coverages) : Listing loc layout.outputs coverage := by
  obtain ⟨arch, members, hcoverage, hmembers⟩ := hvalid.listed coverage hmem
  have hname := hvalid.artifact_mem hmem
  refine ⟨⟨arch, members, hcoverage, fun member hmember => ?_⟩,
    hvalid.isArtifactName _ hname, hname⟩
  obtain ⟨hinside, hover⟩ := hmembers member hmember
  exact ⟨hinside, not_isOutput_place hinside hover⟩

theorem tree_mem_outputs (layout : Layout) : layout.treeArtifact ∈ layout.outputs :=
  List.mem_append_right _ List.mem_cons_self

/-- The signature over the tree is none of those of the architectures. -/
theorem tree_notMem (hvalid : layout.Valid coverages) :
    layout.treeArtifact ∉ coverages.map Coverage.artifact := by
  have hnodup := hvalid.nodup_outputs
  rw [hvalid.outputs_eq, List.nodup_append] at hnodup
  intro hmem
  exact hnodup.2.2 _ hmem _ List.mem_cons_self rfl

/-- No signature stands at the place of a sidecar. -/
theorem not_markedBelow_output (hvalid : layout.Valid coverages) {name : String}
    (hname : name ∈ layout.outputs) : ¬ Sidecar.MarkedBelow loc (loc ++ [.utf8 name]) := by
  rw [Sidecar.markedBelow_append_iff, Sidecar.isMarkedPlace_singleton_iff, Bool.not_eq_true]
  exact (hvalid.isArtifactName name hname).not_marked

/-! ## The root -/

/-- A run can only end where the root path leads to a directory from the start. -/
theorem Writes.rooted {paths : List Path} {count : Nat}
    (h : Writes scheme root layout seed? before signed listed whole after paths count)
    (hw : before.WellFormed) (hfree : before.NoLinks root) : ∃ loc, before.Rooted root loc := by
  obtain ⟨targets, -, hsigned, -⟩ := h.architectures
  obtain ⟨hshape, hw'⟩ := hsigned.sameShape hw
  obtain ⟨others, hlisted, -⟩ := h.sidecars
  obtain ⟨paths, hsubjects, -⟩ := Sidecar.ends_writeAll.mp hlisted
  obtain ⟨files, hfiles, -⟩ := Sidecar.subjects_eq_ok_iff.mp hsubjects
  obtain ⟨loc, hfound⟩ := Disk.listed_of_filesUnder hw' hfiles
  have hdir := hshape.dir_iff.mp hfound.dir
  have hleads := hfound.leads.of_sameShape hshape.symm (by rw [hdir]; simp)
  exact ⟨loc, hw, hleads, hdir, hfree loc hleads⟩

/-! ## The phases -/

/-- After the first phase every architecture has its signature over what its sources held. -/
theorem after_signatures (hroot : before.Rooted root loc) (hvalid : layout.Valid coverages)
    (h : Inscribed scheme seed? root before before coverages signed) : signed.Rooted root loc ∧
      before.Differs (IsOutput loc (coverages.map Coverage.artifact)) signed ∧
      ∀ coverage ∈ coverages, ∃ content,
        Inscription scheme seed? root before before coverage content ∧
        signed.Stores (coverage.artifactPath root) (loc ++ [.utf8 coverage.artifact]) content := by
  have hnodup := hvalid.nodup_outputs
  rw [hvalid.outputs_eq, List.nodup_append] at hnodup
  obtain ⟨hsigned, hdiffers, hall⟩ := h.stores hroot hroot (Disk.Differs.refl before _)
    (fun coverage hcoverage => listing_of_valid hvalid hcoverage) hnodup.1
  exact ⟨hsigned, hdiffers, fun coverage hcoverage => (hall coverage hcoverage).2⟩

/-- What the last two phases leave behind: the signature over the tree and its sidecar. -/
structure TreeWritten (scheme : SignatureScheme) (seed? : Option Seed) (root : Path)
    (layout : Layout) (loc : Location) (content : Bytes) (listed whole after : Disk) : Prop where
  isSubject : Sidecar.IsSubject [layout.treeArtifact]
  after_rooted : after.Rooted root loc
  first : listed.Differs (· = loc ++ Path.names [layout.treeArtifact]) whole
  second : whole.Differs (· = loc ++ Path.names (Sidecar.beside [layout.treeArtifact])) after
  inscription : Inscription scheme seed? root after after layout.treeCoverage content
  accompanied : Sidecar.Accompanied after root loc [layout.treeArtifact] content

/-- After the last two phases the tree has its signature, with a sidecar, over what there is at the
end. -/
theorem after_tree (hroot : listed.Rooted root loc) (hvalid : layout.Valid coverages)
    {content : Bytes}
    (hcontent : Inscription scheme seed? root listed listed layout.treeCoverage content)
    (hwrite : listed.write (layout.treeCoverage.artifactPath root) content = .ok whole)
    {path : Path}
    (hlast : (Sidecar.write (layout.treeCoverage.artifactPath root)).Ends whole path after) :
    TreeWritten scheme seed? root layout loc content listed whole after := by
  have hplain := hvalid.isArtifactName _ (tree_mem_outputs layout)
  obtain ⟨hname, hover, hwhole, hstores⟩ :=
    hroot.write_name hplain.ne_empty hplain.no_separator hwrite
  have hsubject : Sidecar.IsSubject [layout.treeArtifact] :=
    ⟨List.forall_mem_singleton.mpr hname, [], _, rfl, hplain.not_marked⟩
  -- The last sidecar is one written alone.
  have hruns : (([[layout.treeArtifact]].map fun texts => root.descend (Path.names texts)).forM
      fun path => discard (Sidecar.write path)).Ends whole () after :=
    Action.ends_forM_cons.mpr
      ⟨after, Action.ends_discard.mpr ⟨path, hlast⟩, Action.ends_forM_nil.mpr rfl⟩
  obtain ⟨hafter, hdiffers, hpair⟩ := Sidecar.ends_sidecars hwhole
    (List.forall_mem_singleton.mpr hsubject) (List.nodup_singleton _) hruns
  have hfirst : listed.Differs (· = loc ++ Path.names [layout.treeArtifact]) whole :=
    hover.differs rfl
  have hsecond : whole.Differs
      (· = loc ++ Path.names (Sidecar.beside [layout.treeArtifact])) after := by
    refine hdiffers.mono ?_
    rintro place ⟨texts, htexts, rfl⟩
    rw [List.mem_singleton.mp htexts]
  refine ⟨hsubject, hafter, hfirst, hsecond, hcontent.of_holds fun held hheld => ?_,
    hpair _ List.mem_cons_self _ hstores.at?_eq⟩
  -- Both writes are to files called like the signature or its sidecar.
  have hboth : listed.Differs (fun place => place = loc ++ Path.names [layout.treeArtifact] ∨
      place = loc ++ Path.names (Sidecar.beside [layout.treeArtifact])) after :=
    (hfirst.mono fun place => .inl).trans (hsecond.mono fun place => .inr)
  refine Coverage.holds_tree_of_differs ?_ hroot hafter.wellFormed hboth hheld
  intro place hplace
  cases hplace with
  | inl heq => exact ⟨_, heq, .inl rfl⟩
  | inr heq => exact ⟨_, heq, .inr rfl⟩

variable {content : Bytes}

theorem ne_tree {texts : List String} (hne : texts ≠ [layout.treeArtifact]) :
    loc ++ Path.names texts ≠ loc ++ Path.names [layout.treeArtifact] := by
  intro heq
  exact hne (Path.names_inj (List.append_cancel_left heq))

/-- The last two phases leave every other file that has a sidecar as it is, -/
theorem TreeWritten.at?_eq
    (h : TreeWritten scheme seed? root layout loc content listed whole after)
    {texts : List String} (hsubject : Sidecar.IsSubject texts)
    (hne : texts ≠ [layout.treeArtifact]) :
    after.at? (loc ++ Path.names texts) = listed.at? (loc ++ Path.names texts) := by
  rw [h.second.at?_eq (hsubject.ne_beside h.isSubject.ne_nil), h.first.at?_eq (ne_tree hne)]

/-- together with its sidecar. -/
theorem TreeWritten.accompanied_of_ne
    (h : TreeWritten scheme seed? root layout loc content listed whole after) {texts : List String}
    (hsubject : Sidecar.IsSubject texts) (hne : texts ≠ [layout.treeArtifact]) {held : Bytes}
    (hpair : Sidecar.Accompanied listed root loc texts held) :
    Sidecar.Accompanied after root loc texts held := by
  have hbeside : loc ++ Path.names [layout.treeArtifact] ≠
      loc ++ Path.names (Sidecar.beside texts) := h.isSubject.ne_beside hsubject.ne_nil
  have hwhole := hpair.of_differs h.first (ne_tree hne) fun heq => hbeside heq.symm
  exact hwhole.of_differs h.second (hsubject.ne_beside h.isSubject.ne_nil)
    (hsubject.beside_ne_beside h.isSubject hne)

/-- The last two phases leave everything but the signature over the tree and the sidecars. -/
theorem TreeWritten.stores
    (h : TreeWritten scheme seed? root layout loc content listed whole after)
    {path : Path} {place : Location} {held : Bytes} (hstores : listed.Stores path place held)
    (hne : place ≠ loc ++ Path.names [layout.treeArtifact])
    (hunmarked : ¬ Sidecar.MarkedBelow loc place) : after.Stores path place held := by
  refine h.second.stores (h.first.stores hstores hne) fun heq => hunmarked ?_
  rw [heq, Sidecar.markedBelow_append_iff]
  exact Sidecar.isMarkedPlace_beside h.isSubject.ne_nil

/-- What stands at the places of the sidecars is called like one. -/
theorem markedBelow_of_subjects {excluded : List String} {places : List (List String × Bytes)}
    (hplaces : Sidecar.IsSubjects signed loc excluded places) {place : Location}
    (h : ∃ texts ∈ places.map Prod.fst, place = loc ++ Path.names (Sidecar.beside texts)) :
    Sidecar.MarkedBelow loc place := by
  obtain ⟨texts, htexts, rfl⟩ := h
  exact Sidecar.markedBelow_append_iff.mpr
    (Sidecar.isMarkedPlace_beside (hplaces.isSubject texts htexts).ne_nil)

/-- **At the end every file has its sidecar**, as many as were written. -/
theorem after_sidecars (hdiffers : signed.Differs (Sidecar.MarkedBelow loc) listed)
    {places : List (List String × Bytes)}
    (hplaces : Sidecar.IsSubjects signed loc [layout.treeArtifact] places)
    (hpairs : ∀ texts content, (texts, content) ∈ places →
      Sidecar.Accompanied listed root loc texts content)
    (h : TreeWritten scheme seed? root layout loc content listed whole after) :
    ∃ final, Sidecar.IsSubjects after loc [] final ∧ final.length = places.length + 1 ∧
      ∀ texts content, (texts, content) ∈ final →
        Sidecar.Accompanied after root loc texts content := by
  have hfree : ∀ texts content, (texts, content) ∈ places →
      Sidecar.IsSubject texts ∧ texts ≠ [layout.treeArtifact] := by
    intro texts content hmem
    obtain ⟨hsubject, hexcluded, -⟩ := (hplaces.mem_iff texts content).mp hmem
    exact ⟨hsubject, hexcluded _ List.mem_cons_self⟩
  refine ⟨places ++ [([layout.treeArtifact], content)], ⟨?_, fun texts held => ?_⟩, ?_, ?_⟩
  · rw [List.map_append, List.nodup_append]
    refine ⟨hplaces.nodup, List.nodup_singleton _, ?_⟩
    intro texts htexts other hother heq
    obtain ⟨place, hplace, rfl⟩ := List.mem_map.mp htexts
    exact (hfree place.1 place.2 hplace).2 (heq.trans (List.mem_singleton.mp hother))
  · simp only [List.mem_append, List.mem_singleton, Prod.mk.injEq, List.not_mem_nil,
      false_implies, implies_true, true_and]
    by_cases heq : texts = [layout.treeArtifact]
    · subst heq
      have hnot : ([layout.treeArtifact], held) ∉ places :=
        fun hmem => (hfree _ _ hmem).2 rfl
      rw [h.accompanied.file.at?_eq]
      simp [hnot, h.isSubject, eq_comm]
    · rw [hplaces.mem_iff]
      simp only [heq, false_and, or_false]
      refine and_congr_right fun hsubject => ?_
      have hsame : listed.at? (loc ++ Path.names texts) = signed.at? (loc ++ Path.names texts) := by
        refine hdiffers.at?_eq fun hmarked => hsubject.not_isMarkedPlace ?_
        exact Sidecar.markedBelow_append_iff.mp hmarked
      rw [h.at?_eq hsubject heq, hsame]
      simp [heq]
  · rw [List.length_append, List.length_singleton]
  · intro texts held hmem
    rw [List.mem_append, List.mem_singleton] at hmem
    cases hmem with
    | inl hmem =>
        obtain ⟨hsubject, hne⟩ := hfree texts held hmem
        exact h.accompanied_of_ne hsubject hne (hpairs texts held hmem)
    | inr heq =>
        obtain ⟨rfl, rfl⟩ := Prod.mk.inj heq
        exact h.accompanied

/-! ## The whole run -/

/-- What a run makes of the files on a disk: the signatures, and the sidecars of the files that are
there and of the signatures. -/
def IsProduct (disk : Disk) (loc : Location) (names : List String) (place : Location) : Prop :=
  IsOutput loc names place ∨ ∃ texts, Sidecar.IsSubject texts ∧
    ((∃ content, disk.at? (loc ++ Path.names texts) = some (.file content)) ∨
      IsOutput loc names (loc ++ Path.names texts)) ∧
    place = loc ++ Path.names (Sidecar.beside texts)

theorem isProduct_beside_tree (hsubject : Sidecar.IsSubject [layout.treeArtifact]) :
    IsProduct before loc layout.outputs
      (loc ++ Path.names (Sidecar.beside [layout.treeArtifact])) :=
  .inr ⟨_, hsubject, .inr (isOutput_iff.mpr (tree_mem_outputs layout)), rfl⟩

/-- The last two phases touch the signature over the tree and its sidecar. -/
theorem TreeWritten.differs
    (h : TreeWritten scheme seed? root layout loc content listed whole after) :
    listed.Differs (IsProduct before loc layout.outputs) after := by
  refine (h.first.mono fun place heq => ?_).trans (h.second.mono fun place heq => ?_)
  · rw [heq]
    exact .inl (isOutput_iff.mpr (tree_mem_outputs layout))
  · rw [heq]
    exact isProduct_beside_tree h.isSubject

/-- The files that have a sidecar after the first phase were there or are signatures. -/
theorem isProduct_of_subjects {names : List String} {excluded : List String}
    (hdiffers : before.Differs (IsOutput loc names) signed) {places : List (List String × Bytes)}
    (hplaces : Sidecar.IsSubjects signed loc excluded places) {place : Location}
    (h : ∃ texts ∈ places.map Prod.fst, place = loc ++ Path.names (Sidecar.beside texts)) :
    IsProduct before loc names place := by
  obtain ⟨texts, htexts, rfl⟩ := h
  obtain ⟨⟨texts, held⟩, hmem, rfl⟩ := List.mem_map.mp htexts
  obtain ⟨hsubject, -, hat⟩ := (hplaces.mem_iff texts held).mp hmem
  refine .inr ⟨texts, hsubject, ?_, rfl⟩
  by_cases houtput : IsOutput loc names (loc ++ Path.names texts)
  · exact .inr houtput
  · exact .inl ⟨held, by rw [← hdiffers.at?_eq houtput, hat]⟩

/-- What a run leaves behind below the place of the root. -/
structure Furnished (scheme : SignatureScheme) (key : Except KeyProblem Seed) (root : Path)
    (layout : Layout) (coverages : List Coverage) (loc : Location) (before after : Disk)
    (report : Report) : Prop where
  before_rooted : before.Rooted root loc
  after_rooted : after.Rooted root loc
  walkable : after.Walkable root loc
  differs : before.Differs (IsProduct before loc layout.outputs) after
  outcome : report.outcome = outcomeOf scheme key
  artifacts : report.artifacts = layout.outputs.map fun name => root.join ⟨name⟩
  /-- What stands in the file of every architecture is made of what its sources held before. -/
  inscriptions : ∀ coverage ∈ coverages, ∃ content,
    Inscription scheme key.toOption root before before coverage content ∧
    after.read (coverage.artifactPath root) = .ok content
  /-- What stands in the file for the tree is made of what there is now. -/
  treeInscription : ∃ content,
    Inscription scheme key.toOption root after after layout.treeCoverage content ∧
    after.read (layout.treeCoverage.artifactPath root) = .ok content
  /-- Every file has its sidecar. -/
  sidecars : ∃ places, Sidecar.IsSubjects after loc [] places ∧
    report.sidecars = places.length ∧
    ∀ texts content, (texts, content) ∈ places →
      Sidecar.Accompanied after root loc texts content

/-- Every name that a run writes is text. -/
theorem exists_text_of_isProduct {names : List String} {rest : Location} {name : RawText}
    (h : IsProduct before loc names (loc ++ (rest ++ [name]))) : ∃ text, name = .utf8 text := by
  obtain ⟨text, -, heq⟩ | ⟨texts, hsubject, -, heq⟩ := h
  · rw [← List.nil_append [RawText.utf8 text]] at heq
    exact ⟨_, (List.append_singleton_inj.mp (List.append_cancel_left heq)).2⟩
  · obtain ⟨front, text, hbeside⟩ := Sidecar.isMarkedPlace_beside hsubject.ne_nil
    rw [hbeside] at heq
    exact ⟨_, (List.append_singleton_inj.mp (List.append_cancel_left heq)).2⟩

/-- **A run that ends leaves a furnished package**, with a key or without. -/
theorem furnished_of_ends (hS : scheme.Streams) (hw : before.WellFormed)
    (hfree : before.NoLinks root) {key : Except KeyProblem Seed} {report : Report}
    (hends : (withKey scheme root layout key).Ends before report after) :
    ∃ coverages loc, layout.Valid coverages ∧
      Furnished scheme key root layout coverages loc before after report := by
  obtain ⟨signed, listed, whole, h⟩ := (ends_withKey hS).mp hends
  obtain ⟨coverages, hvalid⟩ := Layout.valid_of_check h.check
  obtain ⟨loc, hroot⟩ := h.rooted hw hfree
  obtain ⟨targets, htargets, hsigned, hartifacts⟩ := h.architectures
  rw [hvalid.coverages_eq, Except.ok.injEq] at htargets
  subst htargets
  obtain ⟨count, hlisted, hcount⟩ := h.sidecars
  obtain ⟨content, hcontent, hwrite⟩ := h.tree
  obtain ⟨path, hlast⟩ := h.last
  -- Each phase starts from what the one before it left.
  obtain ⟨hsignedRoot, hfirst, hstores⟩ := after_signatures hroot hvalid hsigned
  have hplain := hvalid.isArtifactName _ (tree_mem_outputs layout)
  obtain ⟨hlistedRoot, hwalk, places, hplaces, rfl, hsecond, hpairs⟩ :=
    Sidecar.ends_writeAll_places hsignedRoot
      (List.forall_mem_singleton.mpr hplain.no_separator) hlisted
  have hmarked := hsecond.mono fun place => markedBelow_of_subjects hplaces
  have htree := after_tree hlistedRoot hvalid hcontent hwrite hlast
  obtain ⟨final, hfinal, hlength, hall⟩ := after_sidecars hmarked hplaces hpairs htree
  have houtputs : ∀ place, IsOutput loc (coverages.map Coverage.artifact) place →
      IsOutput loc layout.outputs place := by
    intro place hplace
    refine hplace.mono ?_
    rw [hvalid.outputs_eq]
    exact List.subset_append_left _ _
  have hbefore := hfirst.mono houtputs
  have hrest : signed.Differs (IsProduct before loc layout.outputs) after :=
    (hsecond.mono fun place => isProduct_of_subjects hbefore hplaces).trans htree.differs
  refine ⟨coverages, loc, hvalid, hroot, htree.after_rooted, ?_,
    (hbefore.mono fun place => .inl).trans hrest, h.outcome, ?_, ?_,
    ⟨content, htree.inscription, htree.accompanied.file.read⟩, final, hfinal,
    by rw [hcount, hlength], hall⟩
  · exact hrest.walkable hwalk fun rest name => exists_text_of_isProduct
  · rw [hartifacts, hvalid.outputs_eq, List.map_append, List.map_append, List.map_map]
    rfl
  · intro coverage hcoverage
    obtain ⟨content, hcontent, hstored⟩ := hstores coverage hcoverage
    -- None of the later phases writes over the signature.
    have hunmarked : ¬ Sidecar.MarkedBelow loc (loc ++ [.utf8 coverage.artifact]) :=
      not_markedBelow_output hvalid (hvalid.artifact_mem hcoverage)
    have hother : [coverage.artifact] ≠ [layout.treeArtifact] := by
      intro heq
      exact tree_notMem hvalid ((List.cons.inj heq).1 ▸ List.mem_map_of_mem hcoverage)
    have hlisted := hmarked.stores hstored hunmarked
    exact ⟨content, hcontent, (htree.stores hlisted (ne_tree hother) hunmarked).read⟩

/-! ## With a key -/

variable {seed : Seed} {report : Report}

/-- What a run with a key leaves behind below the place of the root. -/
abbrev Sealed (scheme : SignatureScheme) (seed : Seed) (root : Path) (layout : Layout)
    (coverages : List Coverage) (loc : Location) (before after : Disk) (report : Report) : Prop :=
  Furnished scheme (.ok seed) root layout coverages loc before after report

/-- Every architecture has a signature over what its sources held before. -/
theorem Sealed.runtime (h : Sealed scheme seed root layout coverages loc before after report)
    (coverage : Coverage) (hcoverage : coverage ∈ coverages) :
    ∃ held, coverage.Holds before root held ∧
      after.read (coverage.artifactPath root) = .ok (sealOver scheme seed held).octets := by
  obtain ⟨_, hcontent, hread⟩ := h.inscriptions coverage hcoverage
  obtain ⟨held, hheld, rfl⟩ := inscription_some_iff.mp hcontent
  exact ⟨held, hheld, hread⟩

/-- The tree has a signature over what there is now. -/
theorem Sealed.tree (h : Sealed scheme seed root layout coverages loc before after report) :
    ∃ held, layout.treeCoverage.Holds after root held ∧
      after.read (layout.treeCoverage.artifactPath root) =
        .ok (sealOver scheme seed held).octets := by
  obtain ⟨_, hcontent, hread⟩ := h.treeInscription
  obtain ⟨held, hheld, rfl⟩ := inscription_some_iff.mp hcontent
  exact ⟨held, hheld, hread⟩

/-- **A run with a key leaves a sealed package.** -/
theorem sealed_of_ends (hS : scheme.Streams) (hw : before.WellFormed)
    (hfree : before.NoLinks root)
    (hends : (withKey scheme root layout (.ok seed)).Ends before report after) :
    ∃ coverages loc, layout.Valid coverages ∧
      Sealed scheme seed root layout coverages loc before after report :=
  furnished_of_ends hS hw hfree hends

/-! ## A small package

A package to show statements on: one member, one architecture, and everything there from a run
before. -/

section Small

/-- A layout with one member and one architecture. -/
def small : Layout :=
  ⟨"t", ["a"], [], [⟨"x86", "s", .thirtyTwo⟩]⟩

/-- The package, by what its signatures and sidecars hold. -/
def smallDisk (aSum s sSum t tSum : Bytes) : Disk :=
  .flat [("a", [1]), ("a.sha256", aSum), ("s", s), ("s.sha256", sSum), ("t", t),
    ("t.sha256", tSum)]

/-- The seed of all zeros. -/
def smallSeed : Seed :=
  ⟨List.replicate 32 0, by simp⟩

/-- The coverage of the architecture. -/
def smallCoverage : Coverage :=
  .ofArchitecture ⟨"x86", "s", .thirtyTwo⟩ [Member.a]

/-- The names that the signature over the tree covers. -/
def smallNames : List MemberName :=
  [MemberName.a, ⟨"a.sha256", by decide, by decide, by decide, rfl⟩,
    ⟨"s", by decide, by decide, by decide, rfl⟩,
    ⟨"s.sha256", by decide, by decide, by decide, rfl⟩]

variable (aSum s sSum t tSum : Bytes)

theorem smallDisk_wellFormed : (smallDisk aSum s sSum t tSum).WellFormed :=
  Disk.flat_wellFormed ["a", "a.sha256", "s", "s.sha256", "t", "t.sha256"] rfl (by decide)
    (by decide)

theorem smallDisk_noLinks (root : Path) : (smallDisk aSum s sSum t tSum).NoLinks root :=
  fun loc _ => Disk.flat_linkFree loc

theorem filesUnder_smallDisk : (smallDisk aSum s sSum t tSum).filesUnder ⟨"."⟩ =
    .ok (["a", "a.sha256", "s", "s.sha256", "t", "t.sha256"].map fun name =>
      Path.join ⟨"."⟩ ⟨name⟩) := by
  rw [smallDisk, Disk.filesUnder_flat ["a", "a.sha256", "s", "s.sha256", "t", "t.sha256"] rfl rfl,
    Path.sort_eq_self (by decide)]

theorem small_holds : small.treeCoverage.Holds (smallDisk aSum s sSum t tSum) ⟨"."⟩
    (smallNames.zip [[1], aSum, s, sSum]) := by
  have hmembers : small.treeCoverage.members (smallDisk aSum s sSum t tSum) ⟨"."⟩ =
      .ok (.ofMembers (smallNames.map fun name => ⟨name, Path.join ⟨"."⟩ ⟨name.text⟩⟩)
        (by decide)) := by
    show (Sidecar.filesUnder _ _ >>= _) = _
    rw [Sidecar.filesUnder, filesUnder_smallDisk]
    rfl
  exact ⟨_, hmembers, rfl⟩

theorem smallCoverage_holds : smallCoverage.Holds (smallDisk aSum s sSum t tSum) ⟨"."⟩
    [(MemberName.a, [1])] :=
  ⟨.ofMembers [⟨MemberName.a, ⟨"./a"⟩⟩] (List.pairwise_singleton _ _), rfl, rfl⟩

/-- The files of the small package but the signature over the tree get their sidecars. -/
theorem small_sidecars : (Sidecar.writeAll ⟨"."⟩ ["t"]).Ends (smallDisk aSum s sSum t tSum) 2
    (smallDisk (Sidecar.digest [1]) s (Sidecar.digest s) t tSum) := by
  -- Sidecars are written whatever they hold, so no checksum is computed.
  have hfirst : ∀ content, (smallDisk aSum s sSum t tSum).write ⟨"./a.sha256"⟩ content =
      .ok (smallDisk content s sSum t tSum) := fun _ => rfl
  have hsecond : ∀ aSum content, (smallDisk aSum s sSum t tSum).write ⟨"./s.sha256"⟩ content =
      .ok (smallDisk aSum s content t tSum) := fun _ _ => rfl
  have hwrites : ([⟨"./a"⟩, ⟨"./s"⟩].forM fun path => discard (Sidecar.write path)).Ends
      (smallDisk aSum s sSum t tSum) ()
      (smallDisk (Sidecar.digest [1]) s (Sidecar.digest s) t tSum) :=
    Sidecar.ends_sidecars_cons rfl (hfirst (Sidecar.digest [1]))
      (Sidecar.ends_sidecars_cons rfl (hsecond _ (Sidecar.digest s)) (Action.ends_forM_nil.mpr rfl))
  exact Sidecar.ends_writeAll.mpr ⟨[⟨"./a"⟩, ⟨"./s"⟩], Sidecar.subjects_eq_ok_iff.mpr
    ⟨_, filesUnder_smallDisk _ _ _ _ _, by decide⟩, rfl, hwrites⟩

/-- The signature over the tree of the small package gets its sidecar. -/
theorem small_last : (Sidecar.write (Path.join ⟨"."⟩ ⟨"t"⟩)).Ends (smallDisk aSum s sSum t tSum)
    ⟨"./t.sha256"⟩ (smallDisk aSum s sSum t (Sidecar.digest t)) := by
  have hwrite : ∀ content, (smallDisk aSum s sSum t tSum).write ⟨"./t.sha256"⟩ content =
      .ok (smallDisk aSum s sSum t content) := fun _ => rfl
  exact Sidecar.ends_write.mpr ⟨rfl, t, rfl, hwrite (Sidecar.digest t)⟩

/-- A run furnishes the small package by every layout with these signatures, if its members are
there. -/
theorem small_furnished_of (hS : scheme.Streams) (key : Except KeyProblem Seed)
    {members : List Member} {held : List (MemberName × Bytes)} (hcheck : layout.check = .ok ())
    (hcoverages : layout.architectureCoverages =
      .ok [.ofArchitecture ⟨"x86", "s", .thirtyTwo⟩ members])
    (htree : layout.treeArtifact = "t")
    (hholds : Coverage.Holds (.ofArchitecture ⟨"x86", "s", .thirtyTwo⟩ members)
      (smallDisk aSum s sSum t tSum) ⟨"."⟩ held) : ∃ mark treeMark,
    (withKey scheme ⟨"."⟩ layout key).Ends (smallDisk aSum s sSum t tSum)
      ⟨outcomeOf scheme key, [⟨"./s"⟩, ⟨"./t"⟩], 3⟩
      (smallDisk (Sidecar.digest [1]) mark (Sidecar.digest mark) treeMark
        (Sidecar.digest treeMark)) := by
  obtain ⟨mark, hmark⟩ := exists_inscription scheme key.toOption hholds
  obtain ⟨treeMark, htreeMark⟩ := exists_inscription scheme key.toOption
    (small_holds (Sidecar.digest [1]) mark (Sidecar.digest mark) t tSum)
  have hput : (smallDisk aSum s sSum t tSum).write (Path.join ⟨"."⟩ ⟨"s"⟩) mark =
      .ok (smallDisk aSum mark sSum t tSum) := rfl
  have hsigned : Inscribed scheme key.toOption ⟨"."⟩ (smallDisk aSum s sSum t tSum)
      (smallDisk aSum s sSum t tSum) [.ofArchitecture ⟨"x86", "s", .thirtyTwo⟩ members]
      (smallDisk aSum mark sSum t tSum) := .cons hmark hput .nil
  have hputTree : ∀ aSum sSum content, (smallDisk aSum mark sSum t tSum).write
      (Path.join ⟨"."⟩ ⟨"t"⟩) content = .ok (smallDisk aSum mark sSum content tSum) :=
    fun _ _ _ => rfl
  have hpaths : [⟨"./s"⟩, ⟨"./t"⟩] = [Path.join ⟨"."⟩ ⟨"s"⟩, Path.join ⟨"."⟩ ⟨"t"⟩] := rfl
  obtain ⟨tree, common, templates, archs⟩ := layout
  obtain rfl : tree = "t" := htree
  exact ⟨mark, treeMark, (ends_withKey hS).mpr ⟨_, _, _,
    ⟨⟨_, hcoverages, hsigned, hpaths⟩, ⟨_, small_sidecars aSum mark sSum t tSum, rfl⟩,
      ⟨_, htreeMark, hputTree _ _ _⟩, ⟨_, small_last _ mark _ treeMark tSum⟩⟩, hcheck, rfl⟩⟩

/-- A run furnishes the small package, whatever its signatures and sidecars hold before. -/
theorem small_furnished (hS : scheme.Streams) (key : Except KeyProblem Seed) : ∃ mark treeMark,
    (withKey scheme ⟨"."⟩ small key).Ends (smallDisk aSum s sSum t tSum)
      ⟨outcomeOf scheme key, [⟨"./s"⟩, ⟨"./t"⟩], 3⟩
      (smallDisk (Sidecar.digest [1]) mark (Sidecar.digest mark) treeMark
        (Sidecar.digest treeMark)) :=
  small_furnished_of aSum s sSum t tSum hS key rfl rfl rfl
    (smallCoverage_holds aSum s sSum t tSum)

/-- The small package can be sealed. -/
theorem small_ends (hS : scheme.Streams) : ∃ report after,
    (withKey scheme ⟨"."⟩ small (.ok seed)).Ends (smallDisk aSum s sSum t tSum) report after := by
  obtain ⟨mark, treeMark, hends⟩ := small_furnished aSum s sSum t tSum hS (.ok seed)
  exact ⟨_, _, hends⟩

end Small

end Sealing

end PackageSeal
