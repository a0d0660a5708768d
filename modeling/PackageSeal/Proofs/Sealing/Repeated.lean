import PackageSeal.Proofs.Disk.Alike
import PackageSeal.Proofs.Sealing.RoundTrip

/-!
# Sealing again

Two runs side by side, on disks that differ in what a run makes and in nothing else: signatures and
sidecars of earlier runs, whatever they hold, or none at all. Each of these is written before it is
read, or never read, so the places in which the disks still differ become fewer with every write
(`Inscribed.alike`, `sidecars_alike`, `Writes.alike`), and none is left at the end. So earlier runs
leave no trace in a later one, and a second run changes nothing (`products_ignored`).
-/

namespace PackageSeal

variable {scheme : SignatureScheme} {seed? : Option Seed} {root : Path} {layout : Layout}
  {loc : Location} {before before' after : Disk} {coverages : List Coverage}
  {pending : Location → Prop}

/-! ## Sidecars side by side -/

namespace Sidecar

/-- The same files get a sidecar on both disks, if the disks differ in none of them. -/
theorem subjects_alike (hroot : before.Rooted root loc) (hroot' : before'.Rooted root loc)
    (hdiffers : before.Differs pending before') {excluded : List String}
    (hexcluded : ∀ name ∈ excluded, '/' ∉ name.toList)
    (hsame : ∀ texts, IsSubject texts → (∀ name ∈ excluded, texts ≠ [name]) →
      ¬ pending (loc ++ Path.names texts))
    (htext : ∀ rest name, pending (loc ++ (rest ++ [name])) → ∃ text, name = .utf8 text)
    {paths : List Path} (h : subjects before root excluded = .ok paths) :
    subjects before' root excluded = .ok paths := by
  obtain ⟨files, hfiles, rfl⟩ := subjects_eq_ok_iff.mp h
  obtain ⟨found, hlisted⟩ := Disk.listed_of_filesUnder hroot.wellFormed hfiles
  obtain rfl := hroot.leads.unique hlisted.leads
  obtain ⟨files', hfiles'⟩ := Disk.filesUnder_of_walkable hroot'.wellFormed hroot'.leads hroot'.dir
    (hdiffers.walkable hlisted.walkable htext)
  obtain ⟨found', hlisted'⟩ := Disk.listed_of_filesUnder hroot'.wellFormed hfiles'
  obtain rfl := hroot'.leads.unique hlisted'.leads
  refine subjects_eq_ok_iff.mpr ⟨files', hfiles',
    (Disk.filter_eq_of_mem_iff hroot.wellFormed hroot'.wellFormed hfiles hfiles' ?_).symm⟩
  intro path hkeep
  rw [hlisted.mem_iff, hlisted'.mem_iff]
  rw [Bool.and_eq_true, Bool.not_eq_true', Bool.not_eq_true'] at hkeep
  refine exists_congr fun texts => exists_congr fun content => and_congr_right fun htexts =>
    and_congr_right fun hpath => ?_
  subst hpath
  by_cases hnil : texts = []
  · -- At the root itself stands a directory.
    simp [hnil, hroot.dir, hroot'.dir]
  · have hsubject := (isMarked_descend hroot.leads.text_ne_empty hnil htexts).mp hkeep.1
    have hfree : ∀ name ∈ excluded, texts ≠ [name] := by
      intro name hname heq
      have hexcl := (isExcluded_descend hroot.leads.text_ne_empty hnil htexts hexcluded).mpr
        ⟨name, hname, heq⟩
      rw [hkeep.2] at hexcl
      cases hexcl
    rw [hdiffers.at?_eq (hsame texts hsubject hfree)]

/-- **Sidecars written on both disks**, of files in which these do not differ: they differ in the
sidecars no longer. -/
theorem sidecars_alike (hroot : before.Rooted root loc) (hroot' : before'.Rooted root loc)
    (hdiffers : before.Differs pending before') {places : List (List String)}
    (hsubjects : ∀ texts ∈ places, IsSubject texts)
    (hsame : ∀ texts ∈ places, ¬ pending (loc ++ Path.names texts))
    (hends : ((places.map fun texts => root.descend (Path.names texts)).forM fun path =>
      discard (write path)).Ends before () after) :
    ∃ after', ((places.map fun texts => root.descend (Path.names texts)).forM fun path =>
        discard (write path)).Ends before' () after' ∧
      after.Rooted root loc ∧ after'.Rooted root loc ∧
      after.Differs (fun place => pending place ∧
        ∀ texts ∈ places, place ≠ loc ++ Path.names (beside texts)) after' := by
  induction places generalizing before before' pending with
  | nil =>
      obtain rfl := Action.ends_forM_nil.mp hends
      exact ⟨before', Action.ends_forM_nil.mpr rfl, hroot, hroot',
        hdiffers.mono fun place hplace => ⟨hplace, List.forall_mem_nil _⟩⟩
  | cons texts rest ih =>
      rw [List.forall_mem_cons] at hsubjects hsame
      obtain ⟨hsubject, hothers⟩ := hsubjects
      obtain ⟨middle, hfirst, hrest⟩ := Action.ends_forM_cons.mp hends
      obtain ⟨path, hwrite⟩ := Action.ends_discard.mp hfirst
      obtain ⟨-, content, hread, hwritten⟩ := ends_write.mp hwrite
      have hpath := pathFor_descend hroot.leads.text_ne_empty hsubject.ne_nil hsubject.isName
      -- The file is read on the second disk as on the first.
      have hstores := hroot.stores_descend hsubject.ne_nil hsubject.isName hread
      have hread' := (hdiffers.stores hstores hsame.1).read
      rw [hpath] at hwritten
      obtain ⟨middle', hwritten', hmiddle, hmiddle', hnow⟩ := hroot.write_alike hroot' hdiffers
        (beside_ne_nil hsubject.ne_nil) (isName_beside hsubject.ne_nil hsubject.isName) hwritten
      obtain ⟨after', hrest', hafter, hafter', hend⟩ := ih hmiddle hmiddle' hnow hothers
        (fun other hother hpending => hsame.2 other hother hpending.1) hrest
      refine ⟨after', ?_, hafter, hafter', hend.mono ?_⟩
      · rw [← hpath] at hwritten'
        exact Action.ends_forM_cons.mpr ⟨middle', Action.ends_discard.mpr
          ⟨_, ends_write.mpr ⟨rfl, content, hread', hwritten'⟩⟩, hrest'⟩
      · rintro place ⟨⟨hplace, hne⟩, hall⟩
        exact ⟨hplace, List.forall_mem_cons.mpr ⟨hne, hall⟩⟩

/-- **All sidecars written on both disks**: they differ in the sidecars no longer. -/
theorem writeAll_alike (hroot : before.Rooted root loc) (hroot' : before'.Rooted root loc)
    (hdiffers : before.Differs pending before') {excluded : List String}
    (hexcluded : ∀ name ∈ excluded, '/' ∉ name.toList)
    (hsame : ∀ texts, IsSubject texts → (∀ name ∈ excluded, texts ≠ [name]) →
      ¬ pending (loc ++ Path.names texts))
    (htext : ∀ rest name, pending (loc ++ (rest ++ [name])) → ∃ text, name = .utf8 text)
    {count : Nat} (hends : (writeAll root excluded).Ends before count after) :
    ∃ places after', IsSubjects before loc excluded places ∧
      (writeAll root excluded).Ends before' count after' ∧
      after.Rooted root loc ∧ after'.Rooted root loc ∧
      after.Differs (fun place => pending place ∧ ∀ texts ∈ places.map Prod.fst,
        place ≠ loc ++ Path.names (beside texts)) after' := by
  obtain ⟨-, places, hplaces, hsubjects, rfl, hwrites⟩ :=
    exists_places_of_writeAll hroot hexcluded hends
  have hsubjects' := subjects_alike hroot hroot' hdiffers hexcluded hsame htext hsubjects
  obtain ⟨after', hwrites', hafter, hafter', hend⟩ := sidecars_alike hroot hroot' hdiffers
    hplaces.isSubject (fun texts htexts => by
      obtain ⟨place, hplace, rfl⟩ := List.mem_map.mp htexts
      obtain ⟨hsubject, hfree, -⟩ := (hplaces.mem_iff place.1 place.2).mp hplace
      exact hsame _ hsubject hfree) hwrites
  refine ⟨places, after', hplaces, ends_writeAll.mpr ⟨_, hsubjects', ?_, hwrites'⟩, hafter, hafter',
    hend⟩
  rw [List.length_map, List.length_map]

end Sidecar

namespace Sealing

/-! ## Signatures side by side -/

/-- **Signatures written on both disks**, over sources in which these do not differ: they differ in
the signatures no longer. -/
theorem Inscribed.alike {first first' : Disk} {names : List String} {still : Location → Prop}
    (h : Inscribed scheme seed? root first before coverages after)
    (hfirst : first.Rooted root loc) (hfirst' : first'.Rooted root loc)
    (hstart : first.Differs pending first')
    (hlisting : ∀ coverage ∈ coverages, Listing loc names coverage)
    (hapart : ∀ coverage ∈ coverages, ∃ arch members, coverage = .ofArchitecture arch members ∧
      Coverage.Apart loc pending members)
    (hbefore : before.Rooted root loc) (hbefore' : before'.Rooted root loc)
    (hsofar : first.Differs (IsOutput loc names) before)
    (hsofar' : first'.Differs (IsOutput loc names) before')
    (hstill : before.Differs still before') :
    ∃ after', Inscribed scheme seed? root first' before' coverages after' ∧
      after.Rooted root loc ∧ after'.Rooted root loc ∧
      after.Differs (fun place => still place ∧
        ¬ IsOutput loc (coverages.map Coverage.artifact) place) after' := by
  induction h generalizing before' still with
  | nil =>
      refine ⟨before', .nil, hbefore, hbefore', hstill.mono fun place hplace => ⟨hplace, ?_⟩⟩
      rintro ⟨name, hname, -⟩
      cases hname
  | @cons disk middle after coverage rest content hcontent hwrite _ ih =>
      rw [List.forall_mem_cons] at hlisting hapart
      obtain ⟨arch, members, hcoverage, hsources⟩ := hapart.1
      -- The coverage holds the same on both disks, and no signature has a say in it.
      have hstarted : Inscription scheme seed? root first' first' coverage content :=
        ((hlisting.1.inscription_iff hfirst hsofar).mp hcontent).of_holds fun held hheld => by
          rw [hcoverage] at hheld ⊢
          exact Coverage.holds_of_apart hsources hfirst hstart hheld
      have hcontent' := (hlisting.1.inscription_iff hfirst' hsofar').mpr hstarted
      have hplain := hlisting.1.isArtifactName
      obtain ⟨hname, hover, -⟩ := hbefore.write_name hplain.ne_empty hplain.no_separator hwrite
      obtain ⟨middle', hwrite', hmiddle, hmiddle', hnow⟩ := hbefore.write_alike hbefore' hstill
        (List.cons_ne_nil coverage.artifact []) (List.forall_mem_singleton.mpr hname) hwrite
      obtain ⟨-, hover', -⟩ := hbefore'.write_name hplain.ne_empty hplain.no_separator hwrite'
      have houtput : IsOutput loc names (loc ++ [.utf8 coverage.artifact]) :=
        isOutput_iff.mpr hlisting.1.mem
      obtain ⟨after', hrest', hafter, hafter', hend⟩ := ih hlisting.2 hapart.2 hmiddle hmiddle'
        (hsofar.trans (hover.differs houtput)) (hsofar'.trans (hover'.differs houtput)) hnow
      refine ⟨after', .cons hcontent' hwrite' hrest', hafter, hafter', hend.mono ?_⟩
      rintro place ⟨⟨hplace, hne⟩, hrest⟩
      refine ⟨hplace, ?_⟩
      rintro ⟨name, hname, heq⟩
      rw [List.map_cons, List.mem_cons] at hname
      cases hname with
      | inl hhead => exact hne (by rw [heq, hhead]; rfl)
      | inr htail => exact hrest ⟨name, htail, heq⟩

/-! ## Whole runs side by side -/

/-- What a run makes of the files on one disk it makes of those on the other, if these disks differ
in that only. -/
theorem IsProduct.of_differs {names : List String} {place : Location}
    (hdiffers : before.Differs (IsProduct before loc names) before')
    (h : IsProduct before loc names place) : IsProduct before' loc names place := by
  obtain houtput | ⟨texts, hsubject, hfile, rfl⟩ := h
  · exact .inl houtput
  · refine .inr ⟨texts, hsubject, ?_, rfl⟩
    by_cases houtput : IsOutput loc names (loc ++ Path.names texts)
    · exact .inr houtput
    · obtain ⟨content, hat⟩ := hfile.resolve_right houtput
      refine .inl ⟨content, ?_⟩
      rw [hdiffers.at?_eq ?_, hat]
      rintro (hproduct | ⟨others, hother, -, heq⟩)
      · exact houtput hproduct
      · exact hsubject.ne_beside hother.ne_nil heq

/-- A signature of an architecture or the one over the tree. -/
theorem output_cases (hvalid : layout.Valid coverages) {place : Location}
    (h : IsOutput loc layout.outputs place) :
    IsOutput loc (coverages.map Coverage.artifact) place ∨
      place = loc ++ Path.names [layout.treeArtifact] := by
  obtain ⟨name, hname, rfl⟩ := h
  rw [hvalid.outputs_eq, List.mem_append, List.mem_singleton] at hname
  cases hname with
  | inl hmem => exact .inl ⟨name, hmem, rfl⟩
  | inr heq => exact .inr (by rw [heq]; rfl)

/-- Once the signatures of the architectures are written, the disks differ in no file that gets a
sidecar in the next phase. -/
theorem not_product_of_subject (hvalid : layout.Valid coverages) {texts : List String}
    (hsubject : Sidecar.IsSubject texts) (hne : texts ≠ [layout.treeArtifact]) :
    ¬ (IsProduct before loc layout.outputs (loc ++ Path.names texts) ∧
      ¬ IsOutput loc (coverages.map Coverage.artifact) (loc ++ Path.names texts)) := by
  rintro ⟨houtput | ⟨others, hother, -, heq⟩, hnot⟩
  · cases output_cases hvalid houtput with
    | inl hruntime => exact hnot hruntime
    | inr htree => exact ne_tree hne htree
  · exact hsubject.ne_beside hother.ne_nil heq

/-- Once their sidecars are written as well, the disks differ in the signature over the tree and its
sidecar at most. -/
theorem tree_of_product (hvalid : layout.Valid coverages) {signed : Disk}
    (hsigned : before.Differs (IsOutput loc (coverages.map Coverage.artifact)) signed)
    (hstored : ∀ name ∈ coverages.map Coverage.artifact, ∃ content,
      signed.at? (loc ++ [.utf8 name]) = some (.file content))
    {places : List (List String × Bytes)}
    (hplaces : Sidecar.IsSubjects signed loc [layout.treeArtifact] places) {place : Location}
    (hproduct : IsProduct before loc layout.outputs place)
    (hnot : ¬ IsOutput loc (coverages.map Coverage.artifact) place)
    (hfree : ∀ texts ∈ places.map Prod.fst,
      place ≠ loc ++ Path.names (Sidecar.beside texts)) :
    place = loc ++ Path.names [layout.treeArtifact] ∨
      place = loc ++ Path.names (Sidecar.beside [layout.treeArtifact]) := by
  obtain houtput | ⟨texts, hsubject, hfile, rfl⟩ := hproduct
  · exact .inl ((output_cases hvalid houtput).resolve_left hnot)
  · by_cases hne : texts = [layout.treeArtifact]
    · exact .inr (by rw [hne])
    · -- Any other file was there after the first phase, and has its sidecar.
      have hthere : ∃ content, signed.at? (loc ++ Path.names texts) = some (.file content) := by
        by_cases hruntime : IsOutput loc (coverages.map Coverage.artifact) (loc ++ Path.names texts)
        · obtain ⟨name, hname, heq⟩ := hruntime
          rw [heq]
          exact hstored name hname
        · obtain ⟨content, hat⟩ := hfile.resolve_right fun houtput =>
            (output_cases hvalid houtput).elim hruntime (ne_tree hne)
          exact ⟨content, by rw [hsigned.at?_eq hruntime, hat]⟩
      obtain ⟨content, hat⟩ := hthere
      have hmem := (hplaces.mem_iff texts content).mpr
        ⟨hsubject, List.forall_mem_singleton.mpr hne, hat⟩
      exact absurd rfl (hfree texts (List.mem_map_of_mem hmem))

/-- **The signature over the tree written on both disks**, with its sidecar, where these differ in
nothing else: they do not differ at all any more. -/
theorem tree_alike (hvalid : layout.Valid coverages) {listed listed' whole : Disk}
    (hroot : listed.Rooted root loc) (hroot' : listed'.Rooted root loc)
    (hdiffers : listed.Differs (fun place => place = loc ++ Path.names [layout.treeArtifact] ∨
      place = loc ++ Path.names (Sidecar.beside [layout.treeArtifact])) listed') {content : Bytes}
    (hcontent : Inscription scheme seed? root listed listed layout.treeCoverage content)
    (hwrite : listed.write (layout.treeCoverage.artifactPath root) content = .ok whole)
    {path : Path}
    (hlast : (Sidecar.write (layout.treeCoverage.artifactPath root)).Ends whole path after) :
    ∃ whole' after', Inscription scheme seed? root listed' listed' layout.treeCoverage content ∧
      listed'.write (layout.treeCoverage.artifactPath root) content = .ok whole' ∧
      (Sidecar.write (layout.treeCoverage.artifactPath root)).Ends whole' path after' ∧
      after.Differs (fun _ => False) after' := by
  have hcontent' := hcontent.of_holds fun held hheld =>
    Coverage.holds_tree_of_differs (fun place hplace => hplace.elim (fun heq => ⟨_, heq, .inl rfl⟩)
      fun heq => ⟨_, heq, .inr rfl⟩) hroot hroot'.wellFormed hdiffers hheld
  have hplain := hvalid.isArtifactName _ (tree_mem_outputs layout)
  obtain ⟨hname, hover, -, hstores⟩ :=
    hroot.write_name hplain.ne_empty hplain.no_separator hwrite
  have hsubject : Sidecar.IsSubject [layout.treeArtifact] :=
    ⟨List.forall_mem_singleton.mpr hname, [], _, rfl, hplain.not_marked⟩
  obtain ⟨whole', hwrite', hwhole, hwhole', hfirst⟩ := hroot.write_alike hroot' hdiffers
    hsubject.ne_nil hsubject.isName hwrite
  -- The signature is read for its sidecar, and the disks agree in it by now.
  obtain ⟨hpath, found, hread, hwritten⟩ := Sidecar.ends_write.mp hlast
  have hread' := (hfirst.stores (hwhole.stores_descend hsubject.ne_nil hsubject.isName hread)
    fun hpending => hpending.2 rfl).read
  have hbeside := Sidecar.pathFor_descend hroot.leads.text_ne_empty hsubject.ne_nil hsubject.isName
  have hdescend : layout.treeCoverage.artifactPath root =
    root.descend (Path.names [layout.treeArtifact]) := rfl
  rw [hdescend, hbeside] at hwritten
  obtain ⟨after', hwritten', -, -, hend⟩ := hwhole.write_alike hwhole' hfirst
    (Sidecar.beside_ne_nil hsubject.ne_nil)
    (Sidecar.isName_beside hsubject.ne_nil hsubject.isName) hwritten
  refine ⟨whole', after', hcontent', hwrite', ?_, hend.mono ?_⟩
  · rw [← hbeside] at hwritten'
    exact Sidecar.ends_write.mpr ⟨hpath, found, hread', hwritten'⟩
  · rintro place ⟨⟨htree | hsidecar, hne⟩, hne'⟩
    · exact hne htree
    · exact hne' hsidecar

/-- **Everything is written on both disks** if these differ in what is written only, and then they
do not differ at all. -/
theorem Writes.alike {signed listed whole : Disk} {paths : List Path} {count : Nat}
    (hvalid : layout.Valid coverages) (hsources : NoMarkedSource layout)
    (hroot : before.Rooted root loc) (hroot' : before'.Rooted root loc)
    (hdiffers : before.Differs (IsProduct before loc layout.outputs) before')
    (h : Writes scheme root layout seed? before signed listed whole after paths count) :
    ∃ signed' listed' whole' after',
      Writes scheme root layout seed? before' signed' listed' whole' after' paths count ∧
      after.Differs (fun _ => False) after' := by
  obtain ⟨targets, htargets, hsigned, hpaths⟩ := h.architectures
  obtain rfl : targets = coverages := by
    rw [hvalid.coverages_eq, Except.ok.injEq] at htargets
    exact htargets.symm
  obtain ⟨others, hlisted, hcount⟩ := h.sidecars
  obtain ⟨content, hcontent, hwrite⟩ := h.tree
  obtain ⟨path, hlast⟩ := h.last
  have hplain := hvalid.isArtifactName _ (tree_mem_outputs layout)
  obtain ⟨signed', hsigned', hsignedRoot, hsignedRoot', hfirst⟩ := hsigned.alike hroot hroot'
    hdiffers (fun coverage => listing_of_valid hvalid)
    (fun coverage => apart_of_noMarkedSource hvalid hsources) hroot hroot'
    (Disk.Differs.refl _ _) (Disk.Differs.refl _ _) hdiffers
  obtain ⟨-, hruntime, hstores⟩ := after_signatures hroot hvalid hsigned
  obtain ⟨places, listed', hplaces, hlisted', hlistedRoot, hlistedRoot', hsecond⟩ :=
    Sidecar.writeAll_alike hsignedRoot hsignedRoot' hfirst
      (List.forall_mem_singleton.mpr hplain.no_separator)
      (fun texts hsubject hfree =>
        not_product_of_subject hvalid hsubject (hfree _ List.mem_cons_self))
      (fun rest name hpending => exists_text_of_isProduct hpending.1) hlisted
  have hrest : listed.Differs (fun place => place = loc ++ Path.names [layout.treeArtifact] ∨
      place = loc ++ Path.names (Sidecar.beside [layout.treeArtifact])) listed' := by
    refine hsecond.mono ?_
    rintro place ⟨⟨hproduct, hnot⟩, hfree⟩
    refine tree_of_product hvalid hruntime ?_ hplaces hproduct hnot hfree
    intro name hname
    obtain ⟨coverage, hcoverage, rfl⟩ := List.mem_map.mp hname
    obtain ⟨held, -, hstored⟩ := hstores coverage hcoverage
    exact ⟨held, hstored.at?_eq⟩
  obtain ⟨whole', after', hcontent', hwrite', hlast', hend⟩ :=
    tree_alike hvalid hlistedRoot hlistedRoot' hrest hcontent hwrite hlast
  exact ⟨signed', listed', whole', after', ⟨⟨_, htargets, hsigned', hpaths⟩,
    ⟨others, hlisted', hcount⟩, ⟨content, hcontent', hwrite'⟩, ⟨path, hlast'⟩⟩, hend⟩

variable {key : Except KeyProblem Seed} {report : Report}

/-- A run that ends on one disk ends alike on every disk that differs in what it makes only. -/
theorem ends_alike (hS : scheme.Streams) (hsources : NoMarkedSource layout)
    (hroot : before.Rooted root loc) (hroot' : before'.Rooted root loc)
    (hdiffers : before.Differs (IsProduct before loc layout.outputs) before')
    (hends : (withKey scheme root layout key).Ends before report after) :
    ∃ after', (withKey scheme root layout key).Ends before' report after' ∧
      ∀ place, after'.at? place = after.at? place := by
  obtain ⟨signed, listed, whole, h⟩ := (ends_withKey hS).mp hends
  obtain ⟨coverages, hvalid⟩ := Layout.valid_of_check h.check
  obtain ⟨signed', listed', whole', after', hwrites, hsame⟩ :=
    h.toWrites.alike hvalid hsources hroot hroot' hdiffers
  exact ⟨after', (ends_withKey hS).mpr ⟨signed', listed', whole', hwrites, h.check, h.outcome⟩,
    fun place => hsame.at?_eq not_false⟩

/-- The second disk differs from the first in what a run makes only: in files at the root that are
called like a signature, in their sidecars, and in the sidecars of the files that are there. -/
def DifferInProducts (root : Path) (layout : Layout) (disk other : Disk) : Prop :=
  disk.Differs (fun place => ∃ loc, disk.Leads root loc ∧ IsProduct disk loc layout.outputs place)
    other

theorem DifferInProducts.differs (h : DifferInProducts root layout before before')
    (hleads : before.Leads root loc) :
    before.Differs (IsProduct before loc layout.outputs) before' := by
  refine h.mono ?_
  rintro place ⟨found, hfound, hproduct⟩
  rwa [hleads.unique hfound]

/-- **Earlier runs leave no trace in a later one.** On two disks without links below the root that
differ in what a run makes only, a run ends on both or on neither, with the same report and the same
files; and a run that follows another one, with the same layout and key, reports the same and
changes no file. No source may be called like a sidecar. -/
theorem products_ignored {disk other : Disk} (hS : scheme.Streams) (hw : disk.WellFormed)
    (hw' : other.WellFormed) (hlinks : disk.NoLinks root) (hlinks' : other.NoLinks root)
    (hsources : NoMarkedSource layout) (hdiffers : DifferInProducts root layout disk other) :
    ((∃ report after, (withKey scheme root layout key).Ends disk report after) ↔
      ∃ report after, (withKey scheme root layout key).Ends other report after) ∧
    (∀ report report' after after', (withKey scheme root layout key).Ends disk report after →
      (withKey scheme root layout key).Ends other report' after' →
      report' = report ∧ ∀ place, after'.at? place = after.at? place) ∧
    ∀ report after, (withKey scheme root layout key).Ends disk report after →
      ∃ again, (withKey scheme root layout key).Ends after report again ∧
        ∀ place, again.at? place = after.at? place := by
  have hforth : ∀ report after, (withKey scheme root layout key).Ends disk report after →
      ∃ after', (withKey scheme root layout key).Ends other report after' ∧
        ∀ place, after'.at? place = after.at? place := by
    intro report after hends
    obtain ⟨coverages, loc, -, h⟩ := furnished_of_ends hS hw hlinks hends
    have hroot := h.before_rooted
    exact ends_alike hS hsources hroot (hroot.of_sameShape hdiffers.shape hw')
      (hdiffers.differs hroot.leads) hends
  refine ⟨⟨?_, ?_⟩, ?_, ?_⟩
  · rintro ⟨report, after, hends⟩
    obtain ⟨after', hends', -⟩ := hforth report after hends
    exact ⟨report, after', hends'⟩
  · rintro ⟨report, after, hends⟩
    obtain ⟨coverages, loc, -, h⟩ := furnished_of_ends hS hw' hlinks' hends
    have hroot' := h.before_rooted
    have hroot := hroot'.of_sameShape hdiffers.shape.symm hw
    have hsame := hdiffers.differs hroot.leads
    obtain ⟨after', hends', -⟩ := ends_alike hS hsources hroot' hroot
      (hsame.symm.mono fun place => IsProduct.of_differs hsame) hends
    exact ⟨report, after', hends'⟩
  · intro report report' after after' hends hends'
    obtain ⟨found, hfound, hsame⟩ := hforth report after hends
    obtain ⟨hreport, hdisk⟩ := hfound
    obtain ⟨hreport', hdisk'⟩ := hends'
    rw [hreport, Except.ok.injEq] at hreport'
    exact ⟨hreport'.symm, by rw [← hdisk', hdisk]; exact hsame⟩
  · intro report after hends
    obtain ⟨coverages, loc, -, h⟩ := furnished_of_ends hS hw hlinks hends
    exact ends_alike hS hsources h.before_rooted h.after_rooted h.differs hends

section Small

variable (aSum s sSum t tSum : Bytes)

/-- The small package differs from its member alone in what a run makes. -/
theorem smallDisk_differs :
    DifferInProducts ⟨"."⟩ small (.flat [("a", [1])]) (smallDisk aSum s sSum t tSum) := by
  have hleads : (Disk.flat [("a", [1])]).Leads ⟨"."⟩ [] := ⟨_, rfl⟩
  have hroot : (Disk.flat [("a", [1])]).Rooted ⟨"."⟩ [] :=
    ⟨Disk.flat_wellFormed ["a"] rfl (by decide) (by decide), hleads, rfl, Disk.flat_linkFree []⟩
  have hsubject : ∀ name ∈ ["a", "s", "t"], Sidecar.IsSubject [name] := by
    intro name hname
    have hplain : ∀ name ∈ ["a", "s", "t"], name ≠ "" ∧ name ≠ "." ∧ name ≠ ".." ∧
        '/' ∉ name.toList ∧ Sidecar.isMarkedName name = false := by decide
    obtain ⟨hempty, hdot, hdots, hsep, hmark⟩ := hplain name hname
    exact ⟨List.forall_mem_singleton.mpr ⟨hempty, hdot, hdots, hsep⟩, [], name, rfl, hmark⟩
  have hsum : ∀ name, name ∈ ["s", "t"] → IsProduct (Disk.flat [("a", [1])]) [] small.outputs
      [.utf8 (name ++ Sidecar.suffix)] := fun name hname =>
    .inr ⟨[name], hsubject name (List.mem_cons_of_mem _ hname), .inr ⟨name, hname, rfl⟩, rfl⟩
  -- One file is written after another.
  have hput : ∀ (disk after : Disk) (name : String) (content : Bytes), disk.Rooted ⟨"."⟩ [] →
      name ≠ "" ∧ '/' ∉ name.toList →
      disk.write (Path.join ⟨"."⟩ ⟨name⟩) content = .ok after →
      Disk.Overwrites disk [.utf8 name] content after ∧ after.Rooted ⟨"."⟩ [] := by
    intro disk after name content hroot hplain hwrite
    obtain ⟨-, hover, hafter, -⟩ := hroot.write_name hplain.1 hplain.2 hwrite
    exact ⟨hover, hafter⟩
  obtain ⟨hfirst, hroot⟩ := hput _ (.flat [("a", [1]), ("a.sha256", aSum)]) "a.sha256" aSum hroot
    (by decide) rfl
  obtain ⟨hsecond, hroot⟩ := hput _ (.flat [("a", [1]), ("a.sha256", aSum), ("s", s)]) "s" s hroot
    (by decide) rfl
  obtain ⟨hthird, hroot⟩ := hput _
    (.flat [("a", [1]), ("a.sha256", aSum), ("s", s), ("s.sha256", sSum)]) "s.sha256" sSum hroot
    (by decide) rfl
  obtain ⟨hfourth, hroot⟩ := hput _
    (.flat [("a", [1]), ("a.sha256", aSum), ("s", s), ("s.sha256", sSum), ("t", t)]) "t" t hroot
    (by decide) rfl
  obtain ⟨hfifth, -⟩ := hput _ (smallDisk aSum s sSum t tSum) "t.sha256" tSum hroot (by decide) rfl
  have hproducts : (Disk.flat [("a", [1])]).Differs
      (IsProduct (Disk.flat [("a", [1])]) [] small.outputs) (smallDisk aSum s sSum t tSum) :=
    ((((hfirst.differs (.inr ⟨["a"], hsubject "a" (by decide), .inl ⟨[1], rfl⟩, rfl⟩)).trans
      (hsecond.differs (.inl ⟨"s", by decide, rfl⟩))).trans
      (hthird.differs (hsum "s" (by decide)))).trans
      (hfourth.differs (.inl ⟨"t", by decide, rfl⟩))).trans
      (hfifth.differs (hsum "t" (by decide)))
  exact hproducts.mono fun place hplace => ⟨[], hleads, hplace⟩

/-- The member alone is sealed like the package with signatures and sidecars of another member, and
what comes out is sealed again without a change. -/
theorem products_ignored_small : ∃ report after again,
    (withKey Ed25519.scheme ⟨"."⟩ small (.ok smallSeed)).Ends (smallDisk [2] [3] [4] [5] [6])
      report after ∧
    (withKey Ed25519.scheme ⟨"."⟩ small (.ok smallSeed)).Ends (.flat [("a", [1])]) report again ∧
    (∀ place, after.at? place = again.at? place) ∧
    ∃ third, (withKey Ed25519.scheme ⟨"."⟩ small (.ok smallSeed)).Ends again report third ∧
      ∀ place, third.at? place = again.at? place := by
  have hfresh : (Disk.flat [("a", [1])]).WellFormed :=
    Disk.flat_wellFormed ["a"] rfl (by decide) (by decide)
  obtain ⟨_, _, hends⟩ := small_furnished [2] [3] [4] [5] [6] Ed25519.scheme_streams
    (.ok smallSeed)
  obtain ⟨hiff, hsame, hagain⟩ := @products_ignored Ed25519.scheme ⟨"."⟩ small (.ok smallSeed)
    _ _ Ed25519.scheme_streams hfresh (smallDisk_wellFormed [2] [3] [4] [5] [6])
    (fun loc _ => Disk.flat_linkFree loc) (smallDisk_noLinks [2] [3] [4] [5] [6] ⟨"."⟩)
    small_noMarkedSource (smallDisk_differs [2] [3] [4] [5] [6])
  obtain ⟨report, again, hends'⟩ := hiff.mpr ⟨_, _, hends⟩
  obtain ⟨rfl, hdisk⟩ := hsame _ _ _ _ hends' hends
  exact ⟨_, _, _, hends, hends', hdisk, hagain _ _ hends'⟩

end Small

end Sealing

end PackageSeal
