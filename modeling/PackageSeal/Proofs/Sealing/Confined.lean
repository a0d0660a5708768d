import PackageSeal.Proofs.Failures
import PackageSeal.Proofs.Schemes
import PackageSeal.Proofs.Sealing.Sealed

/-!
# Where sealing writes

Whether a run ends or fails, it only ever writes files along the paths of its outputs
(`writes_confined`). Such a path is followed through links, so the file that is written is the
output, or what a link at the place of the output leads to: without links there, nothing but outputs
changes (`unchanged_of_confined`), and with one, a file can be overwritten that is no output
(`link_at_output_followed`).

Each step keeps this (`Disk.Keeps`), so whole phases do, and a run that stops has been through some
of them.
-/

namespace PackageSeal

namespace Disk

/-- The second disk is the first with files written along some of these paths, each of which has an
entry of its own. A file was written at its entry, or behind a link that stands there. -/
structure Confined (before : Disk) (allowed : Path → Location → Prop) (after : Disk) : Prop where
  wellFormed : after.WellFormed
  shape : SameShape before after
  isFile : ∀ {loc content}, before.at? loc = some (.file content) →
    ∃ content', after.at? loc = some (.file content')
  reached : ∀ {place}, after.at? place ≠ before.at? place → ∃ path entry, allowed path entry ∧
    after.Leads path place ∧ (place = entry ∨ ∃ target, before.at? entry = some (.link target))

namespace Confined

variable {before middle after : Disk} {allowed allowed' : Path → Location → Prop}

theorem refl (hw : before.WellFormed) : Confined before allowed before :=
  ⟨hw, SameShape.refl before, fun hfile => ⟨_, hfile⟩, fun hne => absurd rfl hne⟩

theorem mono (h : Confined before allowed after)
    (hsub : ∀ path entry, allowed path entry → allowed' path entry) :
    Confined before allowed' after :=
  ⟨h.wellFormed, h.shape, h.isFile, fun hne => by
    obtain ⟨path, entry, hallowed, hplace⟩ := h.reached hne
    exact ⟨path, entry, hsub path entry hallowed, hplace⟩⟩

/-- A path that leads to something still leads to it, because nothing vanishes. -/
theorem leads (h : Confined before allowed after) {path : Path} {loc : Location}
    (hleads : before.Leads path loc) : after.Leads path loc := by
  refine hleads.of_sameShape h.shape ?_
  obtain ⟨node, hfind⟩ := hleads
  have hat : before.at? loc = some node.item := by
    rw [at?, get?_of_find hfind]
    rfl
  cases hitem : node.item with
  | dir =>
      rw [hitem] at hat
      rw [h.shape.dir_iff.mpr hat]
      simp
  | link target =>
      rw [hitem] at hat
      rw [h.shape.link_iff.mpr hat]
      simp
  | file content =>
      rw [hitem] at hat
      obtain ⟨content', hafter⟩ := h.isFile hat
      rw [hafter]
      simp

theorem trans (h : Confined before allowed middle) (h' : Confined middle allowed after) :
    Confined before allowed after where
  wellFormed := h'.wellFormed
  shape := h.shape.trans h'.shape
  isFile hfile := by
    obtain ⟨content, hmiddle⟩ := h.isFile hfile
    exact h'.isFile hmiddle
  reached {place} hne := by
    by_cases hsame : after.at? place = middle.at? place
    · rw [hsame] at hne
      obtain ⟨path, entry, hallowed, hleads, hentry⟩ := h.reached hne
      exact ⟨path, entry, hallowed, h'.leads hleads, hentry⟩
    · obtain ⟨path, entry, hallowed, hleads, hentry⟩ := h'.reached hsame
      refine ⟨path, entry, hallowed, hleads, hentry.imp id ?_⟩
      rintro ⟨target, hlink⟩
      exact ⟨target, h.shape.link_iff.mp hlink⟩

/-- One write along an allowed path. -/
theorem of_overwrites {place entry : Location} {content : Bytes} {path : Path}
    (hover : Overwrites before place content after) (hw : after.WellFormed)
    (hleads : after.Leads path place) (hallowed : allowed path entry)
    (hentry : place = entry ∨ ∃ target, before.at? entry = some (.link target)) :
    Confined before allowed after where
  wellFormed := hw
  shape := hover.sameShape
  isFile {loc old} hfile := by
    by_cases heq : loc = place
    · exact ⟨content, by rw [heq, hover.at?_self]⟩
    · exact ⟨old, by rw [hover.at?_of_ne heq, hfile]⟩
  reached {other} hne := by
    by_cases heq : other = place
    · rw [heq]
      exact ⟨path, entry, hallowed, hleads, hentry⟩
    · exact absurd (hover.at?_of_ne heq) hne

end Confined

/-- Where the disk is of the shape that it had at first, it is changed in this way only. -/
def Keeps (first : Disk) (allowed : Path → Location → Prop) (disk after : Disk) : Prop :=
  disk.WellFormed → SameShape first disk → Confined disk allowed after

instance (first : Disk) (allowed : Path → Location → Prop) :
    IsPreorder Disk (Keeps first allowed) where
  refl _ := fun hw _ => Confined.refl hw
  trans _ _ _ h h' := fun hw hs =>
    (h hw hs).trans (h' (h hw hs).wellFormed (hs.trans (h hw hs).shape))

end Disk

namespace Sealing

open PackageSeal.Action (Relates)

variable {scheme : SignatureScheme} {root : Path} {layout : Layout} {names : List String}
  {key : Except KeyProblem Seed} {first before after : Disk} {start : Location}
  {has : Location → List String → Prop}

/-! ## Outputs -/

/-- The path of an output and its entry below the base of the root: a signature, or the sidecar of a
file that has one. -/
inductive Output (disk : Disk) (root : Path) (names : List String)
    (has : Location → List String → Prop) : Path → Location → Prop where
  | signature {start : Location} {name : String} (hbase : disk.Base root start)
      (hmem : name ∈ names) (hname : Text.IsName name) :
      Output disk root names has (root.join ⟨name⟩) (start ++ [.utf8 name])
  | sidecar {start : Location} {texts : List String} (hbase : disk.Base root start)
      (hsubject : Sidecar.IsSubject texts) (hhas : has start texts) :
      Output disk root names has (root.descend (Path.names (Sidecar.beside texts)))
        (start ++ Path.names (Sidecar.beside texts))

theorem Output.mono {has' : Location → List String → Prop} {path : Path} {entry : Location}
    (h : Output first root names has path entry)
    (hsub : ∀ start texts, has start texts → has' start texts) :
    Output first root names has' path entry := by
  cases h with
  | signature hbase hmem hname => exact .signature hbase hmem hname
  | sidecar hbase hsubject hhas => exact .sidecar hbase hsubject (hsub _ _ hhas)

/-- Writing a signature along its path. -/
theorem keeps_signature {name : String} (hmem : name ∈ names) (hplain : Layout.IsArtifactName name)
    {disk changed : Disk} {content : Bytes}
    (hwrite : disk.write (root.join ⟨name⟩) content = .ok changed) :
    Disk.Keeps first (Output first root names has) disk changed := by
  intro hw hs
  have habsolute := Path.not_isAbsolute_of_no_separator hplain.no_separator
  obtain ⟨start, hbase⟩ := Disk.exists_base_of_write hw habsolute hplain.ne_empty hwrite
  have hname := Disk.isName_of_write hw hbase hplain.ne_empty hplain.no_separator hwrite
  obtain ⟨place, hover, hleads, hw', hplace⟩ :=
    hbase.write hw (Path.continues_name hname) (by simp) hwrite
  have hdir : disk.at? (start ++ []) = some .dir := by
    rw [List.append_nil]
    exact hbase.dir
  exact .of_overwrites hover hw' hleads (.signature (hbase.of_sameShape hs.symm) hmem hname)
    (hplace.imp id (Disk.link_of_linkOn hdir))

/-- Writing a sidecar beside the place of a file. -/
theorem keeps_sidecar {texts : List String} (hsubject : Sidecar.IsSubject texts)
    (hbase : first.Base root start) (hroot : root.text ≠ "") (hhas : has start texts)
    (hhouse : first.at? (start ++ Path.names texts.dropLast) = some .dir) {disk changed : Disk}
    {content : Bytes}
    (hwrite : disk.write (Sidecar.pathFor (root.descend (Path.names texts))) content =
      .ok changed) :
    Disk.Keeps first (Output first root names has) disk changed := by
  intro hw hs
  have hne := hsubject.ne_nil
  rw [Sidecar.pathFor_descend hroot hne hsubject.isName] at hwrite
  have hcontinues := Path.continues_descend hroot (Sidecar.isName_beside hne hsubject.isName)
    (Sidecar.beside_ne_nil hne)
  obtain ⟨place, hover, hleads, hw', hplace⟩ :=
    (hbase.of_sameShape hs).write hw hcontinues (by simp) hwrite
  refine .of_overwrites hover hw' hleads (.sidecar hbase hsubject hhas) ?_
  rw [Step.names_map_into] at hplace
  refine hplace.imp id fun hlink => ?_
  obtain ⟨front, name, rfl, -⟩ := hsubject.unmarked
  rw [List.dropLast_concat] at hhouse
  rw [Sidecar.beside_concat, Path.names, List.map_append, List.map_singleton] at hlink ⊢
  exact Disk.link_of_linkOn (hs.dir_iff.mpr hhouse) hlink

/-! ## Steps -/

theorem relates_writeArtifact {name : String} (hmem : name ∈ names)
    (hplain : Layout.IsArtifactName name) (artifact : Artifact) :
    Relates (Disk.Keeps first (Output first root names has))
      (writeArtifact (root.join ⟨name⟩) artifact) :=
  .change fun _ _ hstep => keeps_signature hmem hplain (mapError_eq_ok_iff.mp hstep)

theorem relates_putSigned {seed : Seed} {coverage : Coverage} (hmem : coverage.artifact ∈ names)
    (hplain : Layout.IsArtifactName coverage.artifact) (roster : Roster) :
    Relates (Disk.Keeps first (Output first root names has))
      (putSigned scheme root seed coverage roster) :=
  (Relates.look _).bind fun _ => (relates_writeArtifact hmem hplain _).bind fun _ =>
    (Relates.look _).bind fun _ => .pure _

theorem relates_putPlaceholder {coverage : Coverage} (hmem : coverage.artifact ∈ names)
    (hplain : Layout.IsArtifactName coverage.artifact) :
    Relates (Disk.Keeps first (Output first root names has)) (putPlaceholder root coverage) :=
  (relates_writeArtifact hmem hplain _).bind fun _ => (Relates.look _).bind fun _ => .pure _

theorem relates_putTree {seed? : Option Seed} {coverage : Coverage}
    (hmem : coverage.artifact ∈ names) (hplain : Layout.IsArtifactName coverage.artifact) :
    Relates (Disk.Keeps first (Output first root names has))
      (putTree scheme root seed? coverage) := by
  cases seed? with
  | none => exact relates_putPlaceholder hmem hplain
  | some seed => exact (Relates.look _).bind fun roster => relates_putSigned hmem hplain roster

theorem relates_putArchitectures {seed? : Option Seed} {targets : List Coverage}
    (htargets : ∀ coverage ∈ targets, coverage.artifact ∈ names ∧
      Layout.IsArtifactName coverage.artifact) :
    Relates (Disk.Keeps first (Output first root names has))
      (putArchitectures scheme root seed? targets) := by
  cases seed? with
  | none =>
      exact .mapM fun coverage hmem =>
        relates_putPlaceholder (htargets coverage hmem).1 (htargets coverage hmem).2
  | some seed =>
      intro disk
      have hlook : Relates (Disk.Keeps first (Output first root names has))
          (targets.mapM fun coverage => do
            let roster ← membersNow root coverage
            pure (coverage, roster)) :=
        .mapM fun coverage _ => (Relates.look _).bind fun _ => .pure _
      refine Relates.bind_of_ends (hlook disk) fun found middle hends => ?_
      obtain ⟨-, rfl, -⟩ := ends_rosters.mp hends
      refine Relates.mapM (fun entry hentry => ?_) middle
      obtain ⟨hmem, hplain⟩ := htargets entry.1 (List.mem_map_of_mem hentry)
      exact relates_putSigned hmem hplain entry.2

theorem relates_sidecar {texts : List String} (hsubject : Sidecar.IsSubject texts)
    (hbase : first.Base root start) (hroot : root.text ≠ "") (hhas : has start texts)
    (hhouse : first.at? (start ++ Path.names texts.dropLast) = some .dir) :
    Relates (Disk.Keeps first (Output first root names has))
      (Sidecar.write (root.descend (Path.names texts))) :=
  (Relates.look _).bind fun _ => Relates.bind (.change fun _ _ hstep =>
    keeps_sidecar hsubject hbase hroot hhas hhouse (mapError_eq_ok_iff.mp hstep)) fun _ =>
      (Relates.look _).bind fun _ => .pure _

/-! ## Phases -/

/-- Writing all sidecars writes those of files that were there when it began. -/
theorem keeps_sidecars {signed : Disk} {excluded : List String}
    (hhas : ∀ start texts content, signed.at? (start ++ Path.names texts) = some (.file content) →
      has start texts) :
    Disk.Keeps first (Output first root names has) signed
      (Sidecar.writeAll root excluded signed).disk := by
  refine Relates.bind_of_ends (Relates.look _ signed) fun paths disk hends => ?_
  obtain ⟨hpaths, rfl⟩ := Action.ends_look.mp hends
  rw [Logged.outcome_ofExcept] at hpaths
  obtain ⟨files, hfiles, rfl⟩ := Sidecar.subjects_eq_ok_iff.mp hpaths
  intro hw hs
  obtain ⟨loc, hlisted⟩ := Disk.listed_of_filesUnder hw hfiles
  have hroot := hlisted.leads.text_ne_empty
  have hbase := (hlisted.leads.base hlisted.dir).of_sameShape hs.symm
  have hrun : Relates (Disk.Keeps first (Output first root names has))
      ((files.filter fun path =>
          !Sidecar.isMarked path && !Sidecar.isExcluded root excluded path).forM
        fun path => discard (Sidecar.write path)) := by
    refine .forM fun path hpath => .discard ?_
    obtain ⟨hpath, hkept⟩ := List.mem_filter.mp hpath
    obtain ⟨texts, content, hall, rfl, hat⟩ := (hlisted.mem_iff path).mp hpath
    rw [Bool.and_eq_true, Bool.not_eq_true'] at hkept
    have hsubject :=
      (Sidecar.isMarked_descend hroot (Disk.texts_ne_nil hlisted.dir hat) hall).mp hkept.1
    refine relates_sidecar hsubject hbase hroot (hhas loc texts content hat) ?_
    -- The file stands in a directory.
    obtain ⟨front, name, rfl, -⟩ := hsubject.unmarked
    rw [Path.names, List.map_append, ← List.append_assoc] at hat
    rw [List.dropLast_concat]
    exact hs.dir_iff.mp (Disk.at?_eq_dir_of_append (by simp) hat)
  exact hrun.bind (fun _ => .pure _) signed hw hs

/-- The path of the signature over the tree is what writing it gives. -/
theorem path_of_putTree {seed? : Option Seed} {coverage : Coverage} {result : Path}
    (h : (putTree scheme root seed? coverage).Ends before result after) :
    result = coverage.artifactPath root ∧ ∃ content, before.write result content = .ok after := by
  cases seed? with
  | none =>
      obtain ⟨rfl, hwrite⟩ := ends_putPlaceholder.mp h
      exact ⟨rfl, _, hwrite⟩
  | some seed =>
      simp only [putTree, putSigned, Action.ends_bind, ends_membersNow, Action.ends_look,
        ends_writeArtifact, Action.ends_tell, Action.ends_pure] at h
      obtain ⟨roster, _, ⟨-, rfl⟩, mark, _, ⟨-, rfl⟩, _, _, hwrite, _, _, rfl, rfl, rfl⟩ := h
      exact ⟨rfl, _, hwrite⟩

/-- The last steps write the signature over the tree and its sidecar. -/
theorem relates_last {seed? : Option Seed} (hplain : Layout.IsArtifactName layout.treeArtifact)
    (hroot : root.text ≠ "") (hhas : ∀ start, has start [layout.treeArtifact])
    (runtime : List Path) (count : Nat) :
    Relates (Disk.Keeps first (Output first root layout.outputs has))
      (do
        let last ← putTree scheme root seed? layout.treeCoverage
        let _ ← Sidecar.write last
        pure (runtime ++ [last], count + 1) : Action Failure (List Path × Nat)) := by
  have hmem := tree_mem_outputs layout
  intro listed hw hs
  refine Relates.bind_of_ends (R := Disk.Keeps first (Output first root layout.outputs has))
    (relates_putTree hmem hplain listed) (fun last whole htree => ?_) hw hs
  obtain ⟨rfl, content, hwrite⟩ := path_of_putTree htree
  obtain ⟨start, hbase⟩ := Disk.exists_base_of_write hw
    (Path.not_isAbsolute_of_no_separator hplain.no_separator) hplain.ne_empty hwrite
  have hname := Disk.isName_of_write hw hbase hplain.ne_empty hplain.no_separator hwrite
  have hsubject : Sidecar.IsSubject [layout.treeArtifact] :=
    ⟨List.forall_mem_singleton.mpr hname, [], _, rfl, hplain.not_marked⟩
  have hfirst := hbase.of_sameShape hs.symm
  have hhouse : first.at? (start ++ Path.names [layout.treeArtifact].dropLast) = some .dir := by
    simpa [Path.names] using hfirst.dir
  exact (relates_sidecar hsubject hfirst hroot (hhas start) hhouse).bind (fun _ => .pure _) whole

/-- A file that the sidecar of a run can belong to: it was there, or it is a signature. A signature
can also be written behind a link. -/
def HasSidecar (before after : Disk) (root : Path) (names : List String) (start : Location)
    (texts : List String) : Prop :=
  (∃ content, before.at? (start ++ Path.names texts) = some (.file content)) ∨
    IsOutput start names (start ++ Path.names texts) ∨
    ∃ name ∈ names, Text.IsName name ∧ after.Leads (root.join ⟨name⟩) (start ++ Path.names texts)

/-- What was written along the paths of the outputs, one after the other. -/
theorem confined_writeAll {seed? : Option Seed} {coverages : List Coverage}
    (hvalid : layout.Valid coverages) (hw : before.WellFormed)
    (hafter : (writeAll scheme root layout seed? before).disk = after) :
    before.Confined
      (Output before root layout.outputs (HasSidecar before after root layout.outputs)) after := by
  have htargets : ∀ coverage ∈ coverages, coverage.artifact ∈ layout.outputs ∧
      Layout.IsArtifactName coverage.artifact := fun coverage hmem =>
    ⟨hvalid.artifact_mem hmem, hvalid.isArtifactName _ (hvalid.artifact_mem hmem)⟩
  -- At first only signatures are written, whatever has a sidecar later.
  have hsigned : before.Confined (Output before root layout.outputs fun _ _ => False)
      (putArchitectures scheme root seed? coverages before).disk :=
    relates_putArchitectures htargets before hw (.refl before)
  have hfirst : before.Confined
      (Output before root layout.outputs (HasSidecar before after root layout.outputs))
      (putArchitectures scheme root seed? coverages before).disk := hsigned.mono fun _ _ houtput =>
    houtput.mono fun _ _ => False.elim
  have hstart : Action.ofExcept (layout.architectureCoverages.mapError Failure.brokenRule) =
      pure coverages := by
    rw [hvalid.coverages_eq]
    rfl
  rw [writeAll, hstart, pure_bind] at hafter
  obtain ⟨failure, hfails⟩ | ⟨runtime, signed, hends, hrest⟩ := Action.disk_bind hafter
  · exact hfails.2 ▸ hfirst
  · rw [hends.2] at hsigned hfirst
    have hkeeps : Disk.Keeps before (Output before root layout.outputs fun start texts =>
        (∃ content, signed.at? (start ++ Path.names texts) = some (.file content)) ∨
          IsOutput start layout.outputs (start ++ Path.names texts)) signed after := by
      rw [← hrest]
      refine Relates.bind_of_ends
        (keeps_sidecars fun start texts content hat => .inl ⟨content, hat⟩)
        fun count listed hlisted => ?_
      have hmem := tree_mem_outputs layout
      have hroot : root.text ≠ "" := by
        obtain ⟨paths, hpaths, -⟩ := Sidecar.ends_writeAll.mp hlisted
        obtain ⟨files, hfiles, -⟩ := Sidecar.subjects_eq_ok_iff.mp hpaths
        obtain ⟨loc, hfound⟩ := Disk.listed_of_filesUnder hsigned.wellFormed hfiles
        exact hfound.leads.text_ne_empty
      exact relates_last (hvalid.isArtifactName _ hmem) hroot
        (fun start => .inr (isOutput_iff.mpr hmem)) runtime count listed
    have hconfined := hkeeps hsigned.wellFormed hsigned.shape
    refine hfirst.trans (hconfined.mono fun path entry houtput => houtput.mono ?_)
    rintro start texts (⟨content, hat⟩ | hout)
    · by_cases hsame : signed.at? (start ++ Path.names texts) =
          before.at? (start ++ Path.names texts)
      · exact .inl ⟨content, hsame ▸ hat⟩
      · -- A file that was not there before is a signature.
        obtain ⟨path, entry, hsignature, hleads, -⟩ := hsigned.reached hsame
        cases hsignature with
        | signature _ hmem hname => exact .inr (.inr ⟨_, hmem, hname, hconfined.leads hleads⟩)
        | sidecar _ _ hnone => exact hnone.elim
    · exact .inr (.inl hout)

/-- A layout that breaks a rule changes nothing, and otherwise a run changes what writing everything
does. -/
theorem disk_withKey (hafter : (withKey scheme root layout key before).disk = after) :
    (∃ fault, layout.check = .error fault ∧ after = before) ∨
      layout.check = .ok () ∧ (writeAll scheme root layout key.toOption before).disk = after := by
  obtain ⟨failure, hfails⟩ | ⟨⟨⟩, first, hends, hrest⟩ := Action.disk_bind hafter
  · obtain ⟨hfault, rfl⟩ := Action.fails_ofExcept.mp hfails
    obtain ⟨fault, hcheck, -⟩ := mapError_eq_error_iff.mp hfault
    exact .inl ⟨fault, hcheck, rfl⟩
  · obtain ⟨hcheck, rfl⟩ := Action.ends_ofExcept.mp hends
    refine .inr ⟨mapError_eq_ok_iff.mp hcheck, ?_⟩
    cases key with
    | ok seed =>
        obtain ⟨failure, hfails⟩ | ⟨⟨paths, count⟩, last, hends, hlast⟩ := Action.disk_bind hrest
        · exact hfails.2
        · exact hends.2.trans hlast
    | error problem =>
        obtain ⟨failure, hfails⟩ | ⟨⟨⟩, told, htold, hrest⟩ := Action.disk_bind hrest
        · exact absurd hfails Action.not_fails_tell
        · obtain rfl := Action.ends_tell.mp htold
          obtain ⟨failure, hfails⟩ | ⟨⟨paths, count⟩, last, hends, hlast⟩ := Action.disk_bind hrest
          · exact hfails.2
          · exact hends.2.trans hlast

/-! ## Nothing but outputs -/

/-- What a run makes of the files below the base of the root. -/
def Produces (disk : Disk) (root : Path) (names : List String) (place : Location) : Prop :=
  ∃ start, disk.Base root start ∧ IsProduct disk start names place

/-- What a run makes is below the base of the root, -/
theorem Produces.isPrefix {place : Location} (h : Produces before root names place)
    (hbase : before.Base root start) : start <+: place := by
  obtain ⟨start', hbase', ⟨name, -, rfl⟩ | ⟨texts, -, -, rfl⟩⟩ := h
  · rw [hbase.unique hbase']
    exact List.prefix_append _ _
  · rw [hbase.unique hbase']
    exact List.prefix_append _ _

/-- and what stands there under another name is none of it. -/
theorem not_produces {name : String} (hbase : before.Base root start) (hname : name ∉ names)
    (hunmarked : Sidecar.isMarkedName name = false) :
    ¬ Produces before root names (start ++ [.utf8 name]) := by
  rintro ⟨start', hbase', houtput | ⟨texts, hsubject, -, heq⟩⟩
  · rw [hbase.unique hbase', isOutput_iff] at houtput
    exact hname houtput
  · rw [hbase.unique hbase'] at heq
    have hmarked := Sidecar.isMarkedPlace_beside hsubject.ne_nil
    rw [← List.append_cancel_left heq, Sidecar.isMarkedPlace_singleton_iff, hunmarked] at hmarked
    cases hmarked

/-- If no link stands where a run writes, it only changes what it makes. -/
theorem unchanged_of_confined
    (h : before.Confined (Output before root names (HasSidecar before after root names)) after)
    (hfree : ∀ place target, Produces before root names place →
      before.at? place ≠ some (.link target))
    {place : Location} (hplace : ¬ Produces before root names place) :
    after.at? place = before.at? place := by
  by_contra hne
  obtain ⟨path, entry, houtput, -, hentry⟩ := h.reached hne
  have hproduces : Produces before root names entry := by
    cases houtput with
    | signature hbase hmem hname => exact ⟨_, hbase, .inl ⟨_, hmem, rfl⟩⟩
    | @sidecar start texts hbase hsubject hhas =>
        refine ⟨start, hbase, .inr ⟨texts, hsubject, ?_, rfl⟩⟩
        obtain hfile | hout | ⟨name, hmem, hname, hleads⟩ := hhas
        · exact .inl hfile
        · exact .inr hout
        · -- The signature is where its name says, because no link stands there.
          have hbase' := hbase.of_sameShape h.shape
          have hdir : after.at? (start ++ []) = some .dir := by
            rw [List.append_nil]
            exact hbase'.dir
          obtain heq | hlink := hbase'.place_or_link (Path.continues_name hname) (by simp) hleads
          · exact .inr ⟨name, hmem, heq⟩
          · obtain ⟨target, hat⟩ := Disk.link_of_linkOn hdir hlink
            exact absurd (h.shape.link_iff.mp hat)
              (hfree _ target ⟨start, hbase, .inl ⟨name, hmem, rfl⟩⟩)
  obtain rfl | ⟨target, hlink⟩ := hentry
  · exact hplace hproduces
  · exact hfree entry target hproduces hlink

/-- **Where sealing writes.** Whether a run ends or fails, nothing vanishes and no link changes, and
all that is written is a file along the path of a signature or of a sidecar: at the place of this
output, or behind a link that stands there. So if none of these places holds a link, nothing but
outputs is created or changed. -/
theorem writes_confined (hw : before.WellFormed)
    (hafter : (withKey scheme root layout key before).disk = after) :
    before.Confined
      (Output before root layout.outputs (HasSidecar before after root layout.outputs)) after ∧
    ((∀ place target, Produces before root layout.outputs place →
        before.at? place ≠ some (.link target)) →
      ∀ place, ¬ Produces before root layout.outputs place →
        after.at? place = before.at? place) := by
  have hconfined : before.Confined
      (Output before root layout.outputs (HasSidecar before after root layout.outputs)) after := by
    obtain ⟨fault, -, rfl⟩ | ⟨hcheck, hwrites⟩ := disk_withKey hafter
    · exact .refl hw
    · obtain ⟨coverages, hvalid⟩ := Layout.valid_of_check hcheck
      exact confined_writeAll hvalid hw hwrites
  exact ⟨hconfined, fun hfree place hplace => unchanged_of_confined hconfined hfree hplace⟩

section Small

/-- Sealing the small package leaves its member. -/
theorem writes_confined_small : ((withKey Ed25519.scheme ⟨"."⟩ small (.ok smallSeed))
    (smallDisk [] [] [] [] [])).disk.at? [.utf8 "a"] = some (.file [1]) := by
  have hbase : (smallDisk [] [] [] [] []).Base ⟨"."⟩ [] := ⟨rfl, .inr ⟨_, rfl⟩⟩
  have hplace := not_produces hbase (by decide : "a" ∉ small.outputs) rfl
  exact ((writes_confined (smallDisk_wellFormed [] [] [] [] []) rfl).2
    (fun place target _ hlink => Disk.flat_linkFree [] place target hlink) _ hplace).trans rfl

/-- A package with a member and a file, where links stand in place of the signatures: one leads to
the file, the other to one beside the package. -/
def linkedDisk (aSum v vSum tSum beside : Bytes) : Disk :=
  .packaged [("a", .file [1]), ("a.sha256", .file aSum), ("s", .link (.utf8 "v")),
    ("t", .link (.utf8 "../v")), ("t.sha256", .file tSum), ("v", .file v),
    ("v.sha256", .file vSum)] beside

variable (aSum v vSum tSum beside : Bytes)

theorem linkedDisk_wellFormed : (linkedDisk aSum v vSum tSum beside).WellFormed := by
  refine Disk.packaged_wellFormed (Node.wellFormed_named
    ["a", "a.sha256", "s", "t", "t.sha256", "v", "v.sha256"] rfl (by decide) (by decide) ?_)
  have hlink : ∀ text ∈ ["v", "../v"], (Node.link (.utf8 text)).WellFormed := by
    intro text htext
    refine Node.wellFormed_link ?_ ?_ ?_
    all_goals
      revert htext
      revert text
      decide
  simp only [List.mem_cons, List.not_mem_nil, or_false, forall_eq_or_imp, forall_eq,
    Node.wellFormed_file] at hlink ⊢
  simp [hlink]

theorem filesUnder_linkedDisk : (linkedDisk aSum v vSum tSum beside).filesUnder ⟨"p"⟩ =
    .ok [⟨"p/a"⟩, ⟨"p/a.sha256"⟩, ⟨"p/t.sha256"⟩, ⟨"p/v"⟩, ⟨"p/v.sha256"⟩] := by
  rw [linkedDisk, Disk.filesUnder_packaged ["a", "a.sha256", "t.sha256", "v", "v.sha256"] rfl
    (by simp [Node.inside]) rfl, Path.sort_eq_self (by decide)]
  rfl

/-- The member and the file of the package get their sidecars. -/
theorem linked_sidecars : (Sidecar.writeAll ⟨"p"⟩ ["t"]).Ends (linkedDisk aSum v vSum tSum beside) 2
    (linkedDisk (Sidecar.digest [1]) v (Sidecar.digest v) tSum beside) := by
  have hfirst : ∀ content, (linkedDisk aSum v vSum tSum beside).write ⟨"p/a.sha256"⟩ content =
      .ok (linkedDisk content v vSum tSum beside) := fun _ => rfl
  have hsecond : ∀ aSum content, (linkedDisk aSum v vSum tSum beside).write ⟨"p/v.sha256"⟩ content =
      .ok (linkedDisk aSum v content tSum beside) := fun _ _ => rfl
  have hwrites : ([⟨"p/a"⟩, ⟨"p/v"⟩].forM fun path => discard (Sidecar.write path)).Ends
      (linkedDisk aSum v vSum tSum beside) ()
      (linkedDisk (Sidecar.digest [1]) v (Sidecar.digest v) tSum beside) :=
    Sidecar.ends_sidecars_cons rfl (hfirst (Sidecar.digest [1]))
      (Sidecar.ends_sidecars_cons rfl (hsecond _ (Sidecar.digest v)) (Action.ends_forM_nil.mpr rfl))
  exact Sidecar.ends_writeAll.mpr ⟨[⟨"p/a"⟩, ⟨"p/v"⟩], Sidecar.subjects_eq_ok_iff.mpr
    ⟨_, filesUnder_linkedDisk aSum v vSum tSum beside, by decide⟩, rfl, hwrites⟩

/-- A run without a key writes placeholders over what the links lead to. -/
theorem linked_ends (problem : KeyProblem) :
    (withKey Ed25519.scheme ⟨"p"⟩ small (.error problem)).Ends (linkedDisk aSum v vSum tSum beside)
      ⟨.unsigned problem, [⟨"p/s"⟩, ⟨"p/t"⟩], 3⟩
      (linkedDisk (Sidecar.digest [1]) [] (Sidecar.digest []) (Sidecar.digest []) []) := by
  have hput : (linkedDisk aSum v vSum tSum beside).write (Path.join ⟨"p"⟩ ⟨"s"⟩) [] =
      .ok (linkedDisk aSum [] vSum tSum beside) := rfl
  have hputTree : ∀ aSum vSum,
      (linkedDisk aSum [] vSum tSum beside).write (Path.join ⟨"p"⟩ ⟨"t"⟩) [] =
      .ok (linkedDisk aSum [] vSum tSum []) := fun _ _ => rfl
  have hlast : ∀ aSum vSum content, (linkedDisk aSum [] vSum tSum []).write ⟨"p/t.sha256"⟩ content =
      .ok (linkedDisk aSum [] vSum content []) := fun _ _ _ => rfl
  exact (ends_withKey Ed25519.scheme_streams).mpr ⟨_, _, _,
    ⟨⟨[smallCoverage], rfl, .cons rfl hput .nil, rfl⟩,
      ⟨_, linked_sidecars aSum [] vSum tSum beside, rfl⟩, ⟨[], rfl, hputTree _ _⟩,
      ⟨_, Sidecar.ends_write.mpr ⟨rfl, [], rfl, hlast _ _ (Sidecar.digest [])⟩⟩⟩, rfl, rfl⟩

/-- **A file can be overwritten that is no output**: in the package, or beside it. -/
theorem link_at_output_followed : small.check = .ok () ∧
    (linkedDisk [] [7] [] [] [7]).WellFormed ∧ ∃ report after,
      (withKey Ed25519.scheme ⟨"p"⟩ small (.error (.missing ⟨"k"⟩))).Ends
        (linkedDisk [] [7] [] [] [7]) report after ∧
      ∀ place ∈ [[.utf8 "p", .utf8 "v"], [.utf8 "v"]],
        ¬ Produces (linkedDisk [] [7] [] [] [7]) ⟨"p"⟩ small.outputs place ∧
          (linkedDisk [] [7] [] [] [7]).at? place = some (.file [7]) ∧
          after.at? place = some (.file []) := by
  refine ⟨rfl, linkedDisk_wellFormed _ _ _ _ _, _, _, linked_ends [] [7] [] [] [7] _, ?_⟩
  have hbase : (linkedDisk [] [7] [] [] [7]).Base ⟨"p"⟩ [.utf8 "p"] := ⟨rfl, .inr ⟨_, rfl⟩⟩
  rw [List.forall_mem_cons, List.forall_mem_singleton]
  refine ⟨⟨?_, rfl, rfl⟩, ?_, rfl, rfl⟩
  · exact not_produces hbase (by decide : "v" ∉ small.outputs) rfl
  · intro hproduces
    have hprefix := hproduces.isPrefix hbase
    revert hprefix
    decide

end Small

end Sealing

end PackageSeal
