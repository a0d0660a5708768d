import PackageSeal.Proofs.Sealing.RoundTrip

/-!
# Every file has its checksum

The files that get a sidecar are listed once, before the first sidecar is written, and without the
signature over the tree, which is still to come. All the same every regular file of the final tree
has its checksum beside it: sidecars get none, none is written over a file that has one, and the
signature over the tree gets its own at the end (`digests_complete`).
-/

namespace PackageSeal.Sealing

variable {scheme : SignatureScheme} {key : Except KeyProblem Seed} {before after : Disk}
  {root : Path} {layout : Layout} {report : Report} {loc : Location} {coverages : List Coverage}

namespace Furnished

/-- Text leads to every file that is there after a run. -/
theorem exists_names (h : Furnished scheme key root layout coverages loc before after report)
    {place : Location} {content : Bytes} (hfile : after.FileBelow root place content) :
    ∃ front name, place = Path.names (front ++ [name]) ∧
      ∀ text ∈ front ++ [name], Text.IsName text := by
  have hat := h.after_rooted.fileBelow_iff.mp hfile
  obtain ⟨texts, rfl, htexts⟩ := h.walkable.names h.after_rooted.wellFormed hat
  obtain ⟨front, name, rfl⟩ := exists_concat (Disk.texts_ne_nil h.after_rooted.dir hat)
  exact ⟨front, name, rfl, htexts⟩

/-- A file that is not called like a sidecar has one, with its checksum. -/
theorem fileBelow_beside (h : Furnished scheme key root layout coverages loc before after report)
    {front : List String} {name : String} {content : Bytes}
    (hfile : after.FileBelow root (Path.names (front ++ [name])) content)
    (hunmarked : Sidecar.isMarkedName name = false) :
    after.FileBelow root (Path.names (front ++ [name ++ Sidecar.suffix]))
      (Sidecar.digest content) := by
  obtain ⟨front', name', heq, htexts⟩ := h.exists_names hfile
  rw [← Path.names_inj heq] at htexts
  obtain ⟨places, hplaces, -, hpairs⟩ := h.sidecars
  have hplace := (hplaces.mem_iff (front ++ [name]) content).mpr
    ⟨⟨htexts, front, name, rfl, hunmarked⟩, List.forall_mem_nil _,
      h.after_rooted.fileBelow_iff.mp hfile⟩
  rw [← Sidecar.beside_concat, h.after_rooted.fileBelow_iff]
  exact (hpairs _ _ hplace).sidecar.at?_eq

/-- No run writes the sidecar of a sidecar. -/
theorem not_isProduct_twice (hvalid : layout.Valid coverages) {front : Location} {name : String}
    (hmarked : Sidecar.isMarkedName name = true) :
    ¬ IsProduct before loc layout.outputs (loc ++ (front ++ [.utf8 (name ++ Sidecar.suffix)])) := by
  have hlast : ∀ (front' : Location) (text : String),
      loc ++ (front ++ [.utf8 (name ++ Sidecar.suffix)]) = loc ++ (front' ++ [.utf8 text]) →
        name ++ Sidecar.suffix = text := fun _ _ heq =>
    RawText.utf8.inj (List.append_singleton_inj.mp (List.append_cancel_left heq)).2
  rintro (⟨output, houtput, heq⟩ | ⟨texts, hsubject, -, heq⟩)
  · have hplain := (hvalid.isArtifactName output houtput).not_marked
    rw [← hlast [] output heq, Sidecar.isMarkedName_iff.mpr ⟨name, rfl⟩] at hplain
    cases hplain
  · obtain ⟨others, text, rfl, hunmarked⟩ := hsubject.unmarked
    rw [Sidecar.beside_concat, Path.names, List.map_append, List.map_singleton] at heq
    have htext := (String.append_left_inj Sidecar.suffix).mp (hlast _ _ heq)
    rw [← htext, hmarked] at hunmarked
    cases hunmarked

/-- The sidecars that are counted are those of the files that are not called like one. -/
theorem exists_counted (h : Furnished scheme key root layout coverages loc before after report) :
    ∃ files : List (List String), files.Nodup ∧ report.sidecars = files.length ∧
      ∀ texts, texts ∈ files ↔
        (∃ front name, texts = front ++ [name] ∧ Sidecar.isMarkedName name = false) ∧
          ∃ content, after.FileBelow root (Path.names texts) content := by
  obtain ⟨places, hplaces, hcount, -⟩ := h.sidecars
  refine ⟨places.map Prod.fst, hplaces.nodup, by rw [hcount, List.length_map], fun texts => ?_⟩
  rw [List.mem_map]
  constructor
  · rintro ⟨⟨texts, content⟩, hplace, rfl⟩
    obtain ⟨hsubject, -, hat⟩ := (hplaces.mem_iff texts content).mp hplace
    exact ⟨hsubject.unmarked, content, h.after_rooted.fileBelow_iff.mpr hat⟩
  · rintro ⟨hunmarked, content, hfile⟩
    obtain ⟨front, name, heq, htexts⟩ := h.exists_names hfile
    rw [← Path.names_inj heq] at htexts
    refine ⟨(texts, content), (hplaces.mem_iff texts content).mpr
      ⟨⟨htexts, hunmarked⟩, List.forall_mem_nil _, h.after_rooted.fileBelow_iff.mp hfile⟩, rfl⟩

/-- Without a key all signatures are empty files. -/
theorem read_eq_nil {problem : KeyProblem}
    (h : Furnished scheme (.error problem) root layout coverages loc before after report)
    {coverage : Coverage} (hcoverage : coverage ∈ coverages ++ [layout.treeCoverage]) :
    after.read (coverage.artifactPath root) = .ok [] := by
  rw [List.mem_append, List.mem_singleton] at hcoverage
  cases hcoverage with
  | inl hmem =>
      obtain ⟨content, rfl, hread⟩ := h.inscriptions coverage hmem
      exact hread
  | inr heq =>
      obtain ⟨content, rfl, hread⟩ := h.treeInscription
      rw [heq]
      exact hread

end Furnished

/-- **Every file has its checksum after a run**, with a key or without. Of the files below the root,
all are reached by text; those that are not called like a sidecar have one that holds their
checksum; no sidecar of a sidecar was made or changed; the report counts the files that have a
sidecar, and so does checking them. After a run without a key the package verifies with all
signatures unsigned, and where a key is pinned the first of them is reported. -/
theorem digests_complete (hS : scheme.Streams) (hw : before.WellFormed)
    (hlinks : before.NoLinks root)
    (hends : (withKey scheme root layout key).Ends before report after) :
    (∀ place content, after.FileBelow root place content →
      ∃ front name, place = Path.names (front ++ [name]) ∧
        (Sidecar.isMarkedName name = false →
          after.FileBelow root (Path.names (front ++ [name ++ Sidecar.suffix]))
            (Sidecar.digest content))) ∧
    (∀ front name content, Sidecar.isMarkedName name = true →
      (after.FileBelow root (front ++ [.utf8 (name ++ Sidecar.suffix)]) content ↔
        before.FileBelow root (front ++ [.utf8 (name ++ Sidecar.suffix)]) content)) ∧
    (∃ files : List (List String), files.Nodup ∧ report.sidecars = files.length ∧
      ∀ texts, texts ∈ files ↔
        (∃ front name, texts = front ++ [name] ∧ Sidecar.isMarkedName name = false) ∧
          ∃ content, after.FileBelow root (Path.names texts) content) ∧
    Verification.checkSidecars after root = .ok report.sidecars ∧
    ∀ problem, key = .error problem →
      (Verification.checkPackage scheme after root layout none).outcome =
        .ok ⟨layout.outputs.map fun name => (name, .unsigned), report.sidecars⟩ ∧
      ∀ pin, ∃ first, layout.outputs.head? = some first ∧
        (Verification.checkPackage scheme after root layout (some pin)).outcome =
          .error (.leftUnsigned first) := by
  obtain ⟨coverages, loc, hvalid, h⟩ := furnished_of_ends hS hw hlinks hends
  obtain ⟨_, _, _, hphases⟩ := (ends_withKey hS).mp hends
  refine ⟨fun place content hfile => ?_, fun front name content hmarked => ?_, h.exists_counted,
    h.checkSidecars, ?_⟩
  · obtain ⟨front, name, rfl, -⟩ := h.exists_names hfile
    exact ⟨front, name, rfl, h.fileBelow_beside hfile⟩
  · rw [h.after_rooted.fileBelow_iff, h.before_rooted.fileBelow_iff,
      h.differs.at?_eq (Furnished.not_isProduct_twice hvalid hmarked)]
  · rintro problem rfl
    refine ⟨h.checkPackage_of_status hphases.check hvalid fun coverage hcoverage =>
      Verification.checkCoverage_eq_unsigned_iff.mpr ⟨rfl, h.read_eq_nil hcoverage⟩, fun pin => ?_⟩
    -- Whatever the first signature is, it is empty.
    obtain ⟨first, rest, hfirst⟩ := List.exists_cons_of_ne_nil
      (List.append_ne_nil_of_right_ne_nil coverages (List.cons_ne_nil layout.treeCoverage []))
    have hsplit : coverages ++ [layout.treeCoverage] = [] ++ first :: rest := hfirst
    refine ⟨first.artifact, by rw [hvalid.outputs_eq_map, hfirst]; rfl, ?_⟩
    have hempty := h.read_eq_nil (hfirst ▸ List.mem_cons_self)
    exact Verification.checkPackage_eq_error hphases.check hvalid.coverages_eq hsplit
      (List.forall_mem_nil _) (Verification.checkCoverage_of_empty hempty pin)

/-- The small package without a key: the member has its checksum beside it, and nobody takes the
signatures for any. -/
theorem digests_complete_small : ∃ report after,
    (withKey Ed25519.scheme ⟨"."⟩ small (.error (.missing ⟨"key"⟩))).Ends (smallDisk [] [] [] [] [])
      report after ∧
    after.FileBelow ⟨"."⟩ [.utf8 "a.sha256"] (Sidecar.digest [1]) ∧
    Verification.checkSidecars after ⟨"."⟩ = .ok report.sidecars ∧
    (Verification.checkPackage Ed25519.scheme after ⟨"."⟩ small none).outcome =
      .ok ⟨[("s", .unsigned), ("t", .unsigned)], report.sidecars⟩ ∧
    (Verification.checkPackage Ed25519.scheme after ⟨"."⟩ small
      (some (Ed25519.scheme.publicKey smallSeed))).outcome = .error (.leftUnsigned "s") := by
  obtain ⟨mark, treeMark, hends⟩ := small_furnished [] [] [] [] [] Ed25519.scheme_streams
    (.error (.missing ⟨"key"⟩))
  obtain ⟨hall, -, -, hsidecars, hunsigned⟩ := digests_complete Ed25519.scheme_streams
    (smallDisk_wellFormed [] [] [] [] []) (smallDisk_noLinks [] [] [] [] [] ⟨"."⟩) hends
  obtain ⟨haccepted, hpinned⟩ := hunsigned _ rfl
  obtain ⟨first, hfirst, hrefused⟩ := hpinned (Ed25519.scheme.publicKey smallSeed)
  obtain rfl := Option.some.inj hfirst
  refine ⟨_, _, hends, ?_, hsidecars, haccepted, hrefused⟩
  obtain ⟨front, name, hplace, hbeside⟩ := hall [.utf8 "a"] [1] ⟨[], ⟨_, rfl⟩, rfl⟩
  have htexts : [] ++ ["a"] = front ++ [name] := Path.names_inj hplace
  obtain ⟨rfl, rfl⟩ := List.append_singleton_inj.mp htexts
  exact hbeside (by decide)

end PackageSeal.Sealing
