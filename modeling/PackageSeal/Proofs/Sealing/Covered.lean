import PackageSeal.Proofs.Schemes
import PackageSeal.Proofs.Sealing.Sealed

/-!
# What each signature covers

After a run with a key, the signature of an architecture is over its declared members with what
their sources held before the run, and the signature over the tree is over the regular files of the
final tree, signatures and sidecars included, but for those called like itself (`signatures_cover`).
What is signed is in either case the frames of these, one after the other, in the order of their
names.
-/

namespace PackageSeal.Sealing

variable {scheme : SignatureScheme} {seed : Seed} {before after : Disk} {root : Path}
  {layout : Layout} {report : Report}

/-- The file of that name at the root holds a signature, and after it the public key; the signature
is over the frames of the entries in strictly ascending order of their names. -/
def SignedOver (scheme : SignatureScheme) (seed : Seed) (disk : Disk) (root : Path)
    (artifact : String) (entries : List (MemberName × Bytes)) : Prop :=
  ∃ held, held.Perm entries ∧ (held.Pairwise fun a b => a.1 < b.1) ∧
    disk.read (root.join ⟨artifact⟩) =
      .ok ((scheme.sign seed (Frame.canonical held)).bytes ++ (scheme.publicKey seed).bytes)

/-- The regular files below the root but those called like the signature or its sidecar, each once,
by the names that lead there and with its content. -/
structure TreeFiles (disk : Disk) (root : Path) (artifact : String)
    (files : List (List String × Bytes)) : Prop where
  nodup : (files.map Prod.fst).Nodup
  file_iff : ∀ place content,
    disk.FileBelow root place content ∧ ¬ Coverage.IsOwn artifact place ↔
      ∃ texts, place = Path.names texts ∧ (texts, content) ∈ files

/-- What the coverage of an architecture holds are its declared members. -/
theorem signedOver_of_listed {arch : Architecture} {members : List Member}
    {held : List (MemberName × Bytes)}
    (hholds : (Coverage.ofArchitecture arch members).Holds before root held)
    (hread : after.read (root.join ⟨arch.artifact⟩) = .ok (sealOver scheme seed held).octets) :
    ∃ entries, List.Forall₂ (fun member entry => member.name = entry.1 ∧
        before.read (root.join member.source) = .ok entry.2) members entries ∧
      SignedOver scheme seed after root arch.artifact entries := by
  obtain ⟨hascending, entries, hentries, hperm⟩ := Coverage.holds_listed_iff.mp hholds
  exact ⟨entries, hentries, held, hperm, hascending, hread⟩

/-- What the coverage of the tree holds are the files of the tree. -/
theorem signedOver_of_tree {loc : Location} (hroot : after.Rooted root loc) {artifact : String}
    {held : List (MemberName × Bytes)} (hholds : (Coverage.ofTree artifact).Holds after root held)
    (hread : after.read (root.join ⟨artifact⟩) = .ok (sealOver scheme seed held).octets) :
    ∃ files entries, TreeFiles after root artifact files ∧
      List.Forall₂ (fun file entry => MemberName.ofTexts file.1 = .ok entry.1 ∧
        file.2 = entry.2) files entries ∧
      SignedOver scheme seed after root artifact entries := by
  obtain ⟨hascending, start, files, entries, hleads, hdir, hwalk, hcensus, hentries, hperm⟩ :=
    (Coverage.holds_tree_iff hroot.wellFormed).mp hholds
  refine ⟨files, entries, ⟨hcensus.nodup, fun place content => ⟨?_, ?_⟩⟩, ?_,
    held, hperm, hascending, hread⟩
  · rintro ⟨⟨other, hother, hat⟩, hown⟩
    obtain rfl := hleads.unique hother
    obtain ⟨texts, rfl, htexts⟩ := hwalk.names hroot.wellFormed hat
    exact ⟨texts, rfl, (hcensus.mem_iff texts content).mpr ⟨htexts, hown, hat⟩⟩
  · rintro ⟨texts, rfl, hmem⟩
    obtain ⟨-, hown, hat⟩ := (hcensus.mem_iff texts content).mp hmem
    exact ⟨⟨start, hleads, hat⟩, hown⟩
  · refine forall₂_imp_of_mem (fun file hfile entry hentry => ?_) hentries
    obtain ⟨htexts, -, hat⟩ := (hcensus.mem_iff file.1 file.2).mp hfile
    have hcontent := (Disk.read_descend hroot.wellFormed hleads hdir htexts hat hentry.2).2
    exact ⟨hentry.1, hcontent.symm⟩

/-- **What each signature covers.** After a run with a key, below a root without links, the report
names the public key of the seed and the paths of all signatures; every architecture has a signature
over its declared members with what their sources held before the run; and the tree has one over its
files as they are now. -/
theorem signatures_cover (hS : scheme.Streams) (hw : before.WellFormed)
    (hlinks : before.NoLinks root)
    (hends : (withKey scheme root layout (.ok seed)).Ends before report after) :
    report.outcome = .signed (scheme.publicKey seed) ∧
      report.artifacts = layout.outputs.map (fun name => root.join ⟨name⟩) ∧
      (∀ arch ∈ layout.architectures, ∃ members entries,
        layout.membersOf arch = .ok members ∧
        List.Forall₂ (fun member entry => member.name = entry.1 ∧
          before.read (root.join member.source) = .ok entry.2) members entries ∧
        SignedOver scheme seed after root arch.artifact entries) ∧
      ∃ files entries, TreeFiles after root layout.treeArtifact files ∧
        List.Forall₂ (fun file entry => MemberName.ofTexts file.1 = .ok entry.1 ∧
          file.2 = entry.2) files entries ∧
        SignedOver scheme seed after root layout.treeArtifact entries := by
  obtain ⟨coverages, loc, hvalid, hsealed⟩ := sealed_of_ends hS hw hlinks hends
  refine ⟨hsealed.outcome, hsealed.artifacts, fun arch harch => ?_, ?_⟩
  · obtain ⟨coverage, hcoverage, hof⟩ :=
      exists_right_of_forall₂ (mapM_eq_ok_iff.mp hvalid.coverages_eq) harch
    obtain ⟨members, hmembers, rfl, -⟩ := Layout.coverageOf_eq_ok hof
    obtain ⟨held, hholds, hread⟩ := hsealed.runtime _ hcoverage
    obtain ⟨entries, hentries, hsigned⟩ := signedOver_of_listed hholds hread
    exact ⟨members, entries, hmembers, hentries, hsigned⟩
  · obtain ⟨held, hholds, hread⟩ := hsealed.tree
    exact signedOver_of_tree hsealed.after_rooted hholds hread

/-- Sealing the small package signs its one member and the tree. -/
theorem signatures_cover_small : ∃ report after,
    (withKey Ed25519.scheme ⟨"."⟩ small (.ok smallSeed)).Ends (smallDisk [] [] [] [] [])
      report after ∧
    report.outcome = .signed (Ed25519.scheme.publicKey smallSeed) ∧
    report.artifacts = [⟨"./s"⟩, ⟨"./t"⟩] ∧
    SignedOver Ed25519.scheme smallSeed after ⟨"."⟩ "s" [(MemberName.a, [1])] ∧
    ∃ entries, SignedOver Ed25519.scheme smallSeed after ⟨"."⟩ "t" entries := by
  have hstreams := Ed25519.scheme_streams
  obtain ⟨report, after, hends⟩ := small_ends [] [] [] [] [] hstreams
  obtain ⟨houtcome, hartifacts, harchs, files, entries, -, -, htree⟩ := signatures_cover hstreams
    (smallDisk_wellFormed [] [] [] [] []) (smallDisk_noLinks [] [] [] [] [] ⟨"."⟩) hends
  refine ⟨report, after, hends, houtcome, hartifacts, ?_, entries, htree⟩
  obtain ⟨members, signed, hmembers, hsigned, hover⟩ := harchs _ List.mem_cons_self
  obtain rfl : [Member.a] = members := Except.ok.inj hmembers
  cases hsigned with
  | @cons _ entry _ _ hentry hrest =>
      cases hrest
      have hone : (smallDisk [] [] [] [] []).read (Path.join ⟨"."⟩ ⟨"a"⟩) = .ok [1] := rfl
      have hsame : (MemberName.a, [1]) = entry :=
        Prod.ext hentry.1 (Except.ok.inj (hone.symm.trans hentry.2))
      rw [hsame]
      exact hover

end PackageSeal.Sealing
