import PackageSeal.Proofs.Schemes
import PackageSeal.Proofs.Sealing.Confined
import PackageSeal.Proofs.Sealing.Refusals
import PackageSeal.Proofs.Verification.Package

/-!
# What a run leaves that stops

A run with a key stops before it writes anything if a listed member is absent, and it names the
first one (`absent_iff`). A layout that breaks a rule stops every run before it writes anything. But
the names of the files are looked at last, when the signature over the tree is made: if they clash,
the signatures of the architectures and the sidecars have been written by then (`rejected_iff`,
`rejected_late`).
-/

namespace PackageSeal

/-- A checksum has 64 digits. -/
theorem Sidecar.digest_ne_nil (content : Bytes) : Sidecar.digest content ≠ [] := by
  intro hnil
  have hlength := congrArg List.length hnil
  rw [Sidecar.digest, length_utf8, Checksum.utf8ByteSize_text] at hlength
  cases hlength

namespace Sealing

variable {scheme : SignatureScheme} {root : Path} {layout : Layout} {key : Except KeyProblem Seed}
  {before after : Disk}

/-! ## Absent members -/

theorem not_isAccess_absent {name : MemberName} {path : Path} :
    ¬ (Failure.absentMember name path).IsAccess := by
  rintro ⟨_, _, _, heq⟩
  cases heq

variable {coverages : List Coverage} {lists : List (List Member)} {seed : Seed} {name : MemberName}
  {path : Path}

/-- A run with a key stops for the first absent member, at the start. -/
theorem fails_absent_iff (hcheck : layout.check = .ok ())
    (hcoverages : layout.architectureCoverages = .ok coverages)
    (hlists : Layout.Lists lists coverages) :
    (withKey scheme root layout (.ok seed)).Fails before (.absentMember name path) after ↔
      Coverage.firstAbsent? before root lists.flatten = some ⟨name, path⟩ ∧ after = before := by
  have hmembers : coverages.mapM (fun coverage => coverage.members before root) =
      .error (.absentMember name path) ↔
        Coverage.firstAbsent? before root lists.flatten = some ⟨name, path⟩ := by
    rw [Coverage.mapM_members_eq_error_iff hlists]
    constructor
    · rintro ⟨⟨_, _⟩, hfirst, heq⟩
      cases heq
      exact hfirst
    · intro hfirst
      exact ⟨_, hfirst, rfl⟩
  rw [fails_withKey_iff not_isAccess_absent, ← hmembers]
  constructor
  · rintro (⟨_, _, heq, _⟩ | ⟨-, _, targets, -, htargets, hstart | ⟨-, htree⟩⟩)
    · cases heq
    · rw [hcoverages, Except.ok.injEq] at htargets
      exact htargets ▸ hstart
    · exact absurd htree Coverage.members_tree_ne_absent
  · intro hstart
    exact .inr ⟨hcheck, seed, coverages, rfl, hcoverages, .inl hstart⟩

/-- A member is absent if one of the lists has it. -/
theorem exists_fails_absent_iff (hcheck : layout.check = .ok ())
    (hcoverages : layout.architectureCoverages = .ok coverages)
    (hlists : Layout.Lists lists coverages) :
    (∃ name path after,
      (withKey scheme root layout (.ok seed)).Fails before (.absentMember name path) after) ↔
        ∃ members ∈ lists, ∃ member ∈ members, before.isFile (root.join member.source) = false := by
  have hfirst : (∃ name path, Coverage.firstAbsent? before root lists.flatten = some ⟨name, path⟩) ↔
      ∃ member, Coverage.firstAbsent? before root lists.flatten = some member := by
    constructor
    · rintro ⟨name, path, h⟩
      exact ⟨_, h⟩
    · rintro ⟨member, h⟩
      exact ⟨member.name, member.source, h⟩
  simp only [fails_absent_iff hcheck hcoverages hlists, exists_and_left, exists_eq, and_true]
  rw [hfirst, Coverage.exists_firstAbsent_iff]
  constructor
  · rintro ⟨member, hmember, habsent⟩
    obtain ⟨members, hmembers, hmem⟩ := List.mem_flatten.mp hmember
    exact ⟨members, hmembers, member, hmem, habsent⟩
  · rintro ⟨members, hmembers, member, hmem, habsent⟩
    exact ⟨member, List.mem_flatten.mpr ⟨members, hmembers, hmem⟩, habsent⟩

/-- Without a key no member is looked for. -/
theorem not_fails_absent {problem : KeyProblem} :
    ¬ (withKey scheme root layout (.error problem)).Fails before
      (.absentMember name path) after := by
  rw [fails_withKey_iff not_isAccess_absent]
  rintro (⟨_, _, heq, _⟩ | ⟨_, _, _, heq, _⟩)
  · cases heq
  · cases heq

/-- **When a member is absent.** The members of every architecture are those that the layout lists
for it, the common ones first. A run with a key stops for an absent member exactly if the source of
a listed member is no regular file; it names the first of them in the order of architectures, and
changes nothing. The members of an architecture cannot be refused otherwise. Neither a run without a
key nor the tree has absent members. -/
theorem absent_iff (hcheck : layout.check = .ok ()) : ∃ coverages lists,
    layout.architectureCoverages = .ok coverages ∧
    List.Forall₂ (fun arch members => layout.membersOf arch = .ok members ∧
      members.map Member.source = layout.common.map Path.mk ++
        layout.templates.map fun template => ⟨arch.fill template.source⟩)
      layout.architectures lists ∧
    List.Forall₂ (fun members coverage => ∃ arch, coverage = .ofArchitecture arch members)
      lists coverages ∧
    (∀ seed before name path after,
      (withKey scheme root layout (.ok seed)).Fails before (.absentMember name path) after ↔
        Coverage.firstAbsent? before root lists.flatten = some ⟨name, path⟩ ∧ after = before) ∧
    (∀ seed before, (∃ name path after,
      (withKey scheme root layout (.ok seed)).Fails before (.absentMember name path) after) ↔
        ∃ members ∈ lists, ∃ member ∈ members, before.isFile (root.join member.source) = false) ∧
    (∀ coverage ∈ coverages, ∀ disk failure, coverage.members disk root = .error failure →
      ∃ name path, failure = .absentMember name path) ∧
    (∀ problem before name path after,
      ¬ (withKey scheme root layout (.error problem)).Fails before
        (.absentMember name path) after) ∧
    ∀ disk name path, layout.treeCoverage.members disk root ≠ .error (.absentMember name path) := by
  obtain ⟨coverages, hvalid⟩ := Layout.valid_of_check hcheck
  obtain ⟨lists, hmembers, hlists⟩ := hvalid.lists
  refine ⟨coverages, lists, hvalid.coverages_eq,
    hmembers.imp fun arch members h => ⟨h, Layout.sources_of_membersOf h⟩,
    hlists.imp fun members coverage h => h.1,
    fun seed before name path after => fails_absent_iff hcheck hvalid.coverages_eq hlists,
    fun seed before => exists_fails_absent_iff hcheck hvalid.coverages_eq hlists, ?_,
    fun problem before name path after => not_fails_absent,
    fun disk name path => Coverage.members_tree_ne_absent⟩
  intro coverage hcoverage disk failure hfailure
  obtain ⟨members, -, ⟨arch, rfl⟩, hnames⟩ := exists_left_of_forall₂ hlists hcoverage
  obtain ⟨member, -, rfl⟩ := (Coverage.members_listed_eq_error_iff hnames).mp hfailure
  exact ⟨member.name, member.source, rfl⟩

/-- A disk on which the member of the small layout is absent. -/
def bareDisk : Disk :=
  .flat [("s", [7])]

/-- Sealing it stops for the member, and a run without a key does not. -/
theorem absent_iff_bare :
    (withKey Ed25519.scheme ⟨"."⟩ small (.ok smallSeed)).Fails bareDisk
        (.absentMember MemberName.a ⟨"./a"⟩) bareDisk ∧
      ∀ name path after, ¬ (withKey Ed25519.scheme ⟨"."⟩ small (.error (.missing ⟨"k"⟩))).Fails
        bareDisk (.absentMember name path) after := by
  obtain ⟨coverages, lists, -, hmembers, -, hfails, -, -, hnever, -⟩ :=
    @absent_iff Ed25519.scheme ⟨"."⟩ small rfl
  refine ⟨(hfails _ _ _ _ _).mpr ⟨?_, rfl⟩, hnever _ bareDisk⟩
  cases hmembers with
  | @cons _ members _ rest hfirst hrest =>
      cases hrest
      obtain rfl : [Member.a] = members := Except.ok.inj hfirst.1
      rfl

/-! ## Broken rules -/

variable {fault : LayoutFault}

theorem not_isAccess_broken : ¬ (Failure.brokenRule fault).IsAccess := by
  rintro ⟨_, _, _, heq⟩
  cases heq

/-- Runs change well-formed disks into well-formed ones, even if they fail. -/
theorem wellFormed_of_fails {failure : Failure} (hw : before.WellFormed)
    (h : (withKey scheme root layout key).Fails before failure after) : after.WellFormed := by
  obtain ⟨_, -, rfl⟩ | ⟨hcheck, hwrites⟩ := disk_withKey h.2
  · exact hw
  · obtain ⟨coverages, hvalid⟩ := Layout.valid_of_check hcheck
    exact (confined_writeAll hvalid hw hwrites).wellFormed

/-- Listed members of a valid layout break no rule. -/
theorem mapM_members_ne_broken (hlists : Layout.Lists lists coverages) {disk : Disk} :
    coverages.mapM (fun coverage => coverage.members disk root) ≠ .error (.brokenRule fault) := by
  intro h
  obtain ⟨_, -, heq⟩ := (Coverage.mapM_members_eq_error_iff hlists).mp h
  cases heq

/-- **When a rule is broken.** A run is rejected either for its layout, and then it changes nothing;
or with a key, for the members of the tree, and then it has written the signatures of the
architectures and all sidecars, and nothing after that. In the second case the names of the files
clash, and some of them hold a backslash. -/
theorem rejected_iff (hw : before.WellFormed) :
    ((withKey scheme root layout key).Fails before (.brokenRule fault) after ↔
      (layout.check = .error fault ∧ after = before) ∨
        layout.check = .ok () ∧ ∃ seed targets, key = .ok seed ∧
          layout.architectureCoverages = .ok targets ∧
          ReachesTree scheme root layout seed targets before after ∧
          layout.treeCoverage.members after root = .error (.brokenRule fault)) ∧
    ((withKey scheme root layout key).Fails before (.brokenRule fault) after → after ≠ before →
      Coverage.Clash after root fault) := by
  have hiff : (withKey scheme root layout key).Fails before (.brokenRule fault) after ↔
      (layout.check = .error fault ∧ after = before) ∨
        layout.check = .ok () ∧ ∃ seed targets, key = .ok seed ∧
          layout.architectureCoverages = .ok targets ∧
          ReachesTree scheme root layout seed targets before after ∧
          layout.treeCoverage.members after root = .error (.brokenRule fault) := by
    rw [fails_withKey_iff not_isAccess_broken]
    refine or_congr ?_ (and_congr_right fun hcheck => ?_)
    · constructor
      · rintro ⟨_, hcheck, heq, hafter⟩
        cases heq
        exact ⟨hcheck, hafter⟩
      · rintro ⟨hcheck, hafter⟩
        exact ⟨fault, hcheck, rfl, hafter⟩
    · obtain ⟨coverages, hvalid⟩ := Layout.valid_of_check hcheck
      obtain ⟨lists, -, hlists⟩ := hvalid.lists
      refine exists_congr fun seed => exists_congr fun targets => and_congr_right fun _ =>
        and_congr_right fun htargets => or_iff_right ?_
      rw [hvalid.coverages_eq, Except.ok.injEq] at htargets
      rintro ⟨hmembers, -⟩
      exact mapM_members_ne_broken hlists (htargets ▸ hmembers)
  refine ⟨hiff, fun hfails hne => ?_⟩
  obtain ⟨-, hsame⟩ | ⟨-, _, _, -, -, -, htree⟩ := hiff.mp hfails
  · exact absurd hsame hne
  · exact Coverage.clash_of_members_tree (wellFormed_of_fails hw hfails) htree

section Small

/-- A package where two files have one member name. -/
def clashDisk (otherSum aSum s sSum : Bytes) : Disk :=
  .flat [("\\a", [2]), ("\\a.sha256", otherSum), ("a", [1]), ("a.sha256", aSum), ("s", s),
    ("s.sha256", sSum)]

/-- What is wrong with it. -/
def clashFault : LayoutFault :=
  .claimedTwice MemberName.a ⟨"./\\a"⟩ ⟨"./a"⟩

variable (otherSum aSum s sSum : Bytes)

theorem clashDisk_wellFormed : (clashDisk otherSum aSum s sSum).WellFormed :=
  Disk.flat_wellFormed ["\\a", "\\a.sha256", "a", "a.sha256", "s", "s.sha256"] rfl (by decide)
    (by decide)

theorem filesUnder_clashDisk : (clashDisk otherSum aSum s sSum).filesUnder ⟨"."⟩ =
    .ok (["\\a", "\\a.sha256", "a", "a.sha256", "s", "s.sha256"].map fun name =>
      Path.join ⟨"."⟩ ⟨name⟩) := by
  rw [clashDisk,
    Disk.filesUnder_flat ["\\a", "\\a.sha256", "a", "a.sha256", "s", "s.sha256"] rfl rfl,
    Path.sort_eq_self (by decide)]

theorem clash_members : small.treeCoverage.members (clashDisk otherSum aSum s sSum) ⟨"."⟩ =
    .error (.brokenRule clashFault) := by
  show (Sidecar.filesUnder _ _ >>= _) = _
  rw [Sidecar.filesUnder, filesUnder_clashDisk]
  rfl

/-- All its files get their sidecars. -/
theorem clash_sidecars : (Sidecar.writeAll ⟨"."⟩ ["t"]).Ends (clashDisk otherSum aSum s sSum) 3
    (clashDisk (Sidecar.digest [2]) (Sidecar.digest [1]) s (Sidecar.digest s)) := by
  have hfirst : ∀ content, (clashDisk otherSum aSum s sSum).write ⟨"./\\a.sha256"⟩ content =
      .ok (clashDisk content aSum s sSum) := fun _ => rfl
  have hsecond : ∀ otherSum content,
      (clashDisk otherSum aSum s sSum).write ⟨"./a.sha256"⟩ content =
        .ok (clashDisk otherSum content s sSum) := fun _ _ => rfl
  have hthird : ∀ otherSum aSum content,
      (clashDisk otherSum aSum s sSum).write ⟨"./s.sha256"⟩ content =
        .ok (clashDisk otherSum aSum s content) := fun _ _ _ => rfl
  have hwrites : ([⟨"./\\a"⟩, ⟨"./a"⟩, ⟨"./s"⟩].forM fun path => discard (Sidecar.write path)).Ends
      (clashDisk otherSum aSum s sSum) ()
      (clashDisk (Sidecar.digest [2]) (Sidecar.digest [1]) s (Sidecar.digest s)) :=
    Sidecar.ends_sidecars_cons rfl (hfirst (Sidecar.digest [2]))
      (Sidecar.ends_sidecars_cons rfl (hsecond _ (Sidecar.digest [1]))
        (Sidecar.ends_sidecars_cons rfl (hthird _ _ (Sidecar.digest s))
          (Action.ends_forM_nil.mpr rfl)))
  exact Sidecar.ends_writeAll.mpr ⟨[⟨"./\\a"⟩, ⟨"./a"⟩, ⟨"./s"⟩], Sidecar.subjects_eq_ok_iff.mpr
    ⟨_, filesUnder_clashDisk otherSum aSum s sSum, by decide⟩, rfl, hwrites⟩

theorem read_clashDisk : (clashDisk otherSum aSum s sSum).read ⟨"./a.sha256"⟩ = .ok aSum := rfl

/-- With a key it is rejected when it has a signature and all sidecars. -/
theorem clash_fails : ∃ mark,
    (withKey Ed25519.scheme ⟨"."⟩ small (.ok smallSeed)).Fails (clashDisk otherSum aSum s sSum)
      (.brokenRule clashFault)
      (clashDisk (Sidecar.digest [2]) (Sidecar.digest [1]) mark (Sidecar.digest mark)) := by
  have hholds : smallCoverage.Holds (clashDisk otherSum aSum s sSum) ⟨"."⟩ [(MemberName.a, [1])] :=
    ⟨.ofMembers [⟨MemberName.a, ⟨"./a"⟩⟩] (List.pairwise_singleton _ _), rfl, rfl⟩
  obtain ⟨mark, hmark⟩ := exists_inscription Ed25519.scheme (some smallSeed) hholds
  have hput : (clashDisk otherSum aSum s sSum).write (Path.join ⟨"."⟩ ⟨"s"⟩) mark =
      .ok (clashDisk otherSum aSum mark sSum) := rfl
  have hreached : ReachesTree Ed25519.scheme ⟨"."⟩ small smallSeed [smallCoverage]
      (clashDisk otherSum aSum s sSum)
      (clashDisk (Sidecar.digest [2]) (Sidecar.digest [1]) mark (Sidecar.digest mark)) :=
    ⟨_, _, _, (ends_putArchitectures Ed25519.scheme_streams).mpr ⟨rfl, .cons hmark hput .nil⟩,
      clash_sidecars otherSum aSum mark sSum⟩
  exact ⟨mark, (fails_withKey_iff not_isAccess_broken).mpr
    (.inr ⟨rfl, smallSeed, [smallCoverage], rfl, rfl, .inr ⟨hreached, clash_members _ _ _ _⟩⟩)⟩

/-- What is wrong with the package is wrong with its names. -/
theorem rejected_iff_clash : ∃ after,
    (withKey Ed25519.scheme ⟨"."⟩ small (.ok smallSeed)).Fails (clashDisk [] [] [] [])
      (.brokenRule clashFault) after ∧ Coverage.Clash after ⟨"."⟩ clashFault := by
  obtain ⟨mark, hfails⟩ := clash_fails [] [] [] []
  refine ⟨_, hfails, (rejected_iff (clashDisk_wellFormed [] [] [] [])).2 hfails fun hsame => ?_⟩
  have hread := read_clashDisk (Sidecar.digest [2]) (Sidecar.digest [1]) mark (Sidecar.digest mark)
  rw [hsame, read_clashDisk, Except.ok.injEq] at hread
  exact Sidecar.digest_ne_nil [1] hread.symm

/-- **A run can be rejected after it has written**: the layout keeps its rules, and the sidecars of
the package are not what they were. -/
theorem rejected_late : small.check = .ok () ∧ ∃ after,
    (withKey Ed25519.scheme ⟨"."⟩ small (.ok smallSeed)).Fails (clashDisk [] [] [] [])
      (.brokenRule clashFault) after ∧
    (clashDisk [] [] [] []).read ⟨"./a.sha256"⟩ = .ok [] ∧
    after.read ⟨"./a.sha256"⟩ = .ok (Sidecar.digest [1]) ∧ Sidecar.digest [1] ≠ [] := by
  obtain ⟨mark, hfails⟩ := clash_fails [] [] [] []
  exact ⟨rfl, _, hfails, read_clashDisk _ _ _ _, read_clashDisk _ _ _ _, Sidecar.digest_ne_nil [1]⟩

end Small

end Sealing

end PackageSeal
