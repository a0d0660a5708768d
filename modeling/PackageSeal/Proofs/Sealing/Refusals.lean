import PackageSeal.Proofs.Coverage.Refusals
import PackageSeal.Proofs.Sealing.Steps

/-!
# How sealing fails

Every write and every look at a file can fail for want of access, at any point of a run. Any other
failure comes from one of three places (`fails_withKey_iff`): the layout breaks a rule, or a listed
member is absent, and then nothing has been written; or the tree has names that clash, and this is
found last, because the signature over the tree covers the sidecars too.
-/

namespace PackageSeal

/-! ## Failed accesses -/

theorem Failure.IsAccess.mapError {α : Type} {result : Except IoError α} {operation : Operation}
    {path : Path} {failure : Failure}
    (h : result.mapError (Failure.access operation path) = .error failure) : failure.IsAccess := by
  obtain ⟨cause, -, rfl⟩ := mapError_eq_error_iff.mp h
  exact ⟨_, _, _, rfl⟩

/-- A fold fails as its steps do. -/
theorem foldlM_eq_error {α σ ε : Type} {P : ε → Prop} {f : σ → α → Except ε σ}
    (h : ∀ state x e, f state x = .error e → P e) {xs : List α} {start : σ} {e : ε}
    (hfold : xs.foldlM f start = .error e) : P e := by
  induction xs generalizing start with
  | nil => cases hfold
  | cons x xs ih =>
      rw [List.foldlM_cons, bind_eq_error_iff] at hfold
      obtain hx | ⟨next, -, hrest⟩ := hfold
      · exact h start x e hx
      · exact ih hrest

namespace Frame

variable {σ : Type} {disk : Disk} {sink : Sink σ} {failure : Failure}

theorem isAccess_of_sendMember {state : σ} {member : Member}
    (h : (sendMember disk sink state member).outcome = .error failure) : failure.IsAccess := by
  unfold sendMember at h
  cases hfind : disk.find member.source with
  | error cause =>
      simp only [hfind, Logged.outcome_fail, Except.error.injEq] at h
      exact ⟨_, _, _, h.symm⟩
  | ok found =>
      obtain ⟨loc, node⟩ := found
      simp only [hfind, Logged.outcome_bind, Logged.outcome_tell, ok_bind] at h
      split at h
      · cases h
      · simp only [Logged.outcome_fail, Except.error.injEq] at h
        exact ⟨_, _, _, h.symm⟩

theorem isAccess_of_sendRoster {roster : Roster} {state : σ}
    (h : (sendRoster disk sink roster state).outcome = .error failure) : failure.IsAccess := by
  rw [sendRoster, Logged.outcome_foldlM] at h
  exact foldlM_eq_error (fun _ _ _ => isAccess_of_sendMember) h

end Frame

namespace Sidecar

variable {disk : Disk} {failure : Failure}

theorem isAccess_of_checksumOf {path : Path} (h : checksumOf disk path = .error failure) :
    failure.IsAccess := by
  unfold checksumOf at h
  split at h
  · cases h
    exact ⟨_, _, _, rfl⟩
  · split at h
    · cases h
      exact ⟨_, _, _, rfl⟩
    · cases h

theorem isAccess_of_subjects {root : Path} {excluded : List String}
    (h : subjects disk root excluded = .error failure) : failure.IsAccess := by
  unfold subjects at h
  cases hfiles : filesUnder disk root with
  | error other =>
      rw [hfiles] at h
      cases h
      exact Coverage.isAccess_of_filesUnder hfiles
  | ok files =>
      rw [hfiles] at h
      cases h

open PackageSeal.Action in
theorem failsBy_write (path : Path) : FailsBy Failure.IsAccess (write path) := by
  refine FailsBy.bind (.look fun disk failure h => ?_) fun checksum =>
    FailsBy.bind (.change fun disk failure h => .mapError h) fun _ =>
      FailsBy.bind (.tell _) fun _ => .pure _
  rw [Logged.outcome_ofExcept] at h
  exact isAccess_of_checksumOf h

open PackageSeal.Action in
/-- **Sidecars fail for want of access only.** -/
theorem failsBy_writeAll (root : Path) (excluded : List String) :
    FailsBy Failure.IsAccess (writeAll root excluded) := by
  refine FailsBy.bind (.look fun disk failure h => ?_) fun files =>
    FailsBy.bind (.forM (fun path => .discard (failsBy_write path)) files) fun _ => .pure _
  rw [Logged.outcome_ofExcept] at h
  exact isAccess_of_subjects h

end Sidecar

namespace Sealing

open PackageSeal.Action

variable {scheme : SignatureScheme} {seed : Seed} {root : Path} {layout : Layout}
  {before after : Disk} {failure : Failure}

theorem isAccess_of_signRoster {disk : Disk} {roster : Roster}
    (h : (signRoster scheme disk seed roster).outcome = .error failure) : failure.IsAccess := by
  simp only [signRoster, Logged.outcome_bind, Logged.outcome_pure] at h
  obtain hnonce | ⟨nonce, -, h⟩ := bind_eq_error_iff.mp h
  · exact Frame.isAccess_of_sendRoster hnonce
  · obtain hchallenge | ⟨challenge, -, hpure⟩ := bind_eq_error_iff.mp h
    · exact Frame.isAccess_of_sendRoster hchallenge
    · cases hpure

theorem failsBy_writeArtifact (path : Path) (artifact : Artifact) :
    FailsBy Failure.IsAccess (writeArtifact path artifact) :=
  .change fun _ _ => .mapError

/-- **Once its members are found, a signature fails for want of access only**, -/
theorem failsBy_putSigned (coverage : Coverage) (roster : Roster) :
    FailsBy Failure.IsAccess (putSigned scheme root seed coverage roster) :=
  FailsBy.bind (.look fun _ _ => isAccess_of_signRoster) fun _ =>
    FailsBy.bind (failsBy_writeArtifact _ _) fun _ => FailsBy.bind (.tell _) fun _ => .pure _

/-- and so does a placeholder. -/
theorem failsBy_putPlaceholder (coverage : Coverage) :
    FailsBy Failure.IsAccess (putPlaceholder root coverage) :=
  FailsBy.bind (failsBy_writeArtifact _ _) fun _ => FailsBy.bind (.tell _) fun _ => .pure _

/-! ## Other failures -/

theorem fails_membersNow {coverage : Coverage} :
    (membersNow root coverage).Fails before failure after ↔
      coverage.members before root = .error failure ∧ before = after := by
  rw [membersNow, fails_look, Logged.outcome_ofExcept]

/-- Finding all members first fails as the first coverage does whose members are not found. -/
theorem fails_rosters {targets : List Coverage} :
    (targets.mapM fun coverage => do
      let roster ← membersNow root coverage
      pure (coverage, roster)).Fails before failure after ↔
      targets.mapM (fun coverage => coverage.members before root) = .error failure ∧
        before = after := by
  induction targets with
  | nil =>
      rw [List.mapM_nil, List.mapM_nil]
      refine iff_of_false not_fails_pure ?_
      rintro ⟨hpure, -⟩
      cases hpure
  | cons coverage rest ih =>
      simp only [fails_bind, fails_membersNow, ends_bind, ends_membersNow,
        ends_pure, not_fails_pure, and_false, exists_false, or_false, List.mapM_cons,
        bind_eq_error_iff]
      constructor
      · rintro (⟨hfirst, rfl⟩ | ⟨_, _, ⟨roster, _, ⟨hroster, rfl⟩, -, rfl⟩, hrest⟩)
        · exact ⟨.inl hfirst, rfl⟩
        · obtain ⟨hfails, rfl⟩ := ih.mp hrest
          exact ⟨.inr ⟨roster, hroster, .inl hfails⟩, rfl⟩
      · rintro ⟨hfirst | ⟨roster, hroster, hrest | ⟨_, -, hpure⟩⟩, rfl⟩
        · exact .inl ⟨hfirst, rfl⟩
        · exact .inr ⟨_, before, ⟨roster, before, ⟨hroster, rfl⟩, rfl, rfl⟩, ih.mpr ⟨hrest, rfl⟩⟩
        · cases hpure

/-- What stops the signatures of the architectures, besides failed accesses. -/
theorem fails_putArchitectures_iff {seed? : Option Seed} {targets : List Coverage}
    (hother : ¬ failure.IsAccess) :
    (putArchitectures scheme root seed? targets).Fails before failure after ↔ seed?.isSome = true ∧
      targets.mapM (fun coverage => coverage.members before root) = .error failure ∧
        before = after := by
  cases seed? with
  | none =>
      have hnever : ¬ (targets.mapM (putPlaceholder root)).Fails before failure after :=
        fun h => hother (FailsBy.mapM failsBy_putPlaceholder targets before failure after h)
      simpa [putArchitectures] using hnever
  | some seed =>
      rw [putArchitectures, fails_bind, fails_rosters]
      refine (or_iff_left ?_).trans (by simp)
      rintro ⟨found, middle, -, hfails⟩
      exact hother (FailsBy.mapM (fun entry => failsBy_putSigned entry.1 entry.2) found middle
        failure after hfails)

/-- What stops the signature over the tree, besides failed accesses. -/
theorem fails_putTree_iff {seed? : Option Seed} {coverage : Coverage}
    (hother : ¬ failure.IsAccess) :
    (putTree scheme root seed? coverage).Fails before failure after ↔ seed?.isSome = true ∧
      coverage.members before root = .error failure ∧ before = after := by
  cases seed? with
  | none =>
      have hnever : ¬ (putPlaceholder root coverage).Fails before failure after :=
        fun h => hother (failsBy_putPlaceholder coverage before failure after h)
      simpa [putTree] using hnever
  | some seed =>
      rw [putTree, fails_bind, fails_membersNow]
      refine (or_iff_left ?_).trans (by simp)
      rintro ⟨roster, middle, -, hfails⟩
      exact hother (failsBy_putSigned coverage roster middle failure after hfails)

/-- The run has written the signatures of the architectures and all sidecars, and what is left is
the signature over the tree. -/
def ReachesTree (scheme : SignatureScheme) (root : Path) (layout : Layout) (seed : Seed)
    (targets : List Coverage) (before after : Disk) : Prop :=
  ∃ paths signed count,
    (putArchitectures scheme root (some seed) targets).Ends before paths signed ∧
    (Sidecar.writeAll root [layout.treeArtifact]).Ends signed count after

theorem fails_writeAll_iff {seed? : Option Seed} {targets : List Coverage}
    (htargets : layout.architectureCoverages = .ok targets) (hother : ¬ failure.IsAccess) :
    (writeAll scheme root layout seed?).Fails before failure after ↔ ∃ seed, seed? = some seed ∧
      ((targets.mapM (fun coverage => coverage.members before root) = .error failure ∧
          before = after) ∨
        ReachesTree scheme root layout seed targets before after ∧
          layout.treeCoverage.members after root = .error failure) := by
  have hsidecars : ∀ {first last}, ¬ (Sidecar.writeAll root [layout.treeArtifact]).Fails first
      failure last := fun h => hother (Sidecar.failsBy_writeAll _ _ _ _ _ h)
  have hsidecar : ∀ {path first last}, ¬ (Sidecar.write path).Fails first failure last :=
    fun h => hother (Sidecar.failsBy_write _ _ _ _ h)
  simp only [writeAll, htargets, fails_bind, fails_ofExcept, ends_ofExcept, mapError_eq_ok_iff,
    mapError_eq_error_iff, fails_putArchitectures_iff hother, fails_putTree_iff hother, hsidecars,
    hsidecar, not_fails_pure, and_false, exists_false, or_false, false_or, reduceCtorEq, false_and]
  cases seed? with
  | none => simp
  | some seed =>
      constructor
      · rintro ⟨_, _, ⟨heq, rfl⟩, ⟨-, hmembers⟩ |
          ⟨paths, signed, hsigned, count, listed, hlisted, -, htree, rfl⟩⟩
        · cases heq
          exact ⟨seed, rfl, .inl hmembers⟩
        · cases heq
          exact ⟨seed, rfl, .inr ⟨⟨paths, signed, count, hsigned, hlisted⟩, htree⟩⟩
      · rintro ⟨_, heq, hmembers | ⟨⟨paths, signed, count, hsigned, hlisted⟩, htree⟩⟩
        · exact ⟨targets, before, ⟨rfl, rfl⟩, .inl ⟨rfl, hmembers⟩⟩
        · cases heq
          exact ⟨targets, before, ⟨rfl, rfl⟩,
            .inr ⟨paths, signed, hsigned, count, after, hlisted, rfl, htree, rfl⟩⟩

theorem fails_withKey_check {key : Except KeyProblem Seed} :
    (withKey scheme root layout key).Fails before failure after ↔
      (∃ fault, layout.check = .error fault ∧ failure = .brokenRule fault ∧ after = before) ∨
        layout.check = .ok () ∧
          (writeAll scheme root layout key.toOption).Fails before failure after := by
  unfold withKey
  rw [fails_bind, fails_ofExcept, mapError_eq_error_iff]
  refine or_congr ?_ ?_
  · constructor
    · rintro ⟨⟨fault, hcheck, rfl⟩, rfl⟩
      exact ⟨fault, hcheck, rfl, rfl⟩
    · rintro ⟨fault, hcheck, rfl, rfl⟩
      exact ⟨⟨fault, hcheck, rfl⟩, rfl⟩
  · simp only [ends_ofExcept, mapError_eq_ok_iff]
    cases key with
    | ok seed =>
        simp only [fails_bind, not_fails_pure, and_false, exists_false, or_false]
        constructor
        · rintro ⟨⟨⟩, _, ⟨hcheck, rfl⟩, hfails⟩
          exact ⟨hcheck, hfails⟩
        · rintro ⟨hcheck, hfails⟩
          exact ⟨(), before, ⟨hcheck, rfl⟩, hfails⟩
    | error problem =>
        simp only [fails_bind, ends_tell, not_fails_tell, not_fails_pure, and_false, exists_false,
          or_false, false_or]
        constructor
        · rintro ⟨⟨⟩, _, ⟨hcheck, rfl⟩, ⟨⟩, _, rfl, hfails⟩
          exact ⟨hcheck, hfails⟩
        · rintro ⟨hcheck, hfails⟩
          exact ⟨(), before, ⟨hcheck, rfl⟩, (), before, rfl, hfails⟩

/-- **What stops a run, besides failed accesses**: a broken rule of the layout or an absent member,
at the start, or a tree whose files cannot be members, at the end. -/
theorem fails_withKey_iff {key : Except KeyProblem Seed} (hother : ¬ failure.IsAccess) :
    (withKey scheme root layout key).Fails before failure after ↔
      (∃ fault, layout.check = .error fault ∧ failure = .brokenRule fault ∧ after = before) ∨
        layout.check = .ok () ∧ ∃ seed targets, key = .ok seed ∧
          layout.architectureCoverages = .ok targets ∧
          ((targets.mapM (fun coverage => coverage.members before root) = .error failure ∧
              after = before) ∨
            ReachesTree scheme root layout seed targets before after ∧
              layout.treeCoverage.members after root = .error failure) := by
  rw [fails_withKey_check]
  refine or_congr_right (and_congr_right fun hcheck => ?_)
  obtain ⟨targets, hvalid⟩ := Layout.valid_of_check hcheck
  have hkey : ∀ seed, key.toOption = some seed ↔ key = .ok seed := by
    intro seed
    cases key with
    | error problem => simp [Except.toOption]
    | ok other => simp [Except.toOption]
  simp only [fails_writeAll_iff hvalid.coverages_eq hother, hkey, hvalid.coverages_eq,
    Except.ok.injEq, eq_comm (a := before)]
  constructor
  · rintro ⟨seed, hseed, hcause⟩
    exact ⟨seed, targets, hseed, rfl, hcause⟩
  · rintro ⟨seed, _, hseed, rfl, hcause⟩
    exact ⟨seed, hseed, hcause⟩

end Sealing

end PackageSeal
