import PackageSeal.Proofs.Schemes
import PackageSeal.Proofs.Sealing.Refusals
import PackageSeal.Proofs.Sealing.Sealed

/-!
# Signing what is never held

A roster is signed through a callback: the scheme asks for the message once in each pass, and the
callback frames the members, straight from the disk, into the pass under way. An error of the
callback is a text only; the failure itself is set aside in a place of its own and looked up at the
end (`signMembers`).

* `signMembers_eq`: nothing is lost on this detour. Signing ends as `signRoster` does.
* `Ed25519.scheme_sign`: both passes over one message make its plain signature.

Together: the seal is that of the frames put end to end, or the failure is that of the first member
that cannot be read, and the text of the callback's error is never needed (`signMembers_plain`).
-/

namespace PackageSeal

/-! ## The first member that cannot be read -/

/-- A content that is not there stands for a failed access to the source. -/
theorem Member.access_of_content_error {disk : Disk} {member : Member} {failure : Failure}
    (h : member.content disk = .error failure) :
    ∃ operation cause, failure = .access operation member.source cause := by
  unfold content at h
  cases hfind : disk.find member.source with
  | error cause =>
      rw [hfind] at h
      exact ⟨_, cause, (Except.error.inj h).symm⟩
  | ok found =>
      obtain ⟨loc, node⟩ := found
      rw [hfind] at h
      cases hcontent : Disk.contentOf node with
      | error cause =>
          simp only [hcontent] at h
          exact ⟨_, cause, (Except.error.inj h).symm⟩
      | ok content =>
          simp only [hcontent] at h
          cases h

/-- A roster holds nothing exactly where some member cannot be read; the failure is that of the
first one. -/
theorem Roster.holdings_eq_error_iff {disk : Disk} {roster : Roster} {failure : Failure} :
    roster.holdings disk = .error failure ↔
      ∃ front member rest, roster.members = front ++ member :: rest ∧
        (∀ earlier ∈ front, ∃ content, disk.read earlier.source = .ok content) ∧
        member.content disk = .error failure := by
  rw [holdings, mapM_eq_error_iff]
  have hread (earlier : Member) :
      (∃ entry, (earlier.content disk >>= fun content => pure (earlier.name, content)) =
          .ok entry) ↔ ∃ content, disk.read earlier.source = .ok content := by
    simp only [bind_eq_ok_iff, pure_eq_ok_iff, Member.content_eq_ok_iff]
    constructor
    · rintro ⟨_, content, hcontent, -⟩
      exact ⟨content, hcontent⟩
    · rintro ⟨content, hcontent⟩
      exact ⟨_, content, hcontent, rfl⟩
  have hfail (member : Member) :
      (member.content disk >>= fun content => pure (member.name, content)) = .error failure ↔
        member.content disk = .error failure := by
    rw [bind_eq_error_iff]
    simp [pure, Except.pure]
  simp only [hread, hfail]

/-- A roster whose members can all be read holds their contents. -/
theorem Roster.exists_holdings {disk : Disk} {roster : Roster}
    (hall : ∀ member ∈ roster.members, ∃ content, disk.read member.source = .ok content) :
    ∃ held, roster.holdings disk = .ok held := by
  have hpairs : ∀ member ∈ roster.members, ∃ entry : MemberName × Bytes,
      member.name = entry.1 ∧ disk.read member.source = .ok entry.2 := by
    intro member hmember
    obtain ⟨content, hcontent⟩ := hall member hmember
    exact ⟨(member.name, content), rfl, hcontent⟩
  obtain ⟨held, hheld⟩ := exists_forall₂ hpairs
  exact ⟨held, holdings_eq_ok_iff.mpr hheld⟩

/-- Where a member cannot be read, the first such member is what is told. -/
theorem Roster.exists_first_unreadable {disk : Disk} {roster : Roster}
    (h : ∃ member ∈ roster.members, ∀ content, disk.read member.source ≠ .ok content) :
    ∃ front member rest operation cause, roster.members = front ++ member :: rest ∧
      (∀ earlier ∈ front, ∃ content, disk.read earlier.source = .ok content) ∧
      (∀ content, disk.read member.source ≠ .ok content) ∧
      roster.holdings disk = .error (.access operation member.source cause) := by
  obtain ⟨unreadable, hmember, hunreadable⟩ := h
  cases hholds : roster.holdings disk with
  | ok held =>
      obtain ⟨entry, -, -, hread⟩ :=
        exists_right_of_forall₂ (holdings_eq_ok_iff.mp hholds) hmember
      exact absurd hread (hunreadable entry.2)
  | error failure =>
      obtain ⟨front, member, rest, hsplit, hfront, hcontent⟩ := holdings_eq_error_iff.mp hholds
      obtain ⟨operation, cause, rfl⟩ := Member.access_of_content_error hcontent
      refine ⟨front, member, rest, operation, cause, hsplit, hfront, fun content hread => ?_, rfl⟩
      rw [Member.content_eq_ok_iff.mpr hread] at hcontent
      cases hcontent

namespace Sealing

/-! ## Callbacks -/

/-- A run that can set a failure aside, and that fails with a text. -/
abbrev Aside (α : Type) : Type :=
  ExceptT String (StateM (Option Failure)) α

/-- The signature of the message that a callback feeds into a pass, twice. -/
def signByUpdate (scheme : SignatureScheme) (seed : Seed)
    (update : scheme.State → Aside scheme.State) : Aside Signature := do
  let nonce ← update (scheme.nonceStart seed)
  let challenge ← update (scheme.challengeStart seed nonce)
  pure (scheme.finish seed nonce challenge)

/-- The callback that frames the members of a roster. A failure is set aside, and all that is told
is a text. -/
def updateMembers (scheme : SignatureScheme) (disk : Disk) (text : String) (roster : Roster)
    (state : scheme.State) : Aside scheme.State :=
  match (Frame.sendRoster disk (Sink.ofAbsorb scheme.absorb) roster state).outcome with
  | .ok next => pure next
  | .error failure => do
    set (some failure)
    throw text

/-- The seal of a roster: where signing fails, what was set aside says why, and the text of the
error only where nothing was. -/
def signMembers (scheme : SignatureScheme) (disk : Disk) (text : String) (seed : Seed)
    (artifact : String) (roster : Roster) : Except Failure Seal :=
  match (signByUpdate scheme seed (updateMembers scheme disk text roster)).run.run none with
  | (.ok signature, _) => .ok ⟨signature, scheme.publicKey seed⟩
  | (.error _, some failure) => .error failure
  | (.error reason, none) => .error (.refusedStream artifact reason)

theorem Aside.run_bind {α β : Type} (run : Aside α) (next : α → Aside β) (aside : Option Failure) :
    (run >>= next).run.run aside =
      match run.run.run aside with
      | (.ok a, aside) => (next a).run.run aside
      | (.error text, aside) => (.error text, aside) := by
  rw [ExceptT.run_bind, StateT.run_bind]
  show StateT.run _ (run.run.run aside).2 = _
  cases run.run.run aside with
  | mk result aside =>
      cases result with
      | ok a => rfl
      | error text => rfl

variable {scheme : SignatureScheme}

/-- The callback comes to the pass that sending comes to, and then sets nothing aside; or it sets
the failure aside. -/
theorem run_updateMembers (disk : Disk) (text : String) (roster : Roster) (state : scheme.State)
    (aside : Option Failure) :
    (updateMembers scheme disk text roster state).run.run aside =
      match (Frame.sendRoster disk (Sink.ofAbsorb scheme.absorb) roster state).outcome with
      | .ok next => (.ok next, aside)
      | .error failure => (.error text, some failure) := by
  unfold updateMembers
  cases (Frame.sendRoster disk (Sink.ofAbsorb scheme.absorb) roster state).outcome with
  | ok next => rfl
  | error failure => rfl

/-- **Signing through a callback ends as signing in two passes does.** -/
theorem signMembers_eq (disk : Disk) (text : String) (seed : Seed) (artifact : String)
    (roster : Roster) :
    signMembers scheme disk text seed artifact roster =
      (signRoster scheme disk seed roster).outcome := by
  unfold signMembers signByUpdate signRoster
  simp only [Aside.run_bind, run_updateMembers, Logged.outcome_bind]
  cases (Frame.sendRoster disk (Sink.ofAbsorb scheme.absorb) roster
    (scheme.nonceStart seed)).outcome with
  | error failure => rfl
  | ok nonce =>
      simp only [ok_bind]
      cases (Frame.sendRoster disk (Sink.ofAbsorb scheme.absorb) roster
        (scheme.challengeStart seed nonce)).outcome with
      | error failure => rfl
      | ok challenge => rfl

/-! ## Plain signatures -/

/-- **A streamed signature is a plain one.** Where all members can be read, the seal holds the
public key of the seed and the plain signature of the frames of the members put end to end, in the
order of their names. Otherwise signing fails as framing does: with the access failure of the first
member that cannot be read. It never fails with the text of the callback's error. -/
theorem signMembers_plain (disk : Disk) (text : String) (seed : Seed) (artifact : String)
    (roster : Roster) :
    signMembers Ed25519.scheme disk text seed artifact roster =
        (signRoster Ed25519.scheme disk seed roster).outcome ∧
    ((∀ member ∈ roster.members, ∃ content, disk.read member.source = .ok content) →
      ∃ held : List (MemberName × Bytes),
        List.Forall₂ (fun member entry => member.name = entry.1 ∧
          disk.read member.source = .ok entry.2) roster.members held ∧
        (held.Pairwise fun a b => a.1.octets < b.1.octets) ∧
        signMembers Ed25519.scheme disk text seed artifact roster =
          .ok ⟨Ed25519.sign seed (held.flatMap fun entry => Frame.octets entry.1 entry.2),
            Ed25519.publicKey seed⟩) ∧
    ((∃ member ∈ roster.members, ∀ content, disk.read member.source ≠ .ok content) →
      ∃ front member rest operation cause, roster.members = front ++ member :: rest ∧
        (∀ earlier ∈ front, ∃ content, disk.read earlier.source = .ok content) ∧
        (∀ content, disk.read member.source ≠ .ok content) ∧
        signMembers Ed25519.scheme disk text seed artifact roster =
          .error (.access operation member.source cause) ∧
        (Frame.stream disk roster).outcome = .error (.access operation member.source cause)) ∧
    ∀ artifact' reason,
      signMembers Ed25519.scheme disk text seed artifact roster ≠
        .error (.refusedStream artifact' reason) := by
  have hsigned := (signMembers_eq disk text seed artifact roster).trans
    (outcome_signRoster Ed25519.scheme_streams disk roster)
  refine ⟨signMembers_eq disk text seed artifact roster, ?_, ?_, ?_⟩
  · intro hall
    obtain ⟨held, hholds⟩ := Roster.exists_holdings hall
    refine ⟨held, Roster.holdings_eq_ok_iff.mp hholds, Roster.holdings_ascending hholds, ?_⟩
    rw [hsigned, hholds, ← Frame.canonical, ← Ed25519.scheme_sign]
    rfl
  · intro hsome
    obtain ⟨front, member, rest, operation, cause, hsplit, hfront, hnone, hholds⟩ :=
      Roster.exists_first_unreadable hsome
    refine ⟨front, member, rest, operation, cause, hsplit, hfront, hnone, ?_, ?_⟩
    · rw [hsigned, hholds]
      rfl
    · rw [Frame.outcome_stream, hholds]
      rfl
  · intro artifact' reason hrefused
    rw [signMembers_eq] at hrefused
    obtain ⟨operation, path, cause, haccess⟩ := isAccess_of_signRoster hrefused
    cases haccess

/-- Two files are signed as their two frames; without the second file, that is what is told. -/
theorem signMembers_plain_both :
    signMembers Ed25519.scheme (twoFiles [1] [0, 98]) "" smallSeed "s" Roster.both =
      .ok ⟨Ed25519.sign smallSeed
          [97, 0, 1, 0, 0, 0, 0, 0, 0, 0, 1, 97, 98, 0, 2, 0, 0, 0, 0, 0, 0, 0, 0, 98],
        Ed25519.publicKey smallSeed⟩ ∧
    ∃ operation cause,
      signMembers Ed25519.scheme ⟨.dir [(.utf8 "a", .file [1])], []⟩ "" smallSeed "s" Roster.both =
        .error (.access operation ⟨"b"⟩ cause) := by
  obtain ⟨-, hplain, -, -⟩ :=
    signMembers_plain (twoFiles [1] [0, 98]) "" smallSeed "s" Roster.both
  obtain ⟨-, -, hunreadable, -⟩ :=
    signMembers_plain ⟨.dir [(.utf8 "a", .file [1])], []⟩ "" smallSeed "s" Roster.both
  constructor
  · obtain ⟨held, hheld, -, hsigned⟩ := hplain (by
      intro member hmember
      rw [Roster.members_both, List.mem_pair] at hmember
      rcases hmember with rfl | rfl
      · exact ⟨[1], rfl⟩
      · exact ⟨[0, 98], rfl⟩)
    have hholds := Roster.holdings_eq_ok_iff.mpr hheld
    cases hholds
    exact hsigned
  · obtain ⟨front, member, rest, operation, cause, hsplit, hfront, hmember, herror, -⟩ :=
      hunreadable ⟨_, List.mem_cons_of_mem _ List.mem_cons_self,
        fun content hread => by cases hread⟩
    refine ⟨operation, cause, ?_⟩
    -- The first member can be read, so the second one is the one that cannot.
    cases front with
    | nil =>
        cases hsplit
        exact absurd rfl (hmember [1])
    | cons first front =>
        cases front with
        | nil =>
            cases hsplit
            exact herror
        | cons second front => simp [Roster.members_both] at hsplit

end Sealing

end PackageSeal
