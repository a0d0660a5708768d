import PackageSeal.Proofs.Frame.Decodable
import PackageSeal.Proofs.Runs

/-!
# What a stream holds

`Roster.holdings` are the named contents of a roster on a disk, or the failure of the first member
whose content cannot be read. Sending a roster to any sink that takes everything leaves the sink
with the canonical stream of the holdings (`outcome_sendRoster`), whatever pieces it was sent in.
-/

namespace PackageSeal

/-! ## Named contents -/

namespace Member

/-- The content of a member, or the failure with which framing it stops. -/
def content (disk : Disk) (member : Member) : Except Failure Bytes :=
  match disk.find member.source with
  | .error cause => .error (.access .opening member.source cause)
  | .ok (_, node) =>
    match Disk.contentOf node with
    | .error cause => .error (.access .framing member.source cause)
    | .ok content => .ok content

/-- A member has the content that its source holds. -/
theorem content_eq_ok_iff {disk : Disk} {member : Member} {c : Bytes} :
    member.content disk = .ok c ↔ disk.read member.source = .ok c := by
  unfold content Disk.read
  cases disk.find member.source with
  | error cause => simp
  | ok found =>
      obtain ⟨loc, node⟩ := found
      cases hc : Disk.contentOf node with
      | error cause => simp [hc]
      | ok content => simp [hc]

end Member

namespace Roster

/-- The names of the members with their contents, in order; or the failure of the first member that
cannot be read. -/
def holdings (disk : Disk) (roster : Roster) : Except Failure (List (MemberName × Bytes)) :=
  roster.members.mapM fun member => do
    let content ← member.content disk
    pure (member.name, content)

/-- The holdings pair the name of each member with what its source holds. -/
theorem holdings_eq_ok_iff {disk : Disk} {roster : Roster} {held : List (MemberName × Bytes)} :
    roster.holdings disk = .ok held ↔
      List.Forall₂ (fun member entry => member.name = entry.1 ∧
        disk.read member.source = .ok entry.2) roster.members held := by
  rw [holdings, mapM_eq_ok_iff]
  have hstep : ∀ (member : Member) (entry : MemberName × Bytes),
      (member.content disk >>= fun content => pure (member.name, content)) = .ok entry ↔
        member.name = entry.1 ∧ disk.read member.source = .ok entry.2 := by
    intro member entry
    simp only [bind_eq_ok_iff, pure_eq_ok_iff, Member.content_eq_ok_iff]
    constructor
    · rintro ⟨content, hread, rfl⟩
      exact ⟨rfl, hread⟩
    · rintro ⟨hname, hread⟩
      exact ⟨entry.2, hread, by rw [hname]⟩
  simp only [hstep]

end Roster

/-! ## Sinks that take everything -/

namespace Sink

/-- The sink takes everything, and `took` is its state after the octets so far. -/
def Follows {σ : Type} (sink : Sink σ) (took : Bytes → σ) : Prop :=
  ∀ sofar parts, sink.feed (took sofar) parts = (took (sofar ++ parts.flatten), true)

end Sink

namespace Buffer

/-- A buffer without a bound keeps all octets. -/
theorem follows_sink : sink.Follows fun octets => ⟨octets, none⟩ := by
  intro sofar parts
  induction parts generalizing sofar with
  | nil => simp [Sink.feed]
  | cons piece rest ih =>
      rw [Sink.feed]
      show sink.feed ⟨sofar ++ piece, none⟩ rest = _
      rw [ih, List.flatten_cons, List.append_assoc]

end Buffer

namespace SignatureScheme

/-- A pass that does not see how the message is cut follows the message. -/
theorem Streams.follows_absorb {S : SignatureScheme} (hS : S.Streams) (start : S.State) :
    (Sink.ofAbsorb S.absorb).Follows (S.absorb start) := by
  intro sofar parts
  rw [Sink.feed_ofAbsorb]
  induction parts generalizing sofar with
  | nil => simp
  | cons piece rest ih =>
      rw [List.foldl_cons, hS.absorb_absorb, ih, List.flatten_cons, List.append_assoc]

end SignatureScheme

namespace Frame

variable {σ : Type} {sink : Sink σ} {took : Bytes → σ}

/-- A file of which all octets are there is sent as one frame. -/
theorem send_file (hs : sink.Follows took) (name : MemberName) (content sofar : Bytes) :
    send sink name (Disk.sizeOf (.file content)) (.ofNode (.file content)) (took sofar) =
      (took (sofar ++ octets name content), .ok ()) := by
  have hsent : (headerParts name content.length ++ contentParts content.length [content]).flatten =
      octets name content := by
    rw [List.flatten_append, flatten_headerParts, flatten_contentParts, octets]
    simp
  have hall : (Reading.mk [content] none).octets.length = content.length := by
    simp [Reading.octets]
  show send sink name content.length ⟨[content], none⟩ (took sofar) = _
  unfold send
  rw [hs, hsent]
  simp only [hall, Nat.min_self, if_true]

/-- What is no file cannot be framed. -/
theorem send_of_contentOf_error (hs : sink.Follows took) (name : MemberName) {node : Node}
    {cause : IoError} (h : Disk.contentOf node = .error cause) (sofar : Bytes) :
    (send sink name (Disk.sizeOf node) (.ofNode node) (took sofar)).2 = .error cause := by
  have hreading : Reading.ofNode node = ⟨[], some cause⟩ := by rw [Reading.ofNode, h]
  have hsize : Disk.sizeOf node = Disk.directorySize := by
    cases node with
    | file content => cases h
    | link target => rfl
    | dir entries => rfl
  rw [hreading, hsize]
  unfold send
  rw [hs]
  rfl

/-- Sending a member ends as reading its content does, and leaves its frame. -/
theorem outcome_sendMember (hs : sink.Follows took) (disk : Disk) (member : Member)
    (sofar : Bytes) :
    (sendMember disk sink (took sofar) member).outcome =
      (member.content disk).map fun content => took (sofar ++ octets member.name content) := by
  unfold sendMember Member.content
  cases disk.find member.source with
  | error cause => rfl
  | ok found =>
      obtain ⟨loc, node⟩ := found
      simp only [Logged.outcome_bind, Logged.outcome_tell]
      cases hc : Disk.contentOf node with
      | error cause =>
          have hsend := send_of_contentOf_error hs member.name hc sofar
          cases hsent : send sink member.name (Disk.sizeOf node) (.ofNode node) (took sofar) with
          | mk state ending =>
              rw [hsent] at hsend
              subst hsend
              rfl
      | ok content =>
          obtain rfl : node = .file content := by
            cases node with
            | file other => rw [Except.ok.inj hc]
            | link target => cases hc
            | dir entries => cases hc
          simp only [send_file hs]
          rfl

/-- A sink is left with the canonical stream of the holdings. -/
theorem outcome_sendRoster (hs : sink.Follows took) (disk : Disk) (roster : Roster)
    (sofar : Bytes) :
    (sendRoster disk sink roster (took sofar)).outcome =
      (roster.holdings disk).map fun held => took (sofar ++ canonical held) := by
  unfold sendRoster Roster.holdings
  rw [Logged.outcome_foldlM]
  induction roster.members generalizing sofar with
  | nil => simp [Except.map, pure, Except.pure]
  | cons member rest ih =>
      rw [List.foldlM_cons, List.mapM_cons, outcome_sendMember hs]
      cases member.content disk with
      | error failure => rfl
      | ok content =>
          show List.foldlM _ (took (sofar ++ octets member.name content)) rest = _
          rw [ih]
          cases hrest : rest.mapM (m := Except Failure) fun member => do
              let content ← member.content disk
              pure (member.name, content) with
          | error failure => simp [bind, Except.bind, pure, Except.pure, Except.map]
          | ok held => simp [bind, Except.bind, pure, Except.pure, Except.map, List.append_assoc]

/-- The stream of a roster is the canonical stream of its holdings. -/
theorem outcome_stream (disk : Disk) (roster : Roster) :
    (stream disk roster).outcome = (roster.holdings disk).map canonical := by
  have h := outcome_sendRoster Buffer.follows_sink disk roster []
  simp only [List.nil_append] at h
  rw [stream, Logged.outcome_map]
  show Except.map _ (sendRoster disk Buffer.sink roster ⟨[], none⟩).outcome = _
  rw [h]
  cases roster.holdings disk with
  | error failure => rfl
  | ok held => rfl

/-! ## Streams of rosters -/

/-- Every content of the roster has a size that a frame can hold. -/
def RosterFits (disk : Disk) (roster : Roster) : Prop :=
  ∀ member ∈ roster.members, ∀ content, disk.read member.source = .ok content → Fits content

theorem RosterFits.holdings {disk : Disk} {roster : Roster} {held : List (MemberName × Bytes)}
    (hf : RosterFits disk roster) (h : roster.holdings disk = .ok held) :
    ∀ entry ∈ held, Fits entry.2 := by
  have hpairs := Roster.holdings_eq_ok_iff.mp h
  intro entry hentry
  obtain ⟨member, hmember, -, hread⟩ := exists_left_of_forall₂ hpairs hentry
  exact hf member hmember entry.2 hread

/-- **The stream of a roster can be taken apart in one way only.** Of two rosters, on whatever disks
they are read, one stream is a prefix of the other exactly where the one sequence of named contents
is a prefix of the other, and the streams are the same exactly where the sequences are. -/
theorem stream_isPrefix_iff {disk disk' : Disk} {roster roster' : Roster} {bytes bytes' : Bytes}
    (h : (stream disk roster).outcome = .ok bytes)
    (h' : (stream disk' roster').outcome = .ok bytes')
    (hf : RosterFits disk roster) (hf' : RosterFits disk' roster') :
    ∃ held held', roster.holdings disk = .ok held ∧ roster'.holdings disk' = .ok held' ∧
      (bytes <+: bytes' ↔ held <+: held') ∧ (bytes = bytes' ↔ held = held') := by
  rw [outcome_stream, map_eq_ok_iff] at h h'
  obtain ⟨held, hheld, rfl⟩ := h
  obtain ⟨held', hheld', rfl⟩ := h'
  have hfits := hf.holdings hheld
  have hfits' := hf'.holdings hheld'
  exact ⟨held, held', hheld, hheld', canonical_isPrefix_iff hfits hfits',
    canonical_inj hfits hfits'⟩

end Frame

/-- A disk with two files at the top, to show statements on. -/
def twoFiles (a b : Bytes) : Disk :=
  ⟨.dir [(.utf8 "a", .file a), (.utf8 "b", .file b)], []⟩

/-- The name `a`. -/
def MemberName.a : MemberName :=
  ⟨"a", by decide, by decide, by decide, rfl⟩

/-- The member of that name at the path `a`. -/
def Member.a : Member :=
  ⟨MemberName.a, ⟨"a"⟩⟩

/-- The file `b` under a longer name. -/
def Member.ab : Member :=
  ⟨⟨"ab", ⟨by decide, by decide, by decide, rfl⟩⟩, ⟨"b"⟩⟩

namespace Roster

/-- The first of two files under its own name. -/
def first : Roster :=
  ⟨[(MemberName.a, Member.a)], List.pairwise_singleton _ _, by decide⟩

/-- Two files under names that begin alike. -/
def both : Roster :=
  ⟨[(MemberName.a, Member.a), (Member.ab.name, Member.ab)], List.pairwise_pair.mpr (by decide),
    by decide⟩

theorem members_both : both.members = [Member.a, Member.ab] := rfl

end Roster

namespace Frame

/-- A stream of one frame is a prefix of a stream of two, on disks that differ. -/
theorem stream_isPrefix_iff_twoFiles :
    (stream (twoFiles [1] []) Roster.first).outcome = .ok [97, 0, 1, 0, 0, 0, 0, 0, 0, 0, 1] ∧
    (stream (twoFiles [1] [0, 98]) Roster.both).outcome =
      .ok [97, 0, 1, 0, 0, 0, 0, 0, 0, 0, 1, 97, 98, 0, 2, 0, 0, 0, 0, 0, 0, 0, 0, 98] ∧
    RosterFits (twoFiles [1] []) Roster.first ∧ RosterFits (twoFiles [1] [0, 98]) Roster.both ∧
    ∃ held held', Roster.first.holdings (twoFiles [1] []) = .ok held ∧
      Roster.both.holdings (twoFiles [1] [0, 98]) = .ok held' ∧ held <+: held' ∧ held ≠ held' := by
  have hf : RosterFits (twoFiles [1] []) Roster.first := by
    intro member hm content hread
    obtain rfl : member = Member.a := List.mem_singleton.mp hm
    obtain rfl : [1] = content := Except.ok.inj hread
    decide
  have hf' : RosterFits (twoFiles [1] [0, 98]) Roster.both := by
    intro member hm content hread
    rw [Roster.members_both, List.mem_pair] at hm
    rcases hm with rfl | rfl
    · obtain rfl : [1] = content := Except.ok.inj hread
      decide
    · obtain rfl : [0, 98] = content := Except.ok.inj hread
      decide
  refine ⟨rfl, rfl, hf, hf', ?_⟩
  obtain ⟨held, held', h, h', hprefix, heq⟩ := stream_isPrefix_iff rfl rfl hf hf'
  exact ⟨held, held', h, h', hprefix.mp (by decide), fun hne => absurd (heq.mpr hne) (by decide)⟩

end Frame

end PackageSeal
