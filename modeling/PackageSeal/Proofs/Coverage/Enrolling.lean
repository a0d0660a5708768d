import Mathlib.Data.List.Nodup
import PackageSeal.Proofs.Coverage.Rosters

/-!
# Members enrolled in turn

A roster goes on from where it was when a member cannot be enrolled. What one attempt does is told
by the names that are taken (`attempt_of_free`, `attempt_of_taken`); from it follows what a run of
attempts leaves: the members that were first under their names (`mem_attempts`), in the order of the
octets of these, whatever failed in between. So members of different names leave the same roster in
every order (`attempts_of_perm`).
-/

namespace PackageSeal

namespace Member

/-- The member comes before all others of its name. -/
def IsFirst (member : Member) (members : List Member) : Prop :=
  ∃ front rest, members = front ++ member :: rest ∧ ∀ earlier ∈ front, earlier.name ≠ member.name

variable {member first : Member} {members rest : List Member}

theorem not_isFirst_nil : ¬ member.IsFirst [] := by
  rintro ⟨front, rest, hsplit, -⟩
  simp at hsplit

theorem isFirst_cons_iff : member.IsFirst (first :: rest) ↔
    member = first ∨ (first.name ≠ member.name ∧ member.IsFirst rest) := by
  constructor
  · rintro ⟨front, back, hsplit, hfront⟩
    cases front with
    | nil => exact .inl (List.cons.inj hsplit).1.symm
    | cons head front =>
        obtain ⟨rfl, rfl⟩ := List.cons.inj hsplit
        rw [List.forall_mem_cons] at hfront
        exact .inr ⟨hfront.1, front, back, rfl, hfront.2⟩
  · rintro (rfl | ⟨hne, front, back, rfl, hfront⟩)
    · exact ⟨[], rest, rfl, List.forall_mem_nil _⟩
    · exact ⟨first :: front, back, rfl, List.forall_mem_cons.mpr ⟨hne, hfront⟩⟩

/-- Every name that occurs has a first member. -/
theorem exists_isFirst (h : member ∈ members) :
    ∃ first : Member, first.IsFirst members ∧ first.name = member.name := by
  induction members with
  | nil => cases h
  | cons head rest ih =>
      by_cases hname : head.name = member.name
      · exact ⟨head, isFirst_cons_iff.mpr (.inl rfl), hname⟩
      · have hrest : member ∈ rest := (List.mem_cons.mp h).resolve_left fun heq => hname (heq ▸ rfl)
        obtain ⟨first, hfirst, hsame⟩ := ih hrest
        exact ⟨first, isFirst_cons_iff.mpr (.inr ⟨hsame ▸ hname, hfirst⟩), hsame⟩

/-- Where no name occurs twice, every member is the first of its name. -/
theorem isFirst_iff_mem (h : (members.map Member.name).Nodup) :
    member.IsFirst members ↔ member ∈ members := by
  constructor
  · rintro ⟨front, rest, rfl, -⟩
    exact List.mem_append_right front List.mem_cons_self
  · intro hmem
    obtain ⟨front, rest, rfl⟩ := List.append_of_mem hmem
    rw [List.map_append, List.nodup_append] at h
    refine ⟨front, rest, rfl, fun earlier hearlier => ?_⟩
    exact h.2.2 _ (List.mem_map_of_mem hearlier) _ (List.mem_map_of_mem List.mem_cons_self)

end Member

namespace Roster

variable {roster bigger : Roster} {new member : Member} {ops : List Member}

/-! ## Looking up -/

theorem mem_names_iff {name : MemberName} :
    name ∈ roster.names ↔ ∃ member ∈ roster.members, member.name = name := by
  rw [← map_name_members]
  exact List.mem_map

/-- The names and the members in step are the entries. -/
theorem zip_names (roster : Roster) : roster.names.zip roster.members = roster.entries := by
  rw [names, members, List.zip_map']
  exact List.map_id _

theorem nodup_members (roster : Roster) : roster.members.Nodup :=
  List.Nodup.of_map Member.name roster.nodup_names

/-- A text finds the member that has it as its name. -/
theorem get?_eq_some_iff {text : String} :
    roster.get? text = some member ↔ member ∈ roster.members ∧ member.name.text = text := by
  have hfind : roster.get? text = roster.members.find? fun member => member.name.text == text := by
    rw [get?, entries_eq, List.find?_map, Option.map_map]
    exact Option.map_id'
  rw [hfind]
  constructor
  · intro h
    exact ⟨List.mem_of_find?_eq_some h, beq_iff_eq.mp (List.find?_some h :)⟩
  · rintro ⟨hmem, rfl⟩
    have hsome : (roster.members.find? fun m => m.name.text == member.name.text).isSome := by
      rw [List.find?_isSome]
      exact ⟨member, hmem, beq_self_eq_true _⟩
    obtain ⟨found, hfound⟩ := Option.isSome_iff_exists.mp hsome
    have htext : found.name.text = member.name.text := beq_iff_eq.mp (List.find?_some hfound :)
    have hsame := List.inj_on_of_nodup_map roster.nodup_names
      (List.mem_of_find?_eq_some hfound) hmem (MemberName.ext htext)
    rw [hfound, hsame]

/-! ## One attempt -/

/-- The answer to a member that is to be enrolled, and the roster that there is afterwards. -/
def attempt (roster : Roster) (new : Member) : Except Failure Unit × Roster :=
  match roster.enroll new with
  | .ok bigger => (.ok (), bigger)
  | .error failure => (.error failure, roster)

/-- A member whose name is free is added. -/
theorem attempt_of_free (h : new.name ∉ roster.names) : ∃ bigger,
    roster.attempt new = (.ok (), bigger) ∧ bigger.members.Perm (new :: roster.members) := by
  have hfree : ∀ m ∈ roster.members, new.name ≠ m.name := fun m hm heq =>
    h (mem_names_iff.mpr ⟨m, hm, heq.symm⟩)
  obtain ⟨bigger, hbigger⟩ := enroll_of_free hfree
  exact ⟨bigger, by rw [attempt, hbigger], perm_of_enroll hbigger⟩

/-- A member whose name is taken is refused, and the roster stays as it was. -/
theorem attempt_of_taken (h : new.name ∈ roster.names) : ∃ holder ∈ roster.members,
    holder.name = new.name ∧ roster.attempt new =
      (.error (.brokenRule (.claimedTwice new.name holder.source new.source)), roster) := by
  cases henroll : roster.enroll new with
  | ok bigger =>
      have hnames := ((perm_of_enroll henroll).map Member.name).nodup_iff.mp bigger.nodup_names
      rw [List.map_cons, map_name_members, List.nodup_cons] at hnames
      exact absurd h hnames.1
  | error failure =>
      obtain ⟨holder, hmem, hname, rfl⟩ := enroll_eq_error henroll
      exact ⟨holder, hmem, hname, by rw [attempt, henroll]⟩

/-- **An attempt succeeds exactly if the name is free.** -/
theorem attempt_eq_ok_iff : (roster.attempt new).1 = .ok () ↔ new.name ∉ roster.names := by
  by_cases h : new.name ∈ roster.names
  · obtain ⟨holder, -, -, hattempt⟩ := attempt_of_taken h
    simp [hattempt, h]
  · obtain ⟨bigger, hattempt, -⟩ := attempt_of_free h
    simp [hattempt, h]

/-- **An attempt that fails names both sources** of the name, and changes nothing. -/
theorem attempt_eq_error {failure : Failure} (h : (roster.attempt new).1 = .error failure) :
    (roster.attempt new).2 = roster ∧ ∃ holder ∈ roster.members, holder.name = new.name ∧
      failure = .brokenRule (.claimedTwice new.name holder.source new.source) := by
  have htaken : new.name ∈ roster.names := by
    by_contra hfree
    rw [attempt_eq_ok_iff.mpr hfree] at h
    cases h
  obtain ⟨holder, hmem, hname, hattempt⟩ := attempt_of_taken htaken
  rw [hattempt, Except.error.injEq] at h
  exact ⟨by rw [hattempt], holder, hmem, hname, h.symm⟩

/-- After an attempt there are the members that were, and the new one if its name was free. -/
theorem mem_attempt : member ∈ (roster.attempt new).2.members ↔
    member ∈ roster.members ∨ (new.name ∉ roster.names ∧ member = new) := by
  by_cases h : new.name ∈ roster.names
  · obtain ⟨holder, -, -, hattempt⟩ := attempt_of_taken h
    simp [hattempt, h]
  · obtain ⟨bigger, hattempt, hperm⟩ := attempt_of_free h
    rw [hattempt, hperm.mem_iff, List.mem_cons, or_comm]
    simp only [h, not_false_eq_true, true_and]

/-- After an attempt the name of the new member is taken, by it or by the member that had it. -/
theorem mem_names_attempt {name : MemberName} :
    name ∈ (roster.attempt new).2.names ↔ name ∈ roster.names ∨ new.name = name := by
  rw [mem_names_iff]
  simp only [mem_attempt]
  constructor
  · rintro ⟨m, hm | ⟨-, rfl⟩, rfl⟩
    · exact .inl (mem_names_iff.mpr ⟨m, hm, rfl⟩)
    · exact .inr rfl
  · intro h
    by_cases htaken : name ∈ roster.names
    · obtain ⟨m, hm, hname⟩ := mem_names_iff.mp htaken
      exact ⟨m, .inl hm, hname⟩
    · obtain rfl := h.resolve_left htaken
      exact ⟨new, .inr ⟨htaken, rfl⟩, rfl⟩

theorem size_attempt :
    (roster.attempt new).2.size = roster.size + [(roster.attempt new).1].countP Except.isOk := by
  by_cases h : new.name ∈ roster.names
  · obtain ⟨holder, -, -, hattempt⟩ := attempt_of_taken h
    simp [hattempt, Except.isOk, Except.toBool]
  · obtain ⟨bigger, hattempt, hperm⟩ := attempt_of_free h
    simp [hattempt, Except.isOk, Except.toBool, size_eq, hperm.length_eq]

/-! ## Runs of attempts -/

/-- The answers to members that are to be enrolled in turn, and the roster that there is
afterwards. -/
def attempts (roster : Roster) : List Member → List (Except Failure Unit) × Roster
  | [] => ([], roster)
  | new :: rest =>
    let (answer, next) := roster.attempt new
    let (answers, last) := next.attempts rest
    (answer :: answers, last)

theorem attempts_append (roster : Roster) (front rest : List Member) :
    roster.attempts (front ++ rest) =
      ((roster.attempts front).1 ++ ((roster.attempts front).2.attempts rest).1,
        ((roster.attempts front).2.attempts rest).2) := by
  induction front generalizing roster with
  | nil => rfl
  | cons new front ih => simp only [List.cons_append, attempts, ih]

theorem length_attempts (roster : Roster) (ops : List Member) :
    (roster.attempts ops).1.length = ops.length := by
  induction ops generalizing roster with
  | nil => rfl
  | cons new rest ih => simp only [attempts, List.length_cons, ih]

/-- **A run leaves the members that were there, and the first of every other name.** -/
theorem mem_attempts : member ∈ (roster.attempts ops).2.members ↔
    member ∈ roster.members ∨ (member.name ∉ roster.names ∧ member.IsFirst ops) := by
  induction ops generalizing roster with
  | nil => simp only [attempts, Member.not_isFirst_nil, and_false, or_false]
  | cons new rest ih =>
      simp only [attempts, ih, mem_attempt, mem_names_attempt, Member.isFirst_cons_iff, or_assoc,
        not_or]
      refine or_congr_right ?_
      constructor
      · rintro (⟨hfree, rfl⟩ | ⟨⟨hfree, hne⟩, hfirst⟩)
        · exact ⟨hfree, .inl rfl⟩
        · exact ⟨hfree, .inr ⟨hne, hfirst⟩⟩
      · rintro ⟨hfree, rfl | ⟨hne, hfirst⟩⟩
        · exact .inl ⟨hfree, rfl⟩
        · exact .inr ⟨⟨hfree, hne⟩, hfirst⟩

/-- A run adds one member for each answer that is a success. -/
theorem size_attempts : (roster.attempts ops).2.size =
    roster.size + (roster.attempts ops).1.countP Except.isOk := by
  induction ops generalizing roster with
  | nil => rfl
  | cons new rest ih =>
      rw [attempts, List.countP_cons, ih, size_attempt]
      simp only [List.countP_cons, List.countP_nil]
      omega

/-- What a run from no members leaves. -/
theorem mem_attempts_empty : member ∈ (empty.attempts ops).2.members ↔ member.IsFirst ops := by
  rw [mem_attempts]
  simp

/-- **Members of different names leave the same roster in every order**, which is all of them. -/
theorem attempts_of_perm {other : List Member} (h : (ops.map Member.name).Nodup)
    (hperm : other.Perm ops) : (empty.attempts other).2 = (empty.attempts ops).2 ∧
      (empty.attempts ops).2.members.Perm ops := by
  have hall : ∀ {given : List Member}, (given.map Member.name).Nodup →
      (empty.attempts given).2.members.Perm given := by
    intro given hnames
    refine (List.perm_ext_iff_of_nodup (nodup_members _)
      (List.Nodup.of_map _ hnames)).mpr fun m => ?_
    rw [mem_attempts_empty, Member.isFirst_iff_mem hnames]
  have hother := hall ((hperm.map Member.name).nodup_iff.mpr h)
  exact ⟨eq_of_perm (hother.trans (hperm.trans (hall h).symm)), hall h⟩

/-- **Enrolling in turn keeps the first of each name, in the order of octets.** Whatever members are
to be enrolled, one after the other and from none: those that are there at last are the first of
their names, and one for each name that occurred. An attempt fails exactly if its name is taken by
then; it names who took it and leaves the roster as it was. The names are those of the members;
names and members run upwards in the octets of the names, there are as many as successes, and a text
finds the first member of that name. So members of different names are all there, and in the same
order whichever came first. -/
theorem attempts_firstWins (ops : List Member) :
    (∀ member, member ∈ (empty.attempts ops).2.members ↔ member.IsFirst ops) ∧
    (∀ new ∈ ops, ∃ first ∈ (empty.attempts ops).2.members, first.name = new.name) ∧
    (∀ front new rest before, ops = front ++ new :: rest → (empty.attempts front).2 = before →
      (empty.attempts ops).1[front.length]? = some (before.attempt new).1 ∧
      (empty.attempts (front ++ [new])).2 = (before.attempt new).2 ∧
      ((before.attempt new).1 = .ok () ↔ ∀ member ∈ before.members, member.name ≠ new.name) ∧
      ∀ failure, (before.attempt new).1 = .error failure → (before.attempt new).2 = before ∧
        ∃ holder ∈ before.members, holder.name = new.name ∧
          failure = .brokenRule (.claimedTwice new.name holder.source new.source)) ∧
    (∀ entry ∈ (empty.attempts ops).2.names.zip (empty.attempts ops).2.members,
      entry.2.name = entry.1) ∧
    (empty.attempts ops).2.names.Pairwise (fun a b => utf8 a.text < utf8 b.text) ∧
    (empty.attempts ops).2.members.Pairwise (fun a b => utf8 a.name.text < utf8 b.name.text) ∧
    (empty.attempts ops).2.size = (empty.attempts ops).1.countP Except.isOk ∧
    (∀ text member, (empty.attempts ops).2.get? text = some member ↔
      member.IsFirst ops ∧ member.name.text = text) ∧
    ∀ other, other.Perm ops → (ops.map Member.name).Nodup →
      (empty.attempts other).2 = (empty.attempts ops).2 ∧
        (empty.attempts ops).2.members.Perm ops := by
  refine ⟨fun member => mem_attempts_empty, fun new hnew => ?_, ?_, ?_, ?_,
    (empty.attempts ops).2.ascending_members, ?_, fun text member => ?_,
    fun other hperm hnames => attempts_of_perm hnames hperm⟩
  · obtain ⟨first, hfirst, hname⟩ := Member.exists_isFirst hnew
    exact ⟨first, mem_attempts_empty.mpr hfirst, hname⟩
  · rintro front new rest before rfl rfl
    refine ⟨?_, ?_, ?_, fun failure h => attempt_eq_error h⟩
    · rw [attempts_append, ← length_attempts empty front,
        List.getElem?_append_right (Nat.le_refl _), Nat.sub_self]
      rfl
    · rw [attempts_append]
      rfl
    · rw [attempt_eq_ok_iff, mem_names_iff]
      simp only [not_exists, not_and, ne_eq]
  · intro entry hentry
    rw [zip_names] at hentry
    exact ((empty.attempts ops).2.keyed entry hentry).symm
  · exact List.pairwise_map.mpr (empty.attempts ops).2.ascending
  · rw [size_attempts]
    exact Nat.zero_add _
  · rw [get?_eq_some_iff, mem_attempts_empty]

/-- The file `x` in a directory, which comes after the name below. -/
def slashed : Member :=
  ⟨⟨"a/x", ⟨by decide, by decide, by decide, by decide⟩⟩, ⟨"one"⟩⟩

def dashed : Member :=
  ⟨⟨"a-b", ⟨by decide, by decide, by decide, by decide⟩⟩, ⟨"two"⟩⟩

/-- Another spelling of a name that is taken is refused, and looking the name up finds who took it;
names come in the order of octets, not of their parts. -/
theorem attempts_firstWins_spellings :
    MemberName.ofText "./a\\x" = .ok slashed.name ∧
      (empty.attempts [slashed, dashed, ⟨slashed.name, ⟨"three"⟩⟩]).1[2]? =
        some (.error (.brokenRule (.claimedTwice slashed.name ⟨"one"⟩ ⟨"three"⟩))) ∧
      (empty.attempts [slashed, dashed, ⟨slashed.name, ⟨"three"⟩⟩]).2.get? "a/x" = some slashed ∧
      (empty.attempts [dashed, slashed]).2 = (empty.attempts [slashed, dashed]).2 ∧
      (empty.attempts [slashed, dashed]).2.members = [dashed, slashed] := by
  obtain ⟨-, -, hstep, -, -, -, -, hget, -⟩ :=
    attempts_firstWins [slashed, dashed, ⟨slashed.name, ⟨"three"⟩⟩]
  obtain ⟨-, -, -, -, -, -, -, -, hperm⟩ := attempts_firstWins [slashed, dashed]
  obtain ⟨hanswer, -⟩ := hstep [slashed, dashed] ⟨slashed.name, ⟨"three"⟩⟩ [] _ rfl rfl
  refine ⟨rfl, hanswer.trans rfl, (hget _ _).mpr ⟨⟨[], _, rfl, by simp⟩, rfl⟩, ?_, rfl⟩
  exact (hperm _ (List.Perm.swap _ _ _) (by decide)).1

end Roster

end PackageSeal
