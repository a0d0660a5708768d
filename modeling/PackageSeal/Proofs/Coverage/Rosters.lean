import Mathlib.Data.List.Perm.Basic
import PackageSeal.Coverage.Members
import PackageSeal.Proofs.Failures

/-!
# How rosters come together

A roster is determined by its members in any order (`Roster.eq_of_perm`), because they stand under
their own names (`entries_eq`) and in the order of these. So what comes of enrolling members one
after the other can be said without the order: it succeeds exactly where some roster has these
members, and then gives that roster (`gather_eq_ok_iff`). Where it fails, it is at the first member
that cannot be found or whose name is taken (`gather_eq_error`).
-/

namespace PackageSeal

namespace Roster

/-- The entries of a roster are its members under their own names. -/
theorem entries_eq (roster : Roster) :
    roster.entries = roster.members.map fun member => (member.name, member) := by
  have h : roster.entries.map (fun entry => (entry.2.name, entry.2)) = roster.entries.map id :=
    List.map_congr_left fun entry hentry => Prod.ext (roster.keyed entry hentry).symm rfl
  rw [members, List.map_map]
  exact (h.trans (List.map_id _)).symm

/-- The roster of members that stand in the order of their names. -/
def ofMembers (members : List Member) (h : members.Pairwise fun a b => a.name < b.name) :
    Roster where
  entries := members.map fun member => (member.name, member)
  ascending := List.pairwise_map.mpr h
  keyed := List.forall_mem_map.mpr fun _ _ => rfl

@[simp] theorem members_ofMembers {members : List Member}
    (h : members.Pairwise fun a b => a.name < b.name) :
    (ofMembers members h).members = members := by
  rw [Roster.members, ofMembers, List.map_map]
  exact List.map_id _

/-- The members stand in the order of their own names. -/
theorem ascending_members (roster : Roster) :
    roster.members.Pairwise fun a b => a.name < b.name := by
  have h := roster.ascending
  rw [entries_eq, List.pairwise_map] at h
  exact h

/-- Rosters with the same members are the same. -/
theorem eq_of_perm {roster roster' : Roster} (h : roster.members.Perm roster'.members) :
    roster = roster' := by
  have hmembers : roster.members = roster'.members := by
    refine h.eq_of_pairwise ?_ roster.ascending_members roster'.ascending_members
    intro a b _ _ hab hba
    exact absurd (MemberName.lt_trans hab hba) (MemberName.lt_irrefl _)
  refine Roster.ext ?_
  rw [entries_eq, entries_eq, hmembers]

/-- No two members of a roster have the same name. -/
theorem nodup_names (roster : Roster) : (roster.members.map Member.name).Nodup := by
  rw [List.nodup_iff_pairwise_ne, List.pairwise_map]
  refine roster.ascending_members.imp ?_
  intro a b hlt heq
  rw [heq] at hlt
  exact MemberName.lt_irrefl _ hlt

variable {new holder : Member} {entries : List (MemberName × Member)}

/-- A member whose name is not taken can be placed. -/
theorem place_of_free (h : ∀ entry ∈ entries, new.name ≠ entry.1) :
    ∃ placed, place new entries = .ok placed := by
  induction entries with
  | nil => exact ⟨_, rfl⟩
  | cons entry rest ih =>
      obtain ⟨name, member⟩ := entry
      rw [List.forall_mem_cons] at h
      rw [place, if_neg h.1]
      by_cases hlt : new.name < name
      · exact ⟨_, by rw [if_pos hlt]⟩
      · obtain ⟨placed, hplaced⟩ := ih h.2
        exact ⟨(name, member) :: placed, by rw [if_neg hlt, hplaced]⟩

/-- A member that cannot be placed has the name of one that is there. -/
theorem place_eq_error (h : place new entries = .error holder) : (new.name, holder) ∈ entries := by
  induction entries with
  | nil => cases h
  | cons entry rest ih =>
      obtain ⟨name, member⟩ := entry
      rw [place] at h
      by_cases heq : new.name = name
      · rw [if_pos heq, Except.error.injEq] at h
        rw [heq, h]
        exact List.mem_cons_self
      · rw [if_neg heq] at h
        by_cases hlt : new.name < name
        · rw [if_pos hlt] at h
          contradiction
        · rw [if_neg hlt] at h
          cases hrest : place new rest with
          | error taken =>
              simp only [hrest, Except.error.injEq] at h
              subst h
              exact List.mem_cons_of_mem _ (ih hrest)
          | ok placed => simp [hrest] at h

/-- A member goes in where its name is free, and is then added to those that were there. -/
theorem insert_of_free {roster : Roster} (h : ∀ m ∈ roster.members, new.name ≠ m.name) :
    ∃ bigger, roster.insert new = .ok bigger := by
  have hfree : ∀ entry ∈ roster.entries, new.name ≠ entry.1 := fun entry hentry =>
    roster.keyed entry hentry ▸ h entry.2 (List.mem_map_of_mem hentry)
  obtain ⟨placed, hplaced⟩ := place_of_free hfree
  unfold insert
  split
  · next taken htaken =>
    rw [hplaced] at htaken
    cases htaken
  · exact ⟨_, rfl⟩

theorem perm_of_insert {roster bigger : Roster} (h : roster.insert new = .ok bigger) :
    bigger.members.Perm (new :: roster.members) := by
  unfold insert at h
  split at h
  · cases h
  · next placed hplace =>
    rw [Except.ok.injEq] at h
    rw [← h]
    exact (place_perm hplace).map Prod.snd

/-- A member that does not go in has the name of one that is there. -/
theorem insert_eq_error {roster : Roster} (h : roster.insert new = .error holder) :
    holder ∈ roster.members ∧ holder.name = new.name := by
  unfold insert at h
  split at h
  · next taken hplace =>
    rw [Except.error.injEq] at h
    have hentry := place_eq_error (h ▸ hplace)
    exact ⟨List.mem_map_of_mem hentry, (roster.keyed _ hentry).symm⟩
  · cases h

/-- Enrolling a member gives a roster with one more member. -/
theorem perm_of_enroll {roster bigger : Roster} (h : roster.enroll new = .ok bigger) :
    bigger.members.Perm (new :: roster.members) := by
  unfold enroll at h
  cases hinsert : roster.insert new with
  | error taken => simp [hinsert] at h
  | ok placed =>
      simp only [hinsert, Except.ok.injEq] at h
      exact h ▸ perm_of_insert hinsert

/-- A member whose name is not taken can be enrolled. -/
theorem enroll_of_free {roster : Roster} (h : ∀ m ∈ roster.members, new.name ≠ m.name) :
    ∃ bigger, roster.enroll new = .ok bigger := by
  obtain ⟨bigger, hinsert⟩ := insert_of_free h
  exact ⟨bigger, by rw [enroll, hinsert]⟩

/-- A member can be enrolled where some roster holds it beside the others. -/
theorem enroll_of_perm {roster whole : Roster} {others : List Member}
    (h : whole.members.Perm (new :: others)) (hsub : ∀ m ∈ roster.members, m ∈ others) :
    ∃ bigger, roster.enroll new = .ok bigger := by
  have hnames := (h.map Member.name).nodup_iff.mp whole.nodup_names
  rw [List.map_cons, List.nodup_cons] at hnames
  refine enroll_of_free fun m hm heq => hnames.1 ?_
  rw [heq]
  exact List.mem_map_of_mem (hsub m hm)

/-- A member that cannot be enrolled has the name of one that is there. -/
theorem enroll_eq_error {roster : Roster} {failure : Failure}
    (h : roster.enroll new = .error failure) : ∃ holder ∈ roster.members, holder.name = new.name ∧
      failure = .brokenRule (.claimedTwice new.name holder.source new.source) := by
  unfold enroll at h
  cases hinsert : roster.insert new with
  | ok placed => simp [hinsert] at h
  | error holder =>
      simp only [hinsert, Except.error.injEq] at h
      obtain ⟨hmem, hname⟩ := insert_eq_error hinsert
      exact ⟨holder, hmem, hname, h.symm⟩

variable {α : Type} {find : α → Except Failure Member}

/-- Members found and enrolled one after the other. -/
def gather (find : α → Except Failure Member) (start : Roster) (xs : List α) :
    Except Failure Roster :=
  xs.foldlM (fun roster x => do
    let member ← find x
    roster.enroll member) start

theorem gather_from_eq_ok_iff {start roster : Roster} {xs : List α} :
    gather find start xs = .ok roster ↔
      ∃ members, List.Forall₂ (fun x member => find x = .ok member) xs members ∧
        roster.members.Perm (members ++ start.members) := by
  induction xs generalizing start with
  | nil =>
      simp only [gather, List.foldlM_nil, pure_eq_ok_iff, List.forall₂_nil_left_iff,
        exists_eq_left, List.nil_append]
      constructor
      · intro h
        rw [h]
      · intro h
        exact (eq_of_perm h).symm
  | cons x xs ih =>
      have hstep : gather find start (x :: xs) = .ok roster ↔
          ∃ member, find x = .ok member ∧
            ∃ bigger, start.enroll member = .ok bigger ∧ gather find bigger xs = .ok roster := by
        simp only [gather, List.foldlM_cons, bind_eq_ok_iff]
        constructor
        · rintro ⟨bigger, ⟨member, hfind, henroll⟩, hrest⟩
          exact ⟨member, hfind, bigger, henroll, hrest⟩
        · rintro ⟨member, hfind, bigger, henroll, hrest⟩
          exact ⟨bigger, ⟨member, hfind, henroll⟩, hrest⟩
      simp only [hstep, ih, List.forall₂_cons_left_iff]
      constructor
      · rintro ⟨member, hfind, bigger, henroll, members, hmembers, hroster⟩
        have hbigger := perm_of_enroll henroll
        refine ⟨_, ⟨member, members, hfind, hmembers, rfl⟩, ?_⟩
        exact hroster.trans ((hbigger.append_left members).trans List.perm_middle)
      · rintro ⟨_, ⟨member, members, hfind, hmembers, rfl⟩, hroster⟩
        obtain ⟨bigger, henroll⟩ := enroll_of_perm hroster
          fun m (hm : m ∈ start.members) => List.mem_append_right members hm
        have hbigger := perm_of_enroll henroll
        refine ⟨member, hfind, bigger, henroll, members, hmembers, ?_⟩
        exact hroster.trans ((hbigger.append_left members).trans List.perm_middle).symm

/-- **Members found one after the other come together** exactly where some roster has them all, and
that roster is what comes of it. -/
theorem gather_eq_ok_iff {roster : Roster} {xs : List α} :
    gather find empty xs = .ok roster ↔
      ∃ members, List.Forall₂ (fun x member => find x = .ok member) xs members ∧
        roster.members.Perm members := by
  rw [gather_from_eq_ok_iff]
  simp only [members_empty, List.append_nil]

/-- **Gathering fails at the first member** that cannot be found or whose name is taken by then. -/
theorem gather_from_eq_error {start : Roster} {xs : List α} {failure : Failure}
    (h : gather find start xs = .error failure) : ∃ front x rest members,
      xs = front ++ x :: rest ∧
      List.Forall₂ (fun y member => find y = .ok member) front members ∧
      (find x = .error failure ∨ ∃ member, find x = .ok member ∧
        ∃ holder ∈ members ++ start.members, holder.name = member.name ∧
          failure = .brokenRule (.claimedTwice member.name holder.source member.source)) := by
  induction xs generalizing start with
  | nil => cases h
  | cons x xs ih =>
      rw [gather, List.foldlM_cons, bind_eq_error_iff] at h
      obtain hstep | ⟨bigger, hstep, hrest⟩ := h
      · refine ⟨[], x, xs, [], rfl, .nil, ?_⟩
        obtain hfind | ⟨member, hfind, henroll⟩ := bind_eq_error_iff.mp hstep
        · exact .inl hfind
        · exact .inr ⟨member, hfind, enroll_eq_error henroll⟩
      · obtain ⟨member, hfind, henroll⟩ := bind_eq_ok_iff.mp hstep
        obtain ⟨front, y, rest, members, rfl, hfront, hcause⟩ := ih hrest
        refine ⟨x :: front, y, rest, member :: members, rfl, .cons hfind hfront, ?_⟩
        refine hcause.imp id ?_
        rintro ⟨other, hother, holder, hholder, hname, hfailure⟩
        have hperm := ((perm_of_enroll henroll).append_left members).trans List.perm_middle
        exact ⟨other, hother, holder, hperm.mem_iff.mp hholder, hname, hfailure⟩

/-- The same for members that come together from none. -/
theorem gather_eq_error {xs : List α} {failure : Failure}
    (h : gather find empty xs = .error failure) : ∃ front x rest, xs = front ++ x :: rest ∧
      (∀ y ∈ front, ∃ member, find y = .ok member) ∧
      (find x = .error failure ∨ ∃ member, find x = .ok member ∧
        ∃ y ∈ front, ∃ holder, find y = .ok holder ∧ holder.name = member.name ∧
          failure = .brokenRule (.claimedTwice member.name holder.source member.source)) := by
  obtain ⟨front, x, rest, members, hxs, hfront, hcause⟩ := gather_from_eq_error h
  refine ⟨front, x, rest, hxs, fun y hy => ?_, hcause.imp id ?_⟩
  · obtain ⟨member, -, hfind⟩ := exists_right_of_forall₂ hfront hy
    exact ⟨member, hfind⟩
  · rintro ⟨member, hfind, holder, hholder, hname, hfailure⟩
    rw [members_empty, List.append_nil] at hholder
    obtain ⟨y, hy, hholder⟩ := exists_left_of_forall₂ hfront hholder
    exact ⟨member, hfind, y, hy, holder, hholder, hname, hfailure⟩

end Roster

end PackageSeal
