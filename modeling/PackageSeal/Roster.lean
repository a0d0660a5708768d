import PackageSeal.MemberName

/-!
# Members and rosters

A member pairs a name with the file that supplies its content. A roster enters members under names,
in strictly ascending order of the names, so that it has one member for a name and one order to be
framed in, however it came together. Inserting enters a member under its own name (`keyed_place`),
so the names of a roster are those of its members (`map_name_members`).
-/

namespace PackageSeal

/-- A member name and the path of its content. -/
structure Member where
  name : MemberName
  source : Path
deriving DecidableEq

namespace Member

/-- The member named like its own path. -/
def ofPath (path : String) : Except NameFault Member :=
  match MemberName.ofText path with
  | .error fault => .error fault
  | .ok name => .ok ⟨name, ⟨path⟩⟩

/-- The member with its source seen from the package root. -/
def under (root : Path) (member : Member) : Member :=
  { member with source := root.join member.source }

end Member

/-- Members by their names, in the order of the names. -/
@[ext] structure Roster where
  entries : List (MemberName × Member)
  ascending : entries.Pairwise fun a b => a.1 < b.1
  /-- Every member is entered under its own name. -/
  keyed : ∀ entry ∈ entries, entry.1 = entry.2.name

namespace Roster

/-- No members. -/
def empty : Roster :=
  ⟨[], List.Pairwise.nil, List.forall_mem_nil _⟩

/-- The entries with one for a new member, or the member that has its name already. -/
def place (new : Member) :
    List (MemberName × Member) → Except Member (List (MemberName × Member))
  | [] => .ok [(new.name, new)]
  | (name, member) :: rest =>
    if new.name = name then .error member
    else if new.name < name then .ok ((new.name, new) :: (name, member) :: rest)
    else match place new rest with
      | .error taken => .error taken
      | .ok placed => .ok ((name, member) :: placed)

variable {new : Member} {entries placed : List (MemberName × Member)}

/-- A placed member is added to those that were there. -/
theorem place_perm (h : place new entries = .ok placed) :
    placed.Perm ((new.name, new) :: entries) := by
  induction entries generalizing placed with
  | nil =>
    rw [place, Except.ok.injEq] at h
    rw [← h]
  | cons entry rest ih =>
    obtain ⟨name, member⟩ := entry
    rw [place] at h
    split at h
    · cases h
    · split at h
      · rw [Except.ok.injEq] at h
        rw [← h]
      · split at h
        · cases h
        · next placed' hrest =>
          rw [Except.ok.injEq] at h
          rw [← h]
          exact ((ih hrest).cons _).trans (List.Perm.swap _ _ rest)

/-- Placing keeps the order. -/
theorem ascending_place (hp : entries.Pairwise fun a b => a.1 < b.1)
    (h : place new entries = .ok placed) : placed.Pairwise fun a b => a.1 < b.1 := by
  induction entries generalizing placed with
  | nil =>
    rw [place, Except.ok.injEq] at h
    simp [← h]
  | cons entry rest ih =>
    obtain ⟨name, member⟩ := entry
    obtain ⟨hfirst, hrest⟩ := List.pairwise_cons.mp hp
    rw [place] at h
    split at h
    · cases h
    · next hne =>
      split at h
      · next hlt =>
        rw [Except.ok.injEq] at h
        subst h
        refine List.pairwise_cons.mpr ⟨fun e he => ?_, hp⟩
        rcases List.mem_cons.mp he with rfl | he
        · exact hlt
        · exact MemberName.lt_trans hlt (hfirst e he)
      · next hnlt =>
        split at h
        · cases h
        · next placed' hplace =>
          rw [Except.ok.injEq] at h
          subst h
          refine List.pairwise_cons.mpr ⟨fun e he => ?_, ih hrest hplace⟩
          rcases List.mem_cons.mp ((place_perm hplace).mem_iff.mp he) with rfl | he
          · exact MemberName.lt_of_not_lt_of_ne hnlt hne
          · exact hfirst e he

/-- Placing enters the new member under its own name. -/
theorem keyed_place (hk : ∀ entry ∈ entries, entry.1 = entry.2.name)
    (h : place new entries = .ok placed) : ∀ entry ∈ placed, entry.1 = entry.2.name := by
  intro entry hentry
  rcases List.mem_cons.mp ((place_perm h).mem_iff.mp hentry) with rfl | hentry
  · rfl
  · exact hk entry hentry

/-- The roster with a new member, or the member that has its name already. -/
def insert (roster : Roster) (new : Member) : Except Member Roster :=
  match h : place new roster.entries with
  | .error taken => .error taken
  | .ok placed =>
    .ok ⟨placed, ascending_place roster.ascending h, keyed_place roster.keyed h⟩

/-- The members in the order of their names. -/
def members (roster : Roster) : List Member :=
  roster.entries.map Prod.snd

/-- The names in order. -/
def names (roster : Roster) : List MemberName :=
  roster.entries.map Prod.fst

/-- The number of members. -/
def size (roster : Roster) : Nat :=
  roster.entries.length

/-- The member with the given name. -/
def get? (roster : Roster) (name : String) : Option Member :=
  (roster.entries.find? fun entry => entry.1.text == name).map Prod.snd

@[simp] theorem members_empty : empty.members = [] := rfl

@[simp] theorem names_empty : empty.names = [] := rfl

theorem size_eq (roster : Roster) : roster.size = roster.members.length :=
  (List.length_map Prod.snd).symm

/-- The names under which members are entered are their own. -/
theorem map_name_members (roster : Roster) : roster.members.map Member.name = roster.names := by
  rw [members, names, List.map_map]
  exact List.map_congr_left fun entry hentry => (roster.keyed entry hentry).symm

end Roster

end PackageSeal
