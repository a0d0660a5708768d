import PackageSeal.Proofs.Disk.Access
import PackageSeal.Proofs.Path.Joined

/-!
# Places below a root

A path that goes on from a root path is resolved from the place of the root (`locate_continues`). If
no step leads up, it leads to the place below the root that its names spell, or a link stands on the
way (`place_or_link_of_follow`). Where no link stands below the root, so is it read (`Leads.below`)
and written (`write_below`). Links on the way to the root do no harm.
-/

namespace PackageSeal

/-- The name that a step enters. -/
def Step.name? : Step → Option RawText
  | into name => some name
  | _ => none

/-- The names that the steps enter. -/
abbrev Step.names (steps : List Step) : Location :=
  steps.filterMap Step.name?

theorem Step.names_map_into (names : Location) : Step.names (names.map Step.into) = names := by
  rw [Step.names, List.filterMap_map]
  exact List.filterMap_some

namespace Path

/-- The route of `path` is that of `root` with further steps. -/
def Continues (root : Path) (rest : List Step) (path : Path) : Prop :=
  rest ≠ [] ∧ ∃ slash, Route.ofText path.text =
    ⟨(Route.ofText root.text).absolute, (Route.ofText root.text).steps ++ rest, slash⟩

/-- A path that is neither absolute nor empty asks for a step. -/
theorem steps_ne_nil {other : Path} (ho : other.isAbsolute = false) (hne : other.text ≠ "") :
    (Route.ofText other.text).steps ≠ [] := by
  have hchars : other.text.toList ≠ [] := fun h => hne (String.toList_eq_nil_iff.mp h)
  rw [isAbsolute, beq_eq_false_iff_ne] at ho
  simp only [Route.ofText]
  cases htext : other.text.toList with
  | nil => exact absurd htext hchars
  | cons c rest =>
      have hc : c ≠ '/' := by
        rw [htext] at ho
        simpa using ho
      obtain ⟨piece, pieces, hsplit⟩ : ∃ piece pieces,
          Text.split '/' (c :: rest) = (c :: piece) :: pieces := by
        rw [Text.split, if_neg hc]
        cases Text.split '/' rest with
        | nil => exact ⟨[], [], rfl⟩
        | cons piece pieces => exact ⟨piece, pieces, rfl⟩
      have hstep : ∃ step, Route.stepOfText? (c :: piece) = some step := by
        unfold Route.stepOfText?
        rw [if_neg (List.cons_ne_nil c piece)]
        by_cases hdot : c :: piece = ['.']
        · exact ⟨.here, by rw [if_pos hdot]⟩
        · by_cases hdots : c :: piece = ['.', '.']
          · exact ⟨.up, by rw [if_neg hdot, if_pos hdots]⟩
          · exact ⟨_, by rw [if_neg hdot, if_neg hdots]⟩
      obtain ⟨step, hstep⟩ := hstep
      rw [hsplit, List.filterMap_cons_some hstep]
      exact List.cons_ne_nil _ _

theorem continues_join {root other : Path} (ho : other.isAbsolute = false) (hne : other.text ≠ "") :
    Continues root (Route.ofText other.text).steps (root.join other) := by
  refine ⟨steps_ne_nil ho hne, (Route.ofText other.text).slash, ?_⟩
  by_cases hroot : root.text = ""
  · have hempty : Route.ofText "" = ⟨false, [], false⟩ := rfl
    have habsolute : (Route.ofText other.text).absolute = false := ho
    rw [join, if_pos (.inr hroot), hroot, hempty, List.nil_append, ← habsolute]
  · exact route_join hroot ho hne

theorem continues_name {root : Path} {name : String} (hname : Text.IsName name) :
    Continues root [.into (.utf8 name)] (root.join ⟨name⟩) := by
  have h := @continues_join root _ (not_isAbsolute_of_no_separator hname.no_separator)
    hname.ne_empty
  rwa [(route_name hname).1] at h

/-- Descending by names asks to enter each. -/
theorem continues_descend {root : Path} {texts : List String} (hroot : root.text ≠ "")
    (h : ∀ text ∈ texts, Text.IsName text) (hne : texts ≠ []) :
    Continues root ((names texts).map Step.into) (root.descend (names texts)) := by
  induction texts generalizing root with
  | nil => exact absurd rfl hne
  | cons text rest ih =>
      rw [List.forall_mem_cons] at h
      cases hrest : rest with
      | nil => exact continues_name h.1
      | cons next others =>
          rw [← hrest]
          have ho := not_isAbsolute_of_no_separator h.1.no_separator
          have hroute := route_join hroot ho h.1.ne_empty
          obtain ⟨-, slash, hslash⟩ :=
            ih (join_ne_empty hroot ho) h.2 (hrest ▸ List.cons_ne_nil next others)
          refine ⟨by simp, slash, ?_⟩
          show Route.ofText ((root.join ⟨text⟩).descend (names rest)).text = _
          rw [hslash, hroute, (route_name h.1).1]
          simp

/-- The path that descends by names does not end in a separator. -/
theorem slash_descend {root : Path} {texts : List String} (hroot : root.text ≠ "")
    (h : ∀ text ∈ texts, Text.IsName text) (hne : texts ≠ []) :
    (Route.ofText (root.descend (names texts)).text).slash = false := by
  obtain ⟨front, name, rfl⟩ := exists_concat hne
  rw [List.forall_mem_append, List.forall_mem_singleton] at h
  rw [names, List.map_append, List.map_singleton, descend_concat, Route.ofText, beq_eq_false_iff_ne,
    RawText.shown, getLast?_join (descend_ne_empty hroot h.1)
      (not_isAbsolute_of_no_separator h.2.no_separator) h.2.ne_empty]
  exact fun hlast => h.2.no_separator (List.mem_of_getLast? hlast)

end Path

namespace Disk

variable {disk after : Disk}

/-! ## Going on from a root -/

namespace Advances

variable {top : Node} {loc : Location} {steps rest : List Step}

/-- Steps after those that lead to something are taken from there. -/
theorem advance_append {found : Location} {node : Node}
    (h : Advances top loc steps (.place (.found found node))) (hrest : rest ≠ [])
    (purpose : Purpose) (slash : Bool) :
    advance top purpose slash loc (steps ++ rest) = advance top purpose slash found rest := by
  have hmore : ∀ front, ((front ++ rest).isEmpty && slash && decide (purpose = .make)) = false := by
    intro front
    simp [hrest]
  generalize hreach : Reach.place (.found found node) = reach at h
  induction h with
  | done _ =>
      cases hreach
      rfl
  | here hdir _ ih => rw [List.cons_append, advance_here hdir, ih hreach]
  | up hdir _ ih => rw [List.cons_append, advance_up hdir, ih hreach]
  | vacant _ _ _ => cases hreach
  | link _ _ _ => cases hreach
  | enter hdir hshort hnode hopen _ ih =>
      rw [List.cons_append, advance_into_open hdir (hmore _) hshort hnode hopen, ih hreach]

/-- Steps after those that lead to a link are left to take behind it. -/
theorem advance_append_link {parent : Location} {target : RawText} {others : List Step}
    (h : Advances top loc steps (.link parent target others)) (hrest : rest ≠ [])
    (purpose : Purpose) (slash : Bool) :
    advance top purpose slash loc (steps ++ rest) = .ok (.link parent target (others ++ rest)) := by
  have hmore : ∀ front, (front ++ rest).isEmpty = false := by
    intro front
    simp [hrest]
  generalize hreach : Reach.link parent target others = reach at h
  induction h with
  | done _ => cases hreach
  | here hdir _ ih => rw [List.cons_append, advance_here hdir, ih hreach]
  | up hdir _ ih => rw [List.cons_append, advance_up hdir, ih hreach]
  | vacant _ _ _ => cases hreach
  | link hdir hshort hlink =>
      cases hreach
      rw [List.cons_append, advance_into hdir, if_neg (by simp [hmore]),
        if_neg (Nat.not_lt.mpr hshort), hlink]
      simp [hmore]
  | enter hdir hshort hnode hopen _ ih =>
      rw [List.cons_append, advance_into_open hdir (by simp [hmore]) hshort hnode hopen, ih hreach]

end Advances

theorem follow_append {top : Node} {purpose : Purpose} {links : Nat}
    {slash slash' asked : Bool} {loc found : Location} {node : Node} {steps rest : List Step}
    (hrest : rest ≠ [])
    (h : follow top .reach links loc steps slash' = .ok (.found found node, asked)) :
    ∃ fewer, follow top purpose links loc (steps ++ rest) slash =
      follow top purpose fewer found rest slash := by
  refine follow_induction (motive := fun links loc steps _ => ∃ fewer,
    follow top purpose links loc (steps ++ rest) slash =
      follow top purpose fewer found rest slash) ?_ ?_ h
  · intro links loc steps hadv
    have hreach := advances_of_advance (by simp) hadv
    exact ⟨links, follow_congr (hreach.advance_append hrest purpose slash)⟩
  · intro links loc steps slash' parent target others route hadv hroute ih
    obtain ⟨fewer, hfewer⟩ := ih
    refine ⟨fewer, ?_⟩
    have hreach := advances_of_advance (by simp) hadv
    rw [← hfewer, follow_link (hreach.advance_append_link hrest purpose slash) hroute,
      List.append_assoc]
    simp only [List.isEmpty_eq_false_iff.mpr (List.append_ne_nil_of_right_ne_nil others hrest),
      Bool.false_and, Bool.or_false]

theorem text_ne_empty_of_ofPath {path : Path} {route : Route} (h : Route.ofPath path = .ok route) :
    path.text ≠ "" ∧ route = Route.ofText path.text := by
  obtain ⟨-, hne, -, hroute⟩ := Route.ofPath_eq_ok_iff.mp h
  exact ⟨hne, hroute⟩

theorem Leads.text_ne_empty {path : Path} {loc : Location} (h : disk.Leads path loc) :
    path.text ≠ "" := by
  obtain ⟨node, hfind⟩ := h
  obtain ⟨route, slash, hroute, -⟩ := find_eq_ok_iff.mp hfind
  exact (text_ne_empty_of_ofPath hroute).1

/-- No file can be read along a path that ends in a separator. -/
theorem slash_of_read {path : Path} {content : Bytes} (h : disk.read path = .ok content) :
    (Route.ofText path.text).slash = false := by
  obtain ⟨loc, ⟨node, hfind⟩, hat⟩ := read_eq_ok_iff.mp h
  have hget := get?_of_find hfind
  obtain ⟨route, asked, hroute, hlocate, hdir⟩ := find_eq_ok_iff.mp hfind
  obtain ⟨-, rfl⟩ := text_ne_empty_of_ofPath hroute
  by_contra hslash
  rw [Bool.not_eq_false] at hslash
  rw [locate, hslash] at hlocate
  have hisDir := hdir (asked_of_follow hlocate)
  rw [at?_eq_file_iff, hget, Option.some.injEq] at hat
  rw [hat] at hisDir
  cases hisDir

/-- **What goes on from a root is resolved from the place of the root.** -/
theorem locate_continues {root path : Path} {loc : Location} {rest : List Step}
    (hroot : disk.Leads root loc) (hpath : root.Continues rest path) (purpose : Purpose) :
    ∃ links, disk.locate purpose (Route.ofText path.text) =
      follow disk.top purpose links loc rest (Route.ofText path.text).slash := by
  obtain ⟨node, hfind⟩ := hroot
  obtain ⟨route, asked, hroute, hlocate, -⟩ := find_eq_ok_iff.mp hfind
  obtain ⟨-, rfl⟩ := text_ne_empty_of_ofPath hroute
  obtain ⟨hrest, slash, hcontinues⟩ := hpath
  obtain ⟨links, hfollow⟩ := @follow_append disk.top purpose _ slash _ _ _ _ _ _ _ hrest hlocate
  refine ⟨links, ?_⟩
  rw [hcontinues, ← hfollow]
  rfl

/-! ## Without links -/

/-- No link stands below the place. -/
def LinkFree (disk : Disk) (loc : Location) : Prop :=
  ∀ rest target, disk.at? (loc ++ rest) ≠ some (.link target)

theorem LinkFree.of_sameShape (hs : SameShape disk after) {loc : Location}
    (h : disk.LinkFree loc) : after.LinkFree loc :=
  fun rest target hlink => h rest target (hs.link_iff.mp hlink)

/-- A link stands at one of the places to which the names lead one after the other. -/
def LinkOn (disk : Disk) (loc names : Location) : Prop :=
  ∃ front rest target, names = front ++ rest ∧ front ≠ [] ∧
    disk.at? (loc ++ front) = some (.link target)

theorem LinkFree.not_linkOn {loc : Location} (h : disk.LinkFree loc) (names : Location) :
    ¬ disk.LinkOn loc names := by
  rintro ⟨front, rest, target, -, -, hlink⟩
  exact h front target hlink

theorem LinkOn.cons {loc names : Location} {name : RawText}
    (h : disk.LinkOn (loc ++ [name]) names) : disk.LinkOn loc (name :: names) := by
  obtain ⟨front, rest, target, rfl, -, hlink⟩ := h
  rw [List.append_assoc] at hlink
  exact ⟨name :: front, rest, target, rfl, List.cons_ne_nil _ _, hlink⟩

/-- Where no step leads up, the steps end at the place that their names spell, or a link stands on
the way. -/
theorem Advances.place_or_link {loc : Location} {steps : List Step} {reach : Reach}
    (h : Advances disk.top loc steps reach) (hup : .up ∉ steps) :
    (∃ place, reach = .place place ∧ place.loc = loc ++ Step.names steps) ∨
      disk.LinkOn loc (Step.names steps) := by
  induction h with
  | done _ => exact .inl ⟨_, rfl, by simp [Place.loc]⟩
  | here _ _ ih => exact ih fun hmem => hup (List.mem_cons_of_mem _ hmem)
  | up _ _ _ => exact absurd List.mem_cons_self hup
  | vacant _ _ _ => exact .inl ⟨_, rfl, rfl⟩
  | link _ _ hlink =>
      exact .inr ⟨[_], _, _, rfl, List.cons_ne_nil _ _, at?_eq_link_iff.mpr hlink⟩
  | enter _ _ _ _ _ ih =>
      obtain ⟨place, hplace, hloc⟩ | hlink := ih fun hmem => hup (List.mem_cons_of_mem _ hmem)
      · refine .inl ⟨place, hplace, ?_⟩
        rw [hloc, List.append_assoc]
        rfl
      · exact .inr hlink.cons

theorem place_or_link_of_follow {purpose : Purpose} (hp : purpose ≠ .entry) {links : Nat}
    {slash asked : Bool} {loc : Location} {steps : List Step} {place : Place} (hup : .up ∉ steps)
    (h : follow disk.top purpose links loc steps slash = .ok (place, asked)) :
    place.loc = loc ++ Step.names steps ∨ disk.LinkOn loc (Step.names steps) := by
  obtain ⟨hadv, -⟩ | ⟨_, parent, target, others, _, -, hadv, -⟩ := follow_eq_ok_iff.mp h
  · refine ((advances_of_advance hp hadv).place_or_link hup).imp ?_ id
    rintro ⟨other, heq, hloc⟩
    cases heq
    exact hloc
  · refine .inr (((advances_of_advance hp hadv).place_or_link hup).resolve_left ?_)
    rintro ⟨other, heq, -⟩
    cases heq

theorem place_of_follow {purpose : Purpose} (hp : purpose ≠ .entry) {links : Nat}
    {slash asked : Bool} {loc : Location} {steps : List Step} {place : Place}
    (hfree : disk.LinkFree loc) (hup : .up ∉ steps)
    (h : follow disk.top purpose links loc steps slash = .ok (place, asked)) :
    place.loc = loc ++ Step.names steps :=
  (place_or_link_of_follow hp hup h).resolve_right (hfree.not_linkOn _)

/-- A regular file with this content stands at the place, seen from what `root` leads to. -/
def FileBelow (disk : Disk) (root : Path) (loc : Location) (content : Bytes) : Prop :=
  ∃ start, disk.Leads root start ∧ disk.at? (start ++ loc) = some (.file content)

variable {root path : Path} {loc : Location} {rest : List Step}

/-- **What a path that goes on from a root leads to** is the place below the root that its names
spell. -/
theorem Leads.below (hroot : disk.Leads root loc) (hfree : disk.LinkFree loc)
    (hpath : root.Continues rest path) (hup : .up ∉ rest) {found : Location}
    (h : disk.Leads path found) : found = loc ++ Step.names rest := by
  obtain ⟨node, hfind⟩ := h
  obtain ⟨route, asked, hroute, hlocate, -⟩ := find_eq_ok_iff.mp hfind
  obtain ⟨-, rfl⟩ := text_ne_empty_of_ofPath hroute
  obtain ⟨links, heq⟩ := locate_continues hroot hpath .reach
  rw [heq] at hlocate
  exact place_of_follow (by simp) hfree hup hlocate

/-- Writing along a path that goes on from a root writes the place below the root that its names
spell. -/
theorem write_below (hw : disk.WellFormed) (hroot : disk.Leads root loc)
    (hfree : disk.LinkFree loc) (hpath : root.Continues rest path) (hup : .up ∉ rest)
    {content : Bytes} (h : disk.write path content = .ok after) :
    Overwrites disk (loc ++ Step.names rest) content after ∧
      after.Leads path (loc ++ Step.names rest) ∧ after.WellFormed := by
  obtain ⟨route, found, hroute, htarget, hover, hleads, hw'⟩ := write_eq_ok hw h
  have hask : ∀ name, .into name ∈ route.steps → name.Askable :=
    fun name hm => Route.askable_of_mem hroute hm
  obtain ⟨place, hlocate, hloc, -⟩ := target_eq_ok hw hask htarget
  obtain ⟨-, rfl⟩ := text_ne_empty_of_ofPath hroute
  obtain ⟨links, heq⟩ := locate_continues hroot hpath .make
  rw [heq] at hlocate
  obtain rfl : found = loc ++ Step.names rest :=
    hloc.symm.trans (place_of_follow (by simp) hfree hup hlocate)
  exact ⟨hover, hleads, hw'⟩

end Disk

end PackageSeal
