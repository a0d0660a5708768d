import PackageSeal.Proofs.Disk.Below

/-!
# Paths through links

A root is based at the directory from which the paths that go on from it are resolved
(`Base.locate`). The empty root is based where relative paths start. Whatever can be done along a
joined path, its root has a base (`exists_base`), and it is done at the place that the names spell
unless a link stands on the way: so for reading (`Base.place_or_link`) and for writing
(`Base.write`).
-/

namespace PackageSeal

namespace Disk

variable {disk after : Disk} {root path : Path} {start : Location} {rest : List Step}

/-! ## Steps taken apart -/

/-- Steps after others are taken in a directory to which these lead, or behind the link that stops
them. -/
theorem Advances.split {top : Node} {loc : Location} {front rest : List Step} {reach : Reach}
    (hrest : rest ≠ []) (h : Advances top loc (front ++ rest) reach) :
    (∃ found entries, Advances top loc front (.place (.found found (.dir entries)))) ∨
      ∃ parent target others, Advances top loc front (.link parent target others) ∧
        reach = .link parent target (others ++ rest) := by
  induction front generalizing loc with
  | nil =>
      rw [List.nil_append] at h
      obtain ⟨entries, hdir⟩ : ∃ entries, top.get? loc = some (.dir entries) := by
        cases h with
        | done _ => contradiction
        | here hdir _ => exact ⟨_, hdir⟩
        | up hdir _ => exact ⟨_, hdir⟩
        | vacant hdir _ _ => exact ⟨_, hdir⟩
        | link hdir _ _ => exact ⟨_, hdir⟩
        | enter hdir _ _ _ _ => exact ⟨_, hdir⟩
      exact .inl ⟨loc, entries, .done hdir⟩
  | cons step front ih =>
      rw [List.cons_append] at h
      generalize hsteps : front ++ rest = steps at h
      cases h with
      | here hdir hmore =>
          subst hsteps
          obtain ⟨found, entries, hfront⟩ | ⟨parent, target, others, hfront, hreach⟩ := ih hmore
          · exact .inl ⟨found, entries, .here hdir hfront⟩
          · exact .inr ⟨parent, target, others, .here hdir hfront, hreach⟩
      | up hdir hmore =>
          subst hsteps
          obtain ⟨found, entries, hfront⟩ | ⟨parent, target, others, hfront, hreach⟩ := ih hmore
          · exact .inl ⟨found, entries, .up hdir hfront⟩
          · exact .inr ⟨parent, target, others, .up hdir hfront, hreach⟩
      | vacant _ _ _ => exact absurd (List.append_eq_nil_iff.mp hsteps).2 hrest
      | link hdir hshort hlink =>
          subst hsteps
          exact .inr ⟨_, _, front, .link hdir hshort hlink, rfl⟩
      | enter hdir hshort hnode hopen hmore =>
          subst hsteps
          obtain ⟨found, entries, hfront⟩ | ⟨parent, target, others, hfront, hreach⟩ := ih hmore
          · exact .inl ⟨found, entries, .enter hdir hshort hnode hopen hfront⟩
          · exact .inr ⟨parent, target, others, .enter hdir hshort hnode hopen hfront, hreach⟩

/-- A resolution that ends has led to a directory before its last steps. -/
theorem exists_dir_of_follow {top : Node} {purpose : Purpose} (hp : purpose ≠ .entry) {links : Nat}
    {loc : Location} {front rest : List Step} {slash asked : Bool} {place : Place}
    (hrest : rest ≠ []) (slash' : Bool)
    (h : follow top purpose links loc (front ++ rest) slash = .ok (place, asked)) :
    ∃ found entries asked', follow top .reach links loc front slash' =
      .ok (.found found (.dir entries), asked') := by
  have hall : ∀ steps, follow top purpose links loc steps slash = .ok (place, asked) →
      ∀ front slash', steps = front ++ rest → ∃ found entries asked',
        follow top .reach links loc front slash' = .ok (.found found (.dir entries), asked') := by
    intro steps h
    refine follow_induction (motive := fun links loc steps _ => ∀ front slash',
      steps = front ++ rest → ∃ found entries asked', follow top .reach links loc front slash' =
        .ok (.found found (.dir entries), asked')) ?_ ?_ h
    · rintro links loc _ hadv front slash' rfl
      obtain ⟨found, entries, hfront⟩ | ⟨parent, target, others, -, hreach⟩ :=
        (advances_of_advance hp hadv).split hrest
      · exact ⟨found, entries, slash',
          follow_eq_ok_iff.mpr (.inl ⟨hfront.advance_reach slash', rfl⟩)⟩
      · cases hreach
    · rintro links loc _ slash parent target others route hadv hroute ih front slash' rfl
      obtain ⟨found, entries, hfront⟩ | ⟨parent', target', left, hfront, hreach⟩ :=
        (advances_of_advance hp hadv).split hrest
      · exact ⟨found, entries, slash',
          follow_eq_ok_iff.mpr (.inl ⟨hfront.advance_reach slash', rfl⟩)⟩
      · cases hreach
        -- The link stands before the last steps, and these are still to take behind it.
        rw [follow_link (hfront.advance_reach slash') hroute]
        exact ih (route.steps ++ left) _ (List.append_assoc _ _ _).symm
  exact hall _ h front slash' rfl

/-! ## Bases -/

/-- The directory from which a disk resolves the paths that go on from a root. -/
structure Base (disk : Disk) (root : Path) (start : Location) : Prop where
  dir : disk.at? start = some .dir
  seen : (root.text = "" ∧ start = disk.start) ∨ disk.Leads root start

theorem Leads.base (h : disk.Leads root start) (hdir : disk.at? start = some .dir) :
    disk.Base root start :=
  ⟨hdir, .inr h⟩

namespace Base

theorem unique {start' : Location} (h : disk.Base root start) (h' : disk.Base root start') :
    start = start' := by
  obtain ⟨hempty, rfl⟩ | hleads := h.seen
  · obtain ⟨-, rfl⟩ | hleads := h'.seen
    · rfl
    · exact absurd hempty hleads.text_ne_empty
  · obtain ⟨hempty, -⟩ | hleads' := h'.seen
    · exact absurd hempty hleads.text_ne_empty
    · exact hleads.unique hleads'

theorem of_sameShape (hs : SameShape disk after) (h : disk.Base root start) :
    after.Base root start := by
  have hdir := hs.dir_iff.mpr h.dir
  refine ⟨hdir, h.seen.imp ?_ ?_⟩
  · rintro ⟨hempty, rfl⟩
    exact ⟨hempty, hs.start_eq.symm⟩
  · intro hleads
    exact hleads.of_sameShape hs (by rw [hdir]; simp)

/-- **What goes on from a root is resolved from its base.** -/
theorem locate (h : disk.Base root start) (hpath : root.Continues rest path) (purpose : Purpose) :
    ∃ links, disk.locate purpose (Route.ofText path.text) =
      follow disk.top purpose links start rest (Route.ofText path.text).slash := by
  obtain ⟨hempty, rfl⟩ | hleads := h.seen
  · have hroute : Route.ofText root.text = ⟨false, [], false⟩ := by
      rw [hempty]
      rfl
    obtain ⟨-, slash, hcontinues⟩ := hpath
    refine ⟨maxLinks, ?_⟩
    rw [hcontinues, hroute]
    rfl
  · exact locate_continues hleads hpath purpose

/-- What a path that goes on from a root leads to is at the place that its names spell, or a link
stands on the way. -/
theorem place_or_link (h : disk.Base root start) (hpath : root.Continues rest path)
    (hup : .up ∉ rest) {found : Location} (hleads : disk.Leads path found) :
    found = start ++ Step.names rest ∨ disk.LinkOn start (Step.names rest) := by
  obtain ⟨node, hfind⟩ := hleads
  obtain ⟨route, asked, hroute, hlocate, -⟩ := find_eq_ok_iff.mp hfind
  obtain ⟨-, rfl⟩ := text_ne_empty_of_ofPath hroute
  obtain ⟨links, heq⟩ := h.locate hpath .reach
  rw [heq] at hlocate
  exact place_or_link_of_follow (by simp) hup hlocate

/-- Writing along a path that goes on from a root writes the place that its names spell, or a link
stands on the way. -/
theorem write (h : disk.Base root start) (hw : disk.WellFormed) (hpath : root.Continues rest path)
    (hup : .up ∉ rest) {content : Bytes} (hwrite : disk.write path content = .ok after) :
    ∃ place, Overwrites disk place content after ∧ after.Leads path place ∧ after.WellFormed ∧
      (place = start ++ Step.names rest ∨ disk.LinkOn start (Step.names rest)) := by
  obtain ⟨route, place, -, -, hover, hleads, hw'⟩ := write_eq_ok hw hwrite
  refine ⟨place, hover, hleads, hw', ?_⟩
  -- The path leads there after the write, and the links are the same as before.
  have hshape := hover.sameShape
  refine ((h.of_sameShape hshape).place_or_link hpath hup hleads).imp id ?_
  rintro ⟨front, others, target, hnames, hne, hlink⟩
  exact ⟨front, others, target, hnames, hne, hshape.link_iff.mp hlink⟩

end Base

/-- Below a directory only the last name can be that of a link. -/
theorem link_of_linkOn {loc front : Location} {name : RawText}
    (hdir : disk.at? (loc ++ front) = some .dir) (h : disk.LinkOn loc (front ++ [name])) :
    ∃ target, disk.at? (loc ++ (front ++ [name])) = some (.link target) := by
  obtain ⟨way, rest, target, hnames, -, hlink⟩ := h
  by_cases hrest : rest = []
  · rw [hrest, List.append_nil] at hnames
    exact ⟨target, by rw [hnames, hlink]⟩
  · -- A link before the last name would stand where a directory does.
    obtain ⟨others, last, rfl⟩ := exists_concat hrest
    rw [← List.append_assoc] at hnames
    obtain ⟨rfl, -⟩ := List.append_singleton_inj.mp hnames
    rw [← List.append_assoc] at hdir
    by_cases hothers : others = []
    · rw [hothers, List.append_nil, hlink] at hdir
      cases hdir
    · rw [at?_eq_dir_of_append hothers hdir] at hlink
      cases hlink

theorem exists_extend_join {other : Path} (hroot : root.text ≠ "") (ho : other.isAbsolute = false) :
    ∃ suffix, root.join other = root.extend suffix := by
  rw [Path.join_eq hroot ho]
  by_cases hslash : root.text.toList.getLast? = some '/'
  · exact ⟨other.text, by rw [if_pos hslash]; rfl⟩
  · exact ⟨"/" ++ other.text, by rw [if_neg hslash, Path.extend, String.append_assoc]⟩

/-- **What can be done along a joined path has a base.** -/
theorem exists_base (hw : disk.WellFormed) {other : Path} (ho : other.isAbsolute = false)
    (hne : other.text ≠ "") {purpose : Purpose} (hp : purpose ≠ .entry) {route : Route}
    {place : Place} {asked : Bool} (hroute : Route.ofPath (root.join other) = .ok route)
    (hlocate : disk.locate purpose route = .ok (place, asked)) : ∃ start, disk.Base root start := by
  obtain ⟨-, rfl⟩ := text_ne_empty_of_ofPath hroute
  by_cases hroot : root.text = ""
  · obtain ⟨entries, hstart⟩ := hw.start
    exact ⟨disk.start, at?_eq_dir_iff.mpr ⟨entries, hstart⟩, .inl ⟨hroot, rfl⟩⟩
  · obtain ⟨suffix, hextend⟩ := exists_extend_join hroot ho
    rw [hextend] at hroute
    have hrootRoute := Route.ofPath_of_extend hroot hroute
    rw [locate, Path.route_join hroot ho hne] at hlocate
    obtain ⟨found, entries, asked', hfound⟩ := exists_dir_of_follow hp (Path.steps_ne_nil ho hne)
      (Route.ofText root.text).slash hlocate
    have hfind := find_eq_ok_iff.mpr ⟨_, asked', hrootRoute, hfound, fun _ => rfl⟩
    exact ⟨found, at?_eq_dir_iff.mpr ⟨entries, get?_of_find hfind⟩, .inr ⟨_, hfind⟩⟩

/-- What can be found along a joined path has a base. -/
theorem Leads.exists_base (hw : disk.WellFormed) {other : Path} (ho : other.isAbsolute = false)
    (hne : other.text ≠ "") {found : Location} (h : disk.Leads (root.join other) found) :
    ∃ start, disk.Base root start := by
  obtain ⟨node, hfind⟩ := h
  obtain ⟨route, asked, hroute, hlocate, -⟩ := find_eq_ok_iff.mp hfind
  exact Disk.exists_base hw ho hne (by simp) hroute hlocate

/-- What can be written along a joined path has a base. -/
theorem exists_base_of_write (hw : disk.WellFormed) {other : Path} (ho : other.isAbsolute = false)
    (hne : other.text ≠ "") {content : Bytes}
    (h : disk.write (root.join other) content = .ok after) : ∃ start, disk.Base root start := by
  obtain ⟨route, place, hroute, htarget, -⟩ := write_eq_ok hw h
  obtain ⟨goal, hlocate, -⟩ :=
    target_eq_ok hw (fun name hm => Route.askable_of_mem hroute hm) htarget
  exact exists_base hw ho hne (by simp) hroute hlocate

/-! ## Names at the root -/

theorem dir_dropLast {loc : Location} (hdir : disk.at? loc = some .dir) :
    disk.at? loc.dropLast = some .dir := by
  by_cases hnil : loc = []
  · rw [hnil] at hdir ⊢
    exact hdir
  · rw [← List.dropLast_append_getLast hnil] at hdir
    exact at?_eq_dir_of_append (List.cons_ne_nil _ []) hdir

/-- The dotted names stand for directories, whatever is done there. -/
theorem Base.locate_dotted (h : disk.Base root start) {name : String}
    (hname : name = "." ∨ name = "..") (purpose : Purpose) : ∃ found entries asked,
      disk.locate purpose (Route.ofText (root.join ⟨name⟩).text) =
        .ok (.found found (.dir entries), asked) := by
  obtain ⟨entries, hget⟩ := at?_eq_dir_iff.mp h.dir
  obtain ⟨above, hget'⟩ := at?_eq_dir_iff.mp (dir_dropLast h.dir)
  have hcontinues : root.Continues (Route.ofText name).steps (root.join ⟨name⟩) := by
    obtain rfl | rfl := hname
    · exact Path.continues_join rfl (by decide)
    · exact Path.continues_join rfl (by decide)
  obtain ⟨links, heq⟩ := h.locate hcontinues purpose
  generalize (Route.ofText (root.join ⟨name⟩).text).slash = slash at heq
  rw [heq]
  obtain rfl | rfl := hname
  · have hsteps : (Route.ofText ".").steps = [.here] := by decide
    rw [hsteps]
    exact ⟨start, entries, slash,
      follow_eq_ok_iff.mpr (.inl ⟨by rw [advance_here hget, advance_nil hget], rfl⟩)⟩
  · have hsteps : (Route.ofText "..").steps = [.up] := by decide
    rw [hsteps]
    exact ⟨start.dropLast, above, slash,
      follow_eq_ok_iff.mpr (.inl ⟨by rw [advance_up hget, advance_nil hget'], rfl⟩)⟩

/-- A text without separators under which a file can be written at a root is a name: the dotted ones
stand for directories, where no file can be put. -/
theorem isName_of_write (hw : disk.WellFormed) (hbase : disk.Base root start) {name : String}
    (hne : name ≠ "") (hsep : '/' ∉ name.toList) {content : Bytes}
    (h : disk.write (root.join ⟨name⟩) content = .ok after) : Text.IsName name := by
  have hdotted : ¬ (name = "." ∨ name = "..") := by
    intro hname
    obtain ⟨route, place, hroute, htarget, -⟩ := write_eq_ok hw h
    obtain ⟨-, rfl⟩ := text_ne_empty_of_ofPath hroute
    obtain ⟨found, entries, asked, hlocate⟩ := hbase.locate_dotted hname .make
    rw [target, hlocate] at htarget
    cases asked with
    | true => cases htarget
    | false => cases htarget
  rw [not_or] at hdotted
  exact ⟨hne, hdotted.1, hdotted.2, hsep⟩

/-- Writing fails on a directory only because of what the path leads to. -/
theorem target_of_write {path : Path} {content : Bytes}
    (h : disk.write path content = .error .isDirectory) :
    disk.target (Route.ofText path.text) = .error .isDirectory := by
  unfold write at h
  cases hroute : Route.ofPath path with
  | error fault =>
      rw [hroute] at h
      obtain rfl : fault = .isDirectory := Except.error.inj h
      unfold Route.ofPath Route.ofRaw at hroute
      simp only at hroute
      split_ifs at hroute <;> cases hroute
  | ok route =>
      obtain ⟨-, rfl⟩ := text_ne_empty_of_ofPath hroute
      cases htarget : disk.target (Route.ofText path.text) with
      | error fault => simpa [hroute, htarget] using h
      | ok loc => simp [hroute, htarget] at h

/-- Writing under a name at a root fails on a directory only where one stands there, if no link
does. -/
theorem Base.dir_of_write (h : disk.Base root start) {name : String} (hname : Text.IsName name)
    (hlink : ∀ target, disk.at? (start ++ [.utf8 name]) ≠ some (.link target)) {content : Bytes}
    (hwrite : disk.write (root.join ⟨name⟩) content = .error .isDirectory) :
    disk.at? (start ++ [.utf8 name]) = some .dir := by
  obtain ⟨entries, hdir⟩ := at?_eq_dir_iff.mp h.dir
  obtain ⟨links, hlocate⟩ := h.locate (Path.continues_name hname) .make
  have htarget := target_of_write hwrite
  have hadvance := @advance_into disk.top .make false start entries [] hdir (.utf8 name)
  unfold target at htarget
  rw [hlocate, Path.slash_join_name root hname, follow] at htarget
  by_cases hlong : (RawText.utf8 name).bytes.length > Route.maxName
  · rw [if_neg (by simp), if_pos hlong] at hadvance
    simp [hadvance] at htarget
  · rw [if_neg (by simp), if_neg hlong] at hadvance
    cases hnode : disk.top.get? (start ++ [.utf8 name]) with
    | none => simp [hadvance, hnode] at htarget
    | some node =>
        cases node with
        | link target => exact absurd (at?_eq_link_iff.mpr hnode) (hlink target)
        | dir below => exact at?_eq_dir_iff.mpr ⟨below, hnode⟩
        | file held => simp [hadvance, hnode, advance_nil hnode] at htarget

end Disk

end PackageSeal
