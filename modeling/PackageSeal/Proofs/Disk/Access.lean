import PackageSeal.Proofs.Disk.Resolution

/-!
# Where paths lead

`Disk.Leads` says that a path leads to something at a place. What a path leads to is what stands at
that place, so reading a file is a matter of the place alone (`read_eq_ok_iff`).

A path that leads somewhere leads there on a disk of the same shape too, if anything is there
(`Leads.of_sameShape`). Writing along a path changes the one place to which the path leads from then
on, and leaves a well-formed disk (`write_eq_ok`).
-/

namespace PackageSeal.Disk

variable {disk after : Disk}

/-! ## What paths lead to -/

/-- The path leads to something at the place. -/
def Leads (disk : Disk) (path : Path) (loc : Location) : Prop :=
  ∃ node, disk.find path = .ok (loc, node)

/-- What is looked up is found, and a directory if one is asked for. -/
theorem lookup_eq_ok_iff {purpose : Purpose} {route : Route} {loc : Location} {node : Node} :
    disk.lookup purpose route = .ok (loc, node) ↔
      ∃ slash, disk.locate purpose route = .ok (.found loc node, slash) ∧
        (slash = true → node.isDir = true) := by
  unfold lookup
  cases disk.locate purpose route with
  | error e => simp
  | ok result =>
      obtain ⟨place, slash⟩ := result
      cases place with
      | vacant parent name => simp
      | found other node' =>
          simp only [Except.ok.injEq, Prod.mk.injEq, Place.found.injEq]
          by_cases hslash : slash && !node'.isDir
          · rw [if_pos hslash]
            rw [Bool.and_eq_true, Bool.not_eq_true'] at hslash
            simp only [reduceCtorEq, false_iff]
            rintro ⟨_, ⟨⟨rfl, rfl⟩, rfl⟩, hdir⟩
            rw [hdir hslash.1] at hslash
            exact absurd hslash.2 (by simp)
          · rw [if_neg hslash]
            simp only [Bool.and_eq_true, Bool.not_eq_true', not_and, Bool.not_eq_false]
              at hslash
            constructor
            · intro h
              obtain ⟨rfl, rfl⟩ := Prod.mk.inj (Except.ok.inj h)
              exact ⟨slash, ⟨⟨rfl, rfl⟩, rfl⟩, hslash⟩
            · rintro ⟨_, ⟨⟨rfl, rfl⟩, rfl⟩, -⟩
              rfl

theorem find_eq_ok_iff {path : Path} {loc : Location} {node : Node} :
    disk.find path = .ok (loc, node) ↔
      ∃ route slash, Route.ofPath path = .ok route ∧
        disk.locate .reach route = .ok (.found loc node, slash) ∧
        (slash = true → node.isDir = true) := by
  unfold find
  cases Route.ofPath path with
  | error e => simp
  | ok route =>
      simp only [lookup_eq_ok_iff, Except.ok.injEq, exists_and_left, exists_eq_left']

theorem get?_of_find {path : Path} {loc : Location} {node : Node}
    (h : disk.find path = .ok (loc, node)) : disk.top.get? loc = some node := by
  obtain ⟨route, slash, -, hlocate, -⟩ := find_eq_ok_iff.mp h
  exact get?_of_follow (by simp) hlocate

theorem Leads.unique {path : Path} {loc loc' : Location} (h : disk.Leads path loc)
    (h' : disk.Leads path loc') : loc = loc' := by
  obtain ⟨node, hnode⟩ := h
  obtain ⟨node', hnode'⟩ := h'
  rw [hnode, Except.ok.injEq, Prod.mk.injEq] at hnode'
  exact hnode'.1

/-- A path to a place leads to the node that stands there. -/
theorem Leads.find_eq {path : Path} {loc : Location} {node : Node} (h : disk.Leads path loc)
    (hnode : disk.top.get? loc = some node) : disk.find path = .ok (loc, node) := by
  obtain ⟨found, hfound⟩ := h
  have hget := get?_of_find hfound
  rw [hnode, Option.some.injEq] at hget
  rw [hfound, hget]

/-- Reading a file gives what stands at the place that the path leads to. -/
theorem read_eq_ok_iff {path : Path} {content : Bytes} :
    disk.read path = .ok content ↔
      ∃ loc, disk.Leads path loc ∧ disk.at? loc = some (.file content) := by
  constructor
  · intro h
    unfold read at h
    cases hfind : disk.find path with
    | error e => simp [hfind] at h
    | ok found =>
        obtain ⟨loc, node⟩ := found
        simp only [hfind] at h
        have hget := get?_of_find hfind
        cases node with
        | file other =>
            obtain rfl : other = content := Except.ok.inj h
            exact ⟨loc, ⟨_, hfind⟩, at?_eq_file_iff.mpr hget⟩
        | link target => cases h
        | dir entries => cases h
  · rintro ⟨loc, hleads, hat⟩
    rw [read, hleads.find_eq (at?_eq_file_iff.mp hat)]
    rfl

/-- There is a regular file exactly where one can be read. -/
theorem isFile_iff {path : Path} :
    disk.isFile path = true ↔ ∃ content, disk.read path = .ok content := by
  constructor
  · intro h
    unfold isFile at h
    cases hfind : disk.find path with
    | error e => simp [hfind] at h
    | ok found =>
        obtain ⟨loc, node⟩ := found
        simp only [hfind] at h
        cases node with
        | file content => exact ⟨content, by rw [read, hfind]; rfl⟩
        | link target => cases h
        | dir entries => cases h
  · rintro ⟨content, h⟩
    obtain ⟨loc, hleads, hat⟩ := read_eq_ok_iff.mp h
    rw [isFile, hleads.find_eq (at?_eq_file_iff.mp hat)]
    rfl

/-- What leads somewhere leads there on a disk of the same shape, if anything is there. -/
theorem Leads.of_sameShape (hs : SameShape disk after) {path : Path} {loc : Location}
    (h : disk.Leads path loc) (hgoal : after.at? loc ≠ none) : after.Leads path loc := by
  obtain ⟨node, hfind⟩ := h
  have hget := get?_of_find hfind
  obtain ⟨route, slash, hroute, hlocate, hslash⟩ := find_eq_ok_iff.mp hfind
  obtain ⟨node', hlocate'⟩ := follow_of_sameShape hs hlocate hgoal
  rw [← hs.start_eq] at hlocate'
  refine ⟨node', find_eq_ok_iff.mpr ⟨route, slash, hroute, hlocate', fun h => ?_⟩⟩
  cases node with
  | file content => cases hslash h
  | link target => cases hslash h
  | dir entries =>
      obtain ⟨entries', hget'⟩ :=
        at?_eq_dir_iff.mp (hs.dir_iff.mpr (at?_eq_dir_iff.mpr ⟨_, hget⟩))
      have hfound := get?_of_follow (by simp) hlocate'
      rw [Place.loc, hget', Option.some.injEq] at hfound
      rw [← hfound]
      rfl

/-! ## Writing along a path -/

/-- The top of a disk on which relative paths start somewhere is a directory. -/
theorem WellFormed.top_dir (hw : disk.WellFormed) : ∃ entries, disk.top = .dir entries := by
  obtain ⟨entries, hstart⟩ := hw.start
  cases hloc : disk.start with
  | nil =>
      rw [hloc, Node.get?_nil, Option.some.injEq] at hstart
      exact ⟨entries, hstart⟩
  | cons name rest =>
      have hdir : disk.at? [] = some .dir :=
        at?_eq_dir_of_append (List.cons_ne_nil name rest) (by
          rw [List.nil_append, ← hloc]
          exact at?_eq_dir_iff.mpr ⟨entries, hstart⟩)
      obtain ⟨entries', htop⟩ := at?_eq_dir_iff.mp hdir
      exact ⟨entries', by simpa using htop⟩

/-- The directories of a well-formed disk are well-formed. -/
theorem WellFormed.entries (hw : disk.WellFormed) {loc : Location} {entries : Entries}
    (hdir : disk.top.get? loc = some (.dir entries)) : Entries.WellFormed entries :=
  hw.top (loc, .dir entries) ((Node.mem_all_iff hw.top).mpr hdir)

/-- What stands below the top stands there as an entry of a directory, under a proper name. -/
theorem WellFormed.entry (hw : disk.WellFormed) {front : Location} {name : RawText} {node : Node}
    (hget : disk.top.get? (front ++ [name]) = some node) : name.IsName ∧
      ∃ entries, disk.top.get? front = some (.dir entries) ∧ (name, node) ∈ entries ∧
        entries.lookup name = some node := by
  have hat : disk.at? (front ++ [name]) = some node.item := by
    rw [at?, hget]
    rfl
  obtain ⟨entries, hdir⟩ := at?_eq_dir_iff.mp (at?_eq_dir_of_append (List.cons_ne_nil name []) hat)
  have hlookup : entries.lookup name = some node := by
    rw [← Node.get?_snoc name hdir, hget]
  have hmem := (Entries.lookup_eq_some_iff (hw.entries hdir).nodup).mp hlookup
  exact ⟨(hw.entries hdir).isName _ hmem, entries, hdir, hmem, hlookup⟩

/-- Where writing along a route puts a file, an entry of a directory can be a file: the name is free
or a file's. -/
theorem target_eq_ok (hw : disk.WellFormed) {route : Route} {loc : Location}
    (hask : ∀ name, .into name ∈ route.steps → name.Askable) (h : disk.target route = .ok loc) :
    ∃ place, disk.locate .make route = .ok (place, false) ∧ place.loc = loc ∧
      ∃ front name entries, loc = front ++ [name] ∧ name.IsName ∧
        disk.top.get? front = some (.dir entries) ∧
        ∀ old, entries.lookup name = some old → ∃ content, old = .file content := by
  unfold target at h
  cases hlocate : disk.locate .make route with
  | error e => simp [hlocate] at h
  | ok result =>
      obtain ⟨place, asked⟩ := result
      cases asked with
      | true => simp [hlocate] at h
      | false =>
          refine ⟨place, rfl, ?_⟩
          cases place with
          | vacant parent name =>
              simp only [hlocate, Except.ok.injEq] at h
              obtain ⟨hname, entries, hdir, hfree⟩ := vacant_of_follow (by simp) hask hlocate
              refine ⟨h, parent, name, entries, h.symm, hname, hdir, fun old hold => ?_⟩
              rw [hfree] at hold
              cases hold
          | found other node =>
              have hget := get?_of_follow (by simp) hlocate
              cases node with
              | link target => simp [hlocate] at h
              | dir entries => simp [hlocate] at h
              | file content =>
                  simp only [hlocate, Except.ok.injEq] at h
                  subst h
                  refine ⟨rfl, ?_⟩
                  -- The place is not the top, which is a directory, so it has a last name.
                  have hne : other ≠ [] := by
                    intro hnil
                    obtain ⟨entries, htop⟩ := hw.top_dir
                    rw [hnil, Node.get?_nil, htop] at hget
                    cases hget
                  obtain ⟨front, name, rfl⟩ := exists_concat hne
                  obtain ⟨hname, entries, hdir, -, hlookup⟩ := hw.entry hget
                  refine ⟨front, name, entries, rfl, hname, hdir, fun old hold => ?_⟩
                  rw [hlookup, Option.some.injEq] at hold
                  exact ⟨content, hold.symm⟩

/-- **Writing a file changes the one place to which the path leads from then on**, and leaves a
well-formed disk. -/
theorem write_eq_ok (hw : disk.WellFormed) {path : Path} {content : Bytes}
    (h : disk.write path content = .ok after) :
    ∃ route loc, Route.ofPath path = .ok route ∧ disk.target route = .ok loc ∧
      Overwrites disk loc content after ∧ after.Leads path loc ∧ after.WellFormed := by
  unfold write at h
  cases hroute : Route.ofPath path with
  | error e => simp [hroute] at h
  | ok route =>
      simp only [hroute] at h
      cases htarget : disk.target route with
      | error e => simp [htarget] at h
      | ok loc =>
          simp only [htarget, Except.ok.injEq] at h
          obtain ⟨place, hlocate, rfl, front, name, entries, hloc, hname, hdir, hold⟩ :=
            target_eq_ok hw (fun name hm => Route.askable_of_mem hroute hm) htarget
          have hover : Overwrites disk place.loc content after := by
            rw [← h, hloc]
            exact overwrites_put hdir hold content
          refine ⟨route, place.loc, rfl, htarget, hover, ?_, ?_⟩
          · obtain ⟨node, hfollow⟩ := follow_of_sameShape hover.sameShape
              (follow_reach_of_make hlocate) (by rw [hover.at?_self]; simp)
            rw [← hover.start_eq] at hfollow
            exact ⟨node, find_eq_ok_iff.mpr ⟨route, false, hroute, hfollow, by simp⟩⟩
          · constructor
            · rw [← h, hloc]
              exact hw.top.put hdir hname content
            · obtain ⟨entries', hstart⟩ := hw.start
              rw [hover.start_eq]
              exact at?_eq_dir_iff.mp (hover.sameShape.dir_iff.mpr (at?_eq_dir_iff.mpr ⟨_, hstart⟩))

/-- What was written is what is read. -/
theorem read_of_write (hw : disk.WellFormed) {path : Path} {content : Bytes}
    (h : disk.write path content = .ok after) : after.read path = .ok content := by
  obtain ⟨-, loc, -, -, hover, hleads, -⟩ := write_eq_ok hw h
  exact read_eq_ok_iff.mpr ⟨loc, hleads, hover.at?_self⟩

end PackageSeal.Disk
