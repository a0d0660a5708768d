import PackageSeal.Proofs.Disk.Walk

/-!
# Small disks

Disks to show statements on: with regular files at the top and nothing else, or with a package in a
directory, which can hold links.
-/

namespace PackageSeal

namespace Node

/-- A directory with entries under these texts. -/
def named (entries : List (String × Node)) : Node :=
  .dir (entries.map fun entry => (.utf8 entry.1, entry.2))

/-- A directory is well-formed if the texts are different, and names that entries can have. -/
theorem wellFormed_named {entries : List (String × Node)} (names : List String)
    (hentries : entries.map Prod.fst = names) (hnodup : names.Nodup)
    (hnames : ∀ name ∈ names, name ≠ "" ∧ name ≠ "." ∧ name ≠ ".." ∧ '/' ∉ name.toList ∧
      '\x00' ∉ name.toList ∧ name.utf8ByteSize ≤ Route.maxName)
    (hchildren : ∀ entry ∈ entries, entry.2.WellFormed) : (named entries).WellFormed := by
  subst hentries
  rw [named, wellFormed_dir_iff]
  constructor
  · constructor
    · have hmap : (entries.map fun entry => (RawText.utf8 entry.1, entry.2)).map Prod.fst =
          (entries.map Prod.fst).map RawText.utf8 := by
        rw [List.map_map, List.map_map]
        rfl
      rw [hmap]
      exact List.Nodup.map (fun _ _ heq => RawText.utf8.inj heq) hnodup
    · intro entry hentry
      obtain ⟨file, hfile, rfl⟩ := List.mem_map.mp hentry
      obtain ⟨hne, hdot, hdots, hsep, hnul, hshort⟩ := hnames _ (List.mem_map_of_mem hfile)
      have haskable := RawText.askable_utf8 hne hdot hdots hsep hnul
      exact haskable.isName (by rw [RawText.bytes_utf8, length_utf8]; exact hshort)
  · intro name child hchild
    obtain ⟨entry, hentry, heq⟩ := List.mem_map.mp hchild
    rw [← (Prod.mk.inj heq).2]
    exact hchildren entry hentry

theorem wellFormed_link {text : String} (hne : text ≠ "") (hnul : '\x00' ∉ text.toList)
    (hshort : text.utf8ByteSize ≤ Route.maxLength) : (link (.utf8 text)).WellFormed := by
  rintro ⟨loc, node⟩ hplace
  rw [all, inside, List.mem_singleton, Prod.mk.injEq] at hplace
  rw [hplace.2]
  exact ⟨fun hnil => hne (utf8_eq_nil_iff.mp hnil),
    fun hmem => hnul ((mem_utf8_iff (c := '\x00') (by decide)).mp hmem),
    by rw [RawText.bytes_utf8, length_utf8]; exact hshort, RawText.ofBytes_utf8 text⟩

/-- A walk of a directory without further directories meets its files in turn. -/
theorem filesBelow_named {entries : List (String × Node)}
    (h : ∀ entry ∈ entries, entry.2.inside = []) (root : Path) :
    (named entries).filesBelow root =
      (entries.filter fun entry => entry.2.isFile).map fun entry => root.join ⟨entry.1⟩ := by
  rw [named, filesBelow, inside]
  induction entries with
  | nil => rfl
  | cons entry rest ih =>
      rw [List.forall_mem_cons] at h
      rw [List.map_cons, insideEntries, List.filterMap_append, ih h.2, insideEntry, h.1]
      by_cases hfile : entry.2.isFile = true
      · simp [hfile, Path.descend, RawText.shown]
      · simp [hfile]

end Node

namespace Disk

/-- A disk with the given files at the top, where relative paths start. -/
def flat (files : List (String × Bytes)) : Disk :=
  ⟨.dir (files.map fun file => (.utf8 file.1, .file file.2)), []⟩

variable {files : List (String × Bytes)}

theorem top_flat (files : List (String × Bytes)) :
    (flat files).top = .named (files.map fun file => (file.1, .file file.2)) := by
  rw [flat, Node.named, List.map_map]
  rfl

/-- A flat disk is well-formed if its files have different names, and names that entries can
have. -/
theorem flat_wellFormed (names : List String) (hfiles : files.map Prod.fst = names)
    (hnodup : names.Nodup)
    (hnames : ∀ name ∈ names, name ≠ "" ∧ name ≠ "." ∧ name ≠ ".." ∧ '/' ∉ name.toList ∧
      '\x00' ∉ name.toList ∧ name.utf8ByteSize ≤ Route.maxName) : (flat files).WellFormed where
  top := by
    rw [top_flat]
    refine Node.wellFormed_named names ?_ hnodup hnames fun entry hentry => ?_
    · rw [← hfiles, List.map_map]
      rfl
    · obtain ⟨file, -, rfl⟩ := List.mem_map.mp hentry
      exact Node.wellFormed_file file.2
  start := ⟨_, rfl⟩

/-- On a flat disk stand the top and its files. -/
theorem at?_flat_eq_some {loc : Location} {item : Item} (h : (flat files).at? loc = some item) :
    (loc = [] ∧ item = .dir) ∨
      ∃ file ∈ files, loc = [.utf8 file.1] ∧ item = .file file.2 := by
  obtain ⟨node, hnode, rfl⟩ := Option.map_eq_some_iff.mp h
  cases loc with
  | nil =>
      rw [Node.get?_nil, Option.some.injEq] at hnode
      exact .inl ⟨rfl, by rw [← hnode]; rfl⟩
  | cons name rest =>
      rw [flat, Node.get?_cons, Node.child?_dir] at hnode
      obtain ⟨child, hchild, hrest⟩ := Option.bind_eq_some_iff.mp hnode
      have hmem : (name, child) ∈
          files.map fun file => (RawText.utf8 file.1, Node.file file.2) := by
        obtain ⟨front, back, hsplit, -⟩ := List.lookup_eq_some_iff.mp hchild
        rw [hsplit]
        exact List.mem_append_right front List.mem_cons_self
      obtain ⟨file, hfile, heq⟩ := List.mem_map.mp hmem
      obtain ⟨rfl, rfl⟩ := Prod.mk.inj heq
      cases rest with
      | nil =>
          rw [Node.get?_nil, Option.some.injEq] at hrest
          exact .inr ⟨file, hfile, rfl, by rw [← hrest]; rfl⟩
      | cons next others => simp [Node.child?] at hrest

/-- A walk of a flat disk meets its files in turn. -/
theorem filesBelow_flat (files : List (String × Bytes)) (root : Path) :
    (flat files).top.filesBelow root = files.map fun file => root.join ⟨file.1⟩ := by
  rw [top_flat, Node.filesBelow_named, List.filter_eq_self.mpr, List.map_map]
  · rfl
  · intro entry hentry
    obtain ⟨file, -, rfl⟩ := List.mem_map.mp hentry
    rfl
  · intro entry hentry
    obtain ⟨file, -, rfl⟩ := List.mem_map.mp hentry
    rw [Node.inside]

/-- What a walk of a flat disk finds. -/
theorem filesUnder_flat (names : List String) (hfiles : files.map Prod.fst = names)
    (hfault : (flat files).top.walkFault? ⟨"."⟩ = none) :
    (flat files).filesUnder ⟨"."⟩ =
      .ok (Path.sort (names.map fun name => Path.join ⟨"."⟩ ⟨name⟩)) := by
  have hdir : (flat files).directory ⟨"."⟩ = .ok (flat files).top := rfl
  rw [filesUnder, hdir, ← hfiles, List.map_map]
  simp only [hfault, filesBelow_flat]
  rfl

/-- A flat disk holds no link. -/
theorem flat_linkFree (loc : Location) : (flat files).LinkFree loc := by
  intro rest target h
  obtain ⟨-, hitem⟩ | ⟨file, -, -, hitem⟩ := at?_flat_eq_some h
  · cases hitem
  · cases hitem

/-! ## Packages with links -/

/-- A disk with a package in the directory `p`, and a file `v` beside it. -/
def packaged (entries : List (String × Node)) (content : Bytes) : Disk :=
  ⟨.named [("p", .named entries), ("v", .file content)], []⟩

theorem packaged_wellFormed {entries : List (String × Node)} {content : Bytes}
    (h : (Node.named entries).WellFormed) : (packaged entries content).WellFormed where
  top := by
    refine Node.wellFormed_named ["p", "v"] rfl (by decide) (by decide) ?_
    rw [List.forall_mem_cons, List.forall_mem_singleton]
    exact ⟨h, Node.wellFormed_file content⟩
  start := ⟨_, rfl⟩

/-- What a walk of the package finds. -/
theorem filesUnder_packaged {entries : List (String × Node)} {content : Bytes} (names : List String)
    (hfiles : (entries.filter fun entry => entry.2.isFile).map Prod.fst = names)
    (h : ∀ entry ∈ entries, entry.2.inside = [])
    (hfault : (Node.named entries).walkFault? ⟨"p"⟩ = none) :
    (packaged entries content).filesUnder ⟨"p"⟩ =
      .ok (Path.sort (names.map fun name => Path.join ⟨"p"⟩ ⟨name⟩)) := by
  have hdir : (packaged entries content).directory ⟨"p"⟩ = .ok (.named entries) := rfl
  rw [filesUnder, hdir, ← hfiles, List.map_map]
  simp only [hfault, Node.filesBelow_named h]
  rfl

end Disk

end PackageSeal
