import PackageSeal.Proofs.Disk.Through
import PackageSeal.Proofs.Disk.Walk

/-!
# Writing below a root

`Disk.Differs` compares two disks that differ in files at certain places only, such as the disk
before a run of writes and the one after it. A file elsewhere is on both (`Differs.stores`), and a
tree that can be walked on one can be walked on the other (`Differs.walkable`).

`Disk.Rooted` is what a package root keeps through all writes below it.
-/

namespace PackageSeal.Disk

/-- The second disk is of the shape of the first and differs from it at such places only. -/
structure Differs (disk : Disk) (touched : Location → Prop) (after : Disk) : Prop where
  shape : SameShape disk after
  at?_eq : ∀ {loc}, ¬ touched loc → after.at? loc = disk.at? loc

namespace Differs

variable {disk middle after : Disk} {touched touched' : Location → Prop}

theorem refl (disk : Disk) (touched : Location → Prop) : Differs disk touched disk :=
  ⟨SameShape.refl disk, fun _ => rfl⟩

theorem symm (h : Differs disk touched after) : Differs after touched disk :=
  ⟨h.shape.symm, fun hloc => (h.at?_eq hloc).symm⟩

theorem trans (h : Differs disk touched middle) (h' : Differs middle touched after) :
    Differs disk touched after :=
  ⟨h.shape.trans h'.shape, fun hloc => (h'.at?_eq hloc).trans (h.at?_eq hloc)⟩

theorem mono (h : Differs disk touched after) (hsub : ∀ loc, touched loc → touched' loc) :
    Differs disk touched' after :=
  ⟨h.shape, fun hloc => h.at?_eq fun htouched => hloc (hsub _ htouched)⟩

end Differs

variable {disk after : Disk} {touched : Location → Prop}

/-- One write touches one place. -/
theorem Overwrites.differs {loc : Location} {content : Bytes}
    (h : Overwrites disk loc content after) (hloc : touched loc) : Differs disk touched after :=
  ⟨h.sameShape, fun hother => h.at?_of_ne fun heq => hother (heq ▸ hloc)⟩

/-- The path leads to a file with this content at the place. -/
structure Stores (disk : Disk) (path : Path) (loc : Location) (content : Bytes) : Prop where
  leads : disk.Leads path loc
  at?_eq : disk.at? loc = some (.file content)

theorem Stores.read {path : Path} {loc : Location} {content : Bytes}
    (h : disk.Stores path loc content) : disk.read path = .ok content :=
  read_eq_ok_iff.mpr ⟨loc, h.leads, h.at?_eq⟩

namespace Differs

/-- A file at an untouched place stays what it is. -/
theorem stores (h : Differs disk touched after) {path : Path} {loc : Location} {content : Bytes}
    (hstores : disk.Stores path loc content) (hloc : ¬ touched loc) :
    after.Stores path loc content := by
  have hat : after.at? loc = some (.file content) := by
    rw [h.at?_eq hloc, hstores.at?_eq]
  exact ⟨hstores.leads.of_sameShape h.shape (by rw [hat]; simp), hat⟩

/-- Where every touched name is text, a tree that can be walked still can. -/
theorem walkable (h : Differs disk touched after) {root : Path} {loc : Location}
    (hwalk : Walkable disk root loc)
    (htext : ∀ rest name, touched (loc ++ (rest ++ [name])) → ∃ text, name = .utf8 text) :
    Walkable after root loc where
  short rest hdir := hwalk.short rest (h.shape.dir_iff.mp hdir)
  isText rest name item hitem := by
    by_cases htouched : touched (loc ++ (rest ++ [name]))
    · exact htext rest name htouched
    · rw [h.at?_eq htouched] at hitem
      exact hwalk.isText rest name item hitem

end Differs

/-! ## Package roots -/

/-- The disk is well-formed, the root path leads to a directory, and no link stands below it. -/
structure Rooted (disk : Disk) (root : Path) (loc : Location) : Prop where
  wellFormed : disk.WellFormed
  leads : disk.Leads root loc
  dir : disk.at? loc = some .dir
  linkFree : disk.LinkFree loc

namespace Rooted

variable {root path : Path} {loc : Location} {content : Bytes}

/-- What stands below the root is what stands there at its place. -/
theorem fileBelow_iff (h : Rooted disk root loc) {place : Location} :
    disk.FileBelow root place content ↔ disk.at? (loc ++ place) = some (.file content) := by
  constructor
  · rintro ⟨start, hleads, hat⟩
    obtain rfl := h.leads.unique hleads
    exact hat
  · intro hat
    exact ⟨loc, h.leads, hat⟩

/-- What a package root keeps when the disk keeps its shape. -/
theorem of_sameShape (h : Rooted disk root loc) (hs : SameShape disk after)
    (hw : after.WellFormed) : Rooted after root loc where
  wellFormed := hw
  leads := h.leads.of_sameShape hs (by rw [hs.dir_iff.mpr h.dir]; simp)
  dir := hs.dir_iff.mpr h.dir
  linkFree := h.linkFree.of_sameShape hs

/-- Writing along a path that goes on from the root by steps down. -/
theorem write (h : Rooted disk root loc) {rest : List Step} (hpath : root.Continues rest path)
    (hup : .up ∉ rest) (hwrite : disk.write path content = .ok after) :
    Overwrites disk (loc ++ Step.names rest) content after ∧ Rooted after root loc ∧
      after.Stores path (loc ++ Step.names rest) content := by
  obtain ⟨hover, hleads, hw⟩ :=
    write_below h.wellFormed h.leads h.linkFree hpath hup hwrite
  exact ⟨hover, h.of_sameShape hover.sameShape hw, hleads, hover.at?_self⟩

/-- Writing a file at the root itself. Only a proper name can be written. -/
theorem write_name (h : Rooted disk root loc) {name : String} (hne : name ≠ "")
    (hsep : '/' ∉ name.toList) (hwrite : disk.write (root.join ⟨name⟩) content = .ok after) :
    Text.IsName name ∧ Overwrites disk (loc ++ [.utf8 name]) content after ∧
      Rooted after root loc ∧
      after.Stores (root.join ⟨name⟩) (loc ++ [.utf8 name]) content := by
  have hname := isName_of_write h.wellFormed (h.leads.base h.dir) hne hsep hwrite
  exact ⟨hname, h.write (Path.continues_name hname) (by simp) hwrite⟩

/-- Writing a file below the root by its names. -/
theorem write_descend (h : Rooted disk root loc) {texts : List String} (hne : texts ≠ [])
    (htexts : ∀ text ∈ texts, Text.IsName text)
    (hwrite : disk.write (root.descend (Path.names texts)) content = .ok after) :
    Overwrites disk (loc ++ Path.names texts) content after ∧ Rooted after root loc ∧
      after.Stores (root.descend (Path.names texts)) (loc ++ Path.names texts) content := by
  have hup : .up ∉ (Path.names texts).map Step.into := by simp
  have hwritten :=
    h.write (Path.continues_descend h.leads.text_ne_empty htexts hne) hup hwrite
  rwa [Step.names_map_into] at hwritten

/-- What is read below the root by its names stands there at its place. -/
theorem stores_descend (h : Rooted disk root loc) {texts : List String} (hne : texts ≠ [])
    (htexts : ∀ text ∈ texts, Text.IsName text)
    (hread : disk.read (root.descend (Path.names texts)) = .ok content) :
    disk.Stores (root.descend (Path.names texts)) (loc ++ Path.names texts) content := by
  obtain ⟨found, hleads, hat⟩ := read_eq_ok_iff.mp hread
  have hup : .up ∉ (Path.names texts).map Step.into := by simp
  obtain rfl := h.leads.below h.linkFree
    (Path.continues_descend h.leads.text_ne_empty htexts hne) hup hleads
  rw [Step.names_map_into] at hleads hat
  exact ⟨hleads, hat⟩

end Rooted

end PackageSeal.Disk
