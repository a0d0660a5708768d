import Mathlib.Algebra.Ring.Nat
import PackageSeal.Proofs.Disk.Flat

/-!
# Listing directories in any order

`Disk.filesUnder` reads the files off the tree. Here is the walk that finds them from outside: the
paths of the directories to be listed are kept on a stack, and one round lists the directory on top,
whose entries come in whatever order the host gives them (`Walk.Step`). Links are passed over.

* `Walk.Covers` is what every round keeps: the files found and those below the pending directories
  are the files of the tree, and so many directories are left to be listed.
* `Covers.step`, `Covers.exists_step`: a round does not fail, keeps that and leaves one directory
  less; and there is a round as long as a directory is pending.
* `Covers.run`: so does a run of rounds.

Together: every run ends after as many rounds as there are directories, with the files that
`filesUnder` lists, whatever the orders were (`walk_exact`).
-/

namespace PackageSeal

/-! ## Rounds -/

/-- A walk under way: the paths of the directories to be listed, the next one first, and those of
the files found. -/
structure Walk where
  pending : List Path
  files : List Path

namespace Walk

/-- A walk from a root. -/
def start (root : Path) : Walk :=
  ⟨[root], []⟩

/-- Take in one entry of the directory at a path. -/
def take (dir : Path) (walk : Walk) (entry : RawText × Node) : Except IoError Walk :=
  match entry with
  | (.octets bytes, _) => .error (.notUtf8Path (dir.join ⟨Text.readable bytes⟩).text)
  | (.utf8 name, .dir _) => .ok { walk with pending := dir.join ⟨name⟩ :: walk.pending }
  | (.utf8 name, .file _) => .ok { walk with files := walk.files ++ [dir.join ⟨name⟩] }
  | (.utf8 _, .link _) => .ok walk

/-- List the directory at a path, its entries in this order. -/
def list (dir : Path) (entries : Entries) (walk : Walk) : Except (Path × IoError) Walk :=
  (entries.foldlM (take dir) walk).mapError fun cause => (dir, cause)

/-- One round: the next directory is listed, its entries in any order; or it cannot be. -/
inductive Step (disk : Disk) : Walk → Except (Path × IoError) Walk → Prop where
  | refused {dir : Path} {pending files : List Path} {cause : IoError}
      (hdir : disk.directory dir = .error cause) :
      Step disk ⟨dir :: pending, files⟩ (.error (dir, cause))
  | listed {dir : Path} {pending files : List Path} {entries order : Entries}
      (hdir : disk.directory dir = .ok (.dir entries)) (horder : order.Perm entries) :
      Step disk ⟨dir :: pending, files⟩ (list dir order ⟨pending, files⟩)

/-- So many rounds one after the other. -/
inductive Run (disk : Disk) : Walk → Nat → Walk → Prop where
  | done (walk : Walk) : Run disk walk 0 walk
  | round {walk next last : Walk} {rounds : Nat} (hstep : Step disk walk (.ok next))
      (hrest : Run disk next rounds last) : Run disk walk (rounds + 1) last

/-! ## Entries of a directory -/

/-- A directory of a tree: the names that lead there, and its entries. -/
abbrev Dir : Type :=
  List String × Entries

/-- The path that descends by names. -/
def pathTo (root : Path) (texts : List String) : Path :=
  root.descend (Path.names texts)

/-- The files below a directory. -/
def filesFrom (root : Path) (place : Dir) : List Path :=
  (Node.dir place.2).filesBelow (pathTo root place.1)

/-- How many directories there are in a tree. -/
def countDirs (node : Node) : Nat :=
  node.all.countP fun place => place.2.isDir

/-- The files among the entries of the directory at a path. -/
def filesOf (dir : Path) (entries : Entries) : List Path :=
  entries.filterMap fun entry => if entry.2.isFile then some (dir.join ⟨entry.1.shown⟩) else none

/-- The directories among the entries of the directory to which the names lead. -/
def dirsOf (texts : List String) (entries : Entries) : List Dir :=
  entries.filterMap fun entry =>
    match entry with
    | (.utf8 name, .dir inner) => some (texts ++ [name], inner)
    | _ => none

/-- Every entry has a text as its name. -/
def AllText (entries : Entries) : Prop :=
  ∀ entry ∈ entries, ∃ name, entry.1 = .utf8 name

theorem pathTo_concat (root : Path) (texts : List String) (name : String) :
    pathTo root (texts ++ [name]) = (pathTo root texts).join ⟨name⟩ := by
  rw [pathTo, Path.names, List.map_append, List.map_singleton, Path.descend_concat]
  rfl

/-- Listing a directory puts its directories on the stack and its files behind those found. -/
theorem list_eq (root : Path) (texts : List String) {order : Entries} (htext : AllText order)
    (walk : Walk) :
    list (pathTo root texts) order walk =
      .ok ⟨((dirsOf texts order).map fun place => pathTo root place.1).reverse ++ walk.pending,
        walk.files ++ filesOf (pathTo root texts) order⟩ := by
  induction order generalizing walk with
  | nil => simp [list, dirsOf, filesOf, pure, Except.pure, Except.mapError]
  | cons entry rest ih =>
      obtain ⟨⟨name, hname⟩, hrest⟩ := List.forall_mem_cons.mp htext
      obtain ⟨raw, node⟩ := entry
      obtain rfl : raw = .utf8 name := hname
      have hstep : ∀ next, take (pathTo root texts) walk (.utf8 name, node) = .ok next →
          list (pathTo root texts) ((.utf8 name, node) :: rest) walk =
            list (pathTo root texts) rest next := by
        intro next hnext
        rw [list, List.foldlM_cons, hnext]
        rfl
      cases node with
      | file content =>
          rw [hstep _ rfl, ih hrest]
          simp [dirsOf, filesOf, Node.isFile, RawText.shown]
      | link target =>
          rw [hstep _ rfl, ih hrest]
          simp [dirsOf, filesOf, Node.isFile]
      | dir inner =>
          rw [hstep _ rfl, ih hrest]
          simp [dirsOf, filesOf, Node.isFile, pathTo_concat]

/-- The files below the entries of a directory, entry by entry. -/
theorem filesBelow_cons (path : Path) (name : RawText) (node : Node) (rest : Entries) :
    (Node.dir ((name, node) :: rest)).filesBelow path =
      (if node.isFile then [path.join ⟨name.shown⟩] else []) ++
        node.filesBelow (path.join ⟨name.shown⟩) ++ (Node.dir rest).filesBelow path := by
  have hbelow : ∀ places : List (Location × Node),
      (places.map fun place => (name :: place.1, place.2)).filterMap
          (fun place => if place.2.isFile then some (path.descend place.1) else none) =
        places.filterMap fun place =>
          if place.2.isFile then some ((path.join ⟨name.shown⟩).descend place.1) else none := by
    intro places
    rw [List.filterMap_map]
    rfl
  simp only [Node.filesBelow, Node.inside, Node.insideEntries, Node.insideEntry,
    List.filterMap_append, List.filterMap_cons, hbelow]
  by_cases hfile : node.isFile = true
  · rw [if_pos hfile, if_pos hfile]
    rfl
  · rw [if_neg hfile, if_neg hfile]
    rfl

/-- The files below a directory are those among its entries and those below its directories. -/
theorem filesFrom_perm (root : Path) (texts : List String) {entries : Entries}
    (htext : AllText entries) :
    (filesFrom root (texts, entries)).Perm
      (filesOf (pathTo root texts) entries ++ (dirsOf texts entries).flatMap (filesFrom root)) := by
  induction entries with
  | nil => exact List.Perm.refl []
  | cons entry rest ih =>
      obtain ⟨⟨name, hname⟩, hrest⟩ := List.forall_mem_cons.mp htext
      obtain ⟨raw, node⟩ := entry
      obtain rfl : raw = .utf8 name := hname
      have hcons : filesFrom root (texts, (.utf8 name, node) :: rest) = _ :=
        filesBelow_cons (pathTo root texts) (.utf8 name) node rest
      rw [hcons]
      cases node with
      | file content => exact (ih hrest).cons _
      | link target => exact ih hrest
      | dir inner =>
          -- What is below the entry comes before the other files.
          have hinner : (Node.dir inner).filesBelow ((pathTo root texts).join ⟨name⟩) =
              filesFrom root (texts ++ [name], inner) := by
            rw [filesFrom, pathTo_concat]
          have hdirs : dirsOf texts ((.utf8 name, .dir inner) :: rest) =
              (texts ++ [name], inner) :: dirsOf texts rest := rfl
          have hfiles : filesOf (pathTo root texts) ((.utf8 name, .dir inner) :: rest) =
              filesOf (pathTo root texts) rest := rfl
          rw [hdirs, hfiles, List.flatMap_cons, ← hinner]
          exact ((ih hrest).append_left _).trans (List.perm_append_comm_assoc ..)

/-- The directories of a tree are its top and those of the directories among its entries. -/
theorem countDirs_dir (texts : List String) {entries : Entries} (htext : AllText entries) :
    countDirs (.dir entries) =
      1 + ((dirsOf texts entries).map fun place => countDirs (.dir place.2)).sum := by
  induction entries with
  | nil => rfl
  | cons entry rest ih =>
      obtain ⟨⟨name, hname⟩, hrest⟩ := List.forall_mem_cons.mp htext
      obtain ⟨raw, node⟩ := entry
      obtain rfl : raw = .utf8 name := hname
      have hcount : countDirs (.dir ((.utf8 name, node) :: rest)) =
          countDirs node + countDirs (.dir rest) := by
        simp only [countDirs, Node.all, Node.inside, Node.insideEntries, Node.insideEntry,
          List.countP_cons, List.countP_append, List.countP_map, Function.comp_def, Node.isDir]
        omega
      rw [hcount, ih hrest]
      cases node with
      | file content => exact Nat.zero_add _
      | link target => exact Nat.zero_add _
      | dir inner =>
          have hdirs : dirsOf texts ((.utf8 name, .dir inner) :: rest) =
              (texts ++ [name], inner) :: dirsOf texts rest := rfl
          rw [hdirs, List.map_cons, List.sum_cons]
          exact Nat.add_left_comm _ _ _

theorem mem_dirsOf {texts : List String} {entries : Entries} {place : Dir} :
    place ∈ dirsOf texts entries ↔ ∃ name inner, (.utf8 name, .dir inner) ∈ entries ∧
      place = (texts ++ [name], inner) := by
  rw [dirsOf, List.mem_filterMap]
  constructor
  · rintro ⟨⟨raw, node⟩, hentry, hplace⟩
    split at hplace
    · next name inner heq =>
      rw [Option.some.injEq] at hplace
      exact ⟨name, inner, heq ▸ hentry, hplace.symm⟩
    · cases hplace
  · rintro ⟨name, inner, hentry, rfl⟩
    exact ⟨_, hentry, rfl⟩

end Walk

/-! ## Directories below a root -/

namespace Disk

variable {disk : Disk} {root : Path} {loc : Location}

/-- What a directory of a tree that can be walked holds, entry by entry. -/
theorem Walkable.entry (hw : disk.WellFormed) (hwalk : disk.Walkable root loc) {texts : List String}
    {entries : Entries} (hget : disk.top.get? (loc ++ Path.names texts) = some (.dir entries)) :
    ∀ entry ∈ entries, ∃ name, entry.1 = .utf8 name ∧ Text.IsName name ∧
      disk.top.get? (loc ++ Path.names (texts ++ [name])) = some entry.2 := by
  intro entry hentry
  have hchild : disk.top.get? (loc ++ Path.names texts ++ [entry.1]) = some entry.2 := by
    rw [Node.get?_snoc entry.1 hget]
    exact (Entries.lookup_eq_some_iff (hw.entries hget).nodup).mpr hentry
  have hat : disk.at? (loc ++ Path.names texts ++ [entry.1]) = some entry.2.item := by
    rw [at?, hchild]
    rfl
  have hname := isName_of_at? hw hat
  rw [List.append_assoc] at hat hchild
  obtain ⟨name, htext⟩ := hwalk.isText _ _ _ hat
  rw [htext] at hname hchild
  exact ⟨name, htext, hname.text, by rw [Path.names, List.map_append]; exact hchild⟩

/-- The path that descends to a directory of a tree that can be walked opens that directory. -/
theorem Walkable.directory (hw : disk.WellFormed) (hleads : disk.Leads root loc)
    (hwalk : disk.Walkable root loc) {texts : List String}
    (htexts : ∀ text ∈ texts, Text.IsName text) {entries : Entries}
    (hget : disk.top.get? (loc ++ Path.names texts) = some (.dir entries)) :
    disk.directory (Walk.pathTo root texts) = .ok (.dir entries) := by
  have hfind : disk.find (Walk.pathTo root texts) =
      .ok (loc ++ Path.names texts, .dir entries) := by
    by_cases hne : texts = []
    · subst hne
      obtain ⟨node, hfind⟩ := hleads
      have hnode := get?_of_find hfind
      rw [Path.names, List.map_nil, List.append_nil] at hget ⊢
      rw [hget, Option.some.injEq] at hnode
      rw [hnode]
      exact hfind
    · have hat : disk.at? (loc ++ Path.names texts) = some .dir :=
        at?_eq_dir_iff.mpr ⟨entries, hget⟩
      have hroute := route_descend hw hleads htexts hat (hwalk.short _ hat)
      exact find_descend hw hleads hne htexts hget (by simp) hroute
  rw [Disk.directory, hfind]
  rfl

end Disk

namespace Walk

variable {disk : Disk} {root : Path} {loc : Location} {node : Node}

/-! ## What every round keeps -/

/-- What is known of a walk below a root: the pending paths are those of directories of the tree;
the files found and those below these directories are the files of the tree; and so many directories
are left to be listed. -/
structure Covers (disk : Disk) (root : Path) (loc : Location) (node : Node) (left : Nat)
    (walk : Walk)
    (dirs : List Dir) : Prop where
  pending : walk.pending = dirs.map fun place => pathTo root place.1
  isName : ∀ place ∈ dirs, ∀ text ∈ place.1, Text.IsName text
  stands : ∀ place ∈ dirs, disk.top.get? (loc ++ Path.names place.1) = some (.dir place.2)
  files : (walk.files ++ dirs.flatMap (filesFrom root)).Perm (node.filesBelow root)
  left : (dirs.map fun place => countDirs (.dir place.2)).sum = left

/-- A walk that begins covers the tree. -/
theorem covers_start {entries : Entries} (hget : disk.top.get? loc = some (.dir entries)) :
    Covers disk root loc (.dir entries) (countDirs (.dir entries)) (start root)
      [([], entries)] where
  pending := rfl
  isName := by simp
  stands := by simpa using hget
  files := by simp [start, filesFrom, pathTo, Path.descend]
  left := by simp

/-- A round on a directory of the tree, whose entries come in this order. -/
theorem Covers.listed (hw : disk.WellFormed) (hwalk : disk.Walkable root loc) {left : Nat}
    {files : List Path} {place : Dir} {dirs : List Dir}
    (h : Covers disk root loc node left
      ⟨pathTo root place.1 :: dirs.map fun place => pathTo root place.1, files⟩ (place :: dirs))
    {order : Entries} (horder : order.Perm place.2) :
    ∃ next fewer, list (pathTo root place.1) order
        ⟨dirs.map fun place => pathTo root place.1, files⟩ = .ok next ∧
      left = fewer + 1 ∧
      Covers disk root loc node fewer next ((dirsOf place.1 order).reverse ++ dirs) := by
  obtain ⟨texts, entries⟩ := place
  have hget := h.stands _ List.mem_cons_self
  have hentry := hwalk.entry hw hget
  have htext : AllText entries := fun entry hmem =>
    (hentry entry hmem).imp fun name hname => hname.1
  have htext' : AllText order := fun entry hmem => htext entry (horder.mem_iff.mp hmem)
  have hdirs : ((dirsOf texts order).reverse).Perm (dirsOf texts entries) :=
    (List.reverse_perm _).trans (horder.filterMap _)
  have hnew : ∀ other ∈ (dirsOf texts order).reverse,
      ∃ name inner, other = (texts ++ [name], inner) ∧ Text.IsName name ∧
        disk.top.get? (loc ++ Path.names (texts ++ [name])) = some (.dir inner) := by
    intro other hother
    obtain ⟨name, inner, hmem, rfl⟩ := mem_dirsOf.mp (hdirs.mem_iff.mp hother)
    obtain ⟨_, ⟨⟩, hname, hinner⟩ := hentry _ hmem
    exact ⟨name, inner, rfl, hname, hinner⟩
  refine ⟨_, _, list_eq root texts htext' _, ?_, ?_, ?_, ?_, ?_, rfl⟩
  · -- One directory is listed, and the others of its tree are still left.
    have hsum := (hdirs.map fun place => countDirs (.dir place.2)).sum_nat
    rw [← h.left, List.map_cons, List.sum_cons, countDirs_dir texts htext, List.map_append,
      List.sum_append, hsum]
    omega
  · simp
  · intro other hother
    obtain hmem | hmem := List.mem_append.mp hother
    · obtain ⟨name, inner, rfl, hname, -⟩ := hnew other hmem
      exact List.forall_mem_append.mpr
        ⟨h.isName _ List.mem_cons_self, List.forall_mem_singleton.mpr hname⟩
    · exact h.isName other (List.mem_cons_of_mem _ hmem)
  · intro other hother
    obtain hmem | hmem := List.mem_append.mp hother
    · obtain ⟨name, inner, rfl, -, hinner⟩ := hnew other hmem
      exact hinner
    · exact h.stands other (List.mem_cons_of_mem _ hmem)
  · have hlisted : (filesOf (pathTo root texts) order ++
        (dirsOf texts order).reverse.flatMap (filesFrom root)).Perm
          (filesFrom root (texts, entries)) :=
      ((horder.filterMap _).append (hdirs.flatMap_right _)).trans
        (filesFrom_perm root texts htext).symm
    refine List.Perm.trans ?_ h.files
    rw [List.flatMap_append, List.flatMap_cons, List.append_assoc,
      ← List.append_assoc (filesOf _ _)]
    exact (hlisted.append_right _).append_left files

/-- **A round does not fail**, keeps what is known and leaves one directory less. -/
theorem Covers.step (hw : disk.WellFormed) (hleads : disk.Leads root loc)
    (hwalk : disk.Walkable root loc) {left : Nat} {walk : Walk} {dirs : List Dir}
    (h : Covers disk root loc node left walk dirs) {result : Except (Path × IoError) Walk}
    (hstep : Step disk walk result) : ∃ next fewer others, result = .ok next ∧ left = fewer + 1 ∧
      Covers disk root loc node fewer next others := by
  have hpending := h.pending
  cases hstep with
  | @refused dir pending files cause hdir =>
      cases dirs with
      | nil => cases hpending
      | cons place others =>
          obtain ⟨rfl, -⟩ := List.cons.inj hpending
          rw [hwalk.directory hw hleads (h.isName _ List.mem_cons_self)
            (h.stands _ List.mem_cons_self)] at hdir
          cases hdir
  | @listed dir pending files entries order hdir horder =>
      cases dirs with
      | nil => cases hpending
      | cons place others =>
          obtain ⟨rfl, rfl⟩ := List.cons.inj hpending
          rw [hwalk.directory hw hleads (h.isName _ List.mem_cons_self)
            (h.stands _ List.mem_cons_self), Except.ok.injEq, Node.dir.injEq] at hdir
          subst hdir
          obtain ⟨next, fewer, hlist, hleft, hcovers⟩ := h.listed hw hwalk horder
          exact ⟨next, fewer, _, hlist, hleft, hcovers⟩

/-- There is a round as long as a directory is pending, and it ends. -/
theorem Covers.exists_step (hw : disk.WellFormed) (hleads : disk.Leads root loc)
    (hwalk : disk.Walkable root loc) {left : Nat} {walk : Walk} {dirs : List Dir}
    (h : Covers disk root loc node left walk dirs) (hpending : walk.pending ≠ []) :
    ∃ next, Step disk walk (.ok next) := by
  obtain ⟨pending, files⟩ := walk
  obtain rfl : pending = dirs.map fun place => pathTo root place.1 := h.pending
  cases dirs with
  | nil => exact absurd rfl hpending
  | cons place others =>
      have hdir := hwalk.directory hw hleads (h.isName _ List.mem_cons_self)
        (h.stands _ List.mem_cons_self)
      obtain ⟨next, _, hlist, -⟩ := h.listed hw hwalk (List.Perm.refl place.2)
      exact ⟨next, hlist ▸ Step.listed hdir (List.Perm.refl place.2)⟩

/-- No directory is pending exactly where none is left. -/
theorem Covers.pending_eq_nil_iff {left : Nat} {walk : Walk} {dirs : List Dir}
    (h : Covers disk root loc node left walk dirs) : walk.pending = [] ↔ left = 0 := by
  rw [h.pending, ← h.left, List.map_eq_nil_iff]
  constructor
  · rintro rfl
    rfl
  · intro hsum
    cases dirs with
    | nil => rfl
    | cons place others =>
        have hpos : 0 < countDirs (.dir place.2) := by
          simp [countDirs, Node.all, Node.isDir]
        rw [List.map_cons, List.sum_cons] at hsum
        omega

/-- **A run of rounds keeps what is known**, and leaves as many directories less as it has
rounds. -/
theorem Covers.run (hw : disk.WellFormed) (hleads : disk.Leads root loc)
    (hwalk : disk.Walkable root loc) {left rounds : Nat} {walk last : Walk} {dirs : List Dir}
    (h : Covers disk root loc node left walk dirs) (hrun : Run disk walk rounds last) :
    ∃ fewer others, left = fewer + rounds ∧ Covers disk root loc node fewer last others := by
  induction hrun generalizing left dirs with
  | done walk => exact ⟨left, dirs, rfl, h⟩
  | round hstep _ ih =>
      obtain ⟨next, fewer, others, hnext, rfl, hcovers⟩ := h.step hw hleads hwalk hstep
      cases hnext
      obtain ⟨least, remaining, rfl, hlast⟩ := ih hcovers
      exact ⟨least, remaining, by omega, hlast⟩

/-- A run that comes to an end exists: rounds are made until no directory is left. -/
theorem Covers.exists_run (hw : disk.WellFormed) (hleads : disk.Leads root loc)
    (hwalk : disk.Walkable root loc) {left : Nat} {walk : Walk} {dirs : List Dir}
    (h : Covers disk root loc node left walk dirs) :
    ∃ last, Run disk walk left last ∧ last.pending = [] := by
  induction left generalizing walk dirs with
  | zero => exact ⟨walk, .done walk, h.pending_eq_nil_iff.mpr rfl⟩
  | succ left ih =>
      have hpending : walk.pending ≠ [] := by
        rw [Ne, h.pending_eq_nil_iff]
        omega
      obtain ⟨next, hstep⟩ := h.exists_step hw hleads hwalk hpending
      obtain ⟨_, fewer, others, hnext, hleft, hcovers⟩ := h.step hw hleads hwalk hstep
      cases hnext
      obtain rfl := Nat.succ.inj hleft
      obtain ⟨last, hrun, hlast⟩ := ih hcovers
      exact ⟨last, .round hstep hrun, hlast⟩

end Walk

/-! ## The files in order -/

/-- The order in which paths with different keys come does not matter once they are sorted. -/
theorem Path.sort_eq_of_perm {paths paths' : List Path} (h : paths.Perm paths')
    (hkey : ∀ p ∈ paths, ∀ q ∈ paths, p.key = q.key → p = q) :
    Path.sort paths = Path.sort paths' := by
  have hperm := (Path.sort_perm paths).trans (h.trans (Path.sort_perm paths').symm)
  refine hperm.eq_of_pairwise (fun p q hp hq hpq hqp => ?_) (Path.sort_ascending paths)
    (Path.sort_ascending paths')
  have hq' := hperm.mem_iff.mpr hq
  rw [(Path.sort_perm paths).mem_iff] at hp hq'
  exact hkey p hp q hq' (List.le_antisymm (List.not_lt.mp hpq) (List.not_lt.mp hqp))

namespace Disk

variable {disk : Disk} {root : Path} {loc : Location}

/-- Listed paths stand in strictly ascending order. -/
theorem Listed.ascending {files : List Path} (hw : disk.WellFormed) (h : Listed disk root loc files)
    (hfiles : disk.filesUnder root = .ok files) : files.Pairwise fun p q => p.key < q.key := by
  have hpairs := (ascending_of_filesUnder hw hfiles).and (List.nodup_iff_pairwise_ne.mp h.nodup)
  refine hpairs.imp_of_mem fun {p q} hp hq hpair => ?_
  by_contra hlt
  have hkey := List.le_antisymm (List.not_lt.mp hpair.1) (List.not_lt.mp hlt)
  exact hpair.2 (h.key_inj hp hq hkey)

/-- Listed are the regular files below the root, whatever their names. -/
theorem Listed.mem_iff_rest (hw : disk.WellFormed) {files : List Path}
    (h : Listed disk root loc files) (path : Path) : path ∈ files ↔
      ∃ rest content, path = root.descend rest ∧ disk.at? (loc ++ rest) = some (.file content) := by
  rw [h.mem_iff]
  constructor
  · rintro ⟨texts, content, -, heq, hat⟩
    exact ⟨_, content, heq, hat⟩
  · rintro ⟨rest, content, rfl, hat⟩
    obtain ⟨texts, rfl, htexts⟩ := h.walkable.names hw hat
    exact ⟨texts, content, htexts, rfl, hat⟩

/-- Different places below a root that can be walked have different paths. -/
theorem Walkable.descend_inj (hw : disk.WellFormed) (hleads : disk.Leads root loc)
    (hwalk : disk.Walkable root loc) {rest rest' : Location} {item item' : Item}
    (hat : disk.at? (loc ++ rest) = some item) (hat' : disk.at? (loc ++ rest') = some item')
    (heq : root.descend rest = root.descend rest') : rest = rest' := by
  obtain ⟨texts, rfl, htexts⟩ := hwalk.names hw hat
  obtain ⟨texts', rfl, htexts'⟩ := hwalk.names hw hat'
  rw [Path.descend_inj hleads.text_ne_empty htexts htexts' heq]

/-- **A walk is exact, whatever the order of the entries.** It lists every regular file below the
root once, and nothing else, in strictly ascending order. Rounds in whatever orders never fail;
there are as many as there are directories in the tree, no link among them; and the files that they
find are these files once they are sorted. -/
theorem walk_exact (hw : disk.WellFormed) (hleads : disk.Leads root loc)
    (hdir : disk.at? loc = some .dir) (hwalk : disk.Walkable root loc) :
    ∃ files entries, disk.filesUnder root = .ok files ∧ disk.top.get? loc = some (.dir entries) ∧
      files.Nodup ∧ (files.Pairwise fun p q => p.key < q.key) ∧
      (∀ path, path ∈ files ↔ ∃ rest content, path = root.descend rest ∧
        disk.at? (loc ++ rest) = some (.file content)) ∧
      (∀ rest rest' content content', disk.at? (loc ++ rest) = some (.file content) →
        disk.at? (loc ++ rest') = some (.file content') → root.descend rest = root.descend rest' →
        rest = rest') ∧
      (∀ rounds walk, Walk.Run disk (.start root) rounds walk →
        rounds ≤ Walk.countDirs (.dir entries) ∧
        (walk.pending = [] ↔ rounds = Walk.countDirs (.dir entries)) ∧
        (walk.pending ≠ [] → ∃ next, Walk.Step disk walk (.ok next)) ∧
        (∀ result, Walk.Step disk walk result → ∃ next, result = .ok next) ∧
        (walk.pending = [] → Path.sort walk.files = files)) ∧
      ∃ walk, Walk.Run disk (.start root) (Walk.countDirs (.dir entries)) walk ∧
        walk.pending = [] := by
  obtain ⟨entries, hget⟩ := at?_eq_dir_iff.mp hdir
  have hfiles : disk.filesUnder root = .ok (Path.sort ((Node.dir entries).filesBelow root)) :=
    (filesUnder_eq_ok_iff hw).mpr ⟨loc, _, hleads, hget, rfl, hwalk, rfl⟩
  obtain ⟨found, hlisted⟩ := listed_of_filesUnder hw hfiles
  obtain rfl := hleads.unique hlisted.leads
  have hstart : Walk.Covers disk root loc (.dir entries) (Walk.countDirs (.dir entries))
    (.start root) [([], entries)] := Walk.covers_start hget
  refine ⟨_, entries, hfiles, hget, hlisted.nodup, hlisted.ascending hw hfiles,
    hlisted.mem_iff_rest hw,
    fun _ _ _ _ hat hat' => hwalk.descend_inj hw hleads hat hat', ?_,
    hstart.exists_run hw hleads hwalk⟩
  intro rounds walk hrun
  obtain ⟨left, dirs, hcount, hcovers⟩ := hstart.run hw hleads hwalk hrun
  refine ⟨by omega, ?_, hcovers.exists_step hw hleads hwalk, fun result hstep => ?_,
    fun hdone => ?_⟩
  · rw [hcovers.pending_eq_nil_iff]
    omega
  · obtain ⟨next, _, _, hnext, -⟩ := hcovers.step hw hleads hwalk hstep
    exact ⟨next, hnext⟩
  · have hdirs : dirs = [] := List.map_eq_nil_iff.mp (hcovers.pending.symm.trans hdone)
    have hperm := hcovers.files
    rw [hdirs, List.flatMap_nil, List.append_nil] at hperm
    refine Path.sort_eq_of_perm hperm fun p hp q hq hkey => ?_
    have hsorted := fun path => ((Path.sort_perm ((Node.dir entries).filesBelow root)).trans
      hperm.symm).mem_iff (a := path)
    exact hlisted.key_inj ((hsorted p).mpr hp) ((hsorted q).mpr hq) hkey

/-- The entries of a package with a file one directory down, a link that leads back up from there
and one that leads nowhere. -/
def loopEntries : List (String × Node) :=
  [("d", .named [("f", .file [1]), ("u", .link (.utf8 ".."))]), ("l", .link (.utf8 "none"))]

/-- A disk with that package in the directory `p`. -/
def loopDisk : Disk :=
  packaged loopEntries []

theorem loopDisk_wellFormed : loopDisk.WellFormed := by
  refine packaged_wellFormed (Node.wellFormed_named ["d", "l"] rfl (by decide) (by decide) ?_)
  rw [loopEntries, List.forall_mem_cons, List.forall_mem_singleton]
  refine ⟨Node.wellFormed_named ["f", "u"] rfl (by decide) (by decide) ?_,
    Node.wellFormed_link (by decide) (by decide) (by decide)⟩
  rw [List.forall_mem_cons, List.forall_mem_singleton]
  exact ⟨Node.wellFormed_file [1], Node.wellFormed_link (by decide) (by decide) (by decide)⟩

theorem loopDisk_walkable : loopDisk.Walkable ⟨"p"⟩ [.utf8 "p"] :=
  (walkFault?_eq_none_iff loopDisk_wellFormed rfl).mp rfl

/-- A walk below `p` has two rounds and finds the file, once. -/
theorem walk_exact_loop :
    loopDisk.WellFormed ∧ loopDisk.Leads ⟨"p"⟩ [.utf8 "p"] ∧
      loopDisk.at? [.utf8 "p"] = some .dir ∧ loopDisk.Walkable ⟨"p"⟩ [.utf8 "p"] ∧
      (∀ rounds walk, Walk.Run loopDisk (.start ⟨"p"⟩) rounds walk → rounds ≤ 2 ∧
        (walk.pending = [] → Path.sort walk.files = [⟨"p/d/f"⟩])) ∧
      ∃ walk, Walk.Run loopDisk (.start ⟨"p"⟩) 2 walk ∧ walk.pending = [] := by
  have hleads : loopDisk.Leads ⟨"p"⟩ [.utf8 "p"] := ⟨_, rfl⟩
  have hdir : loopDisk.at? [.utf8 "p"] = some .dir := rfl
  obtain ⟨files, entries, hfiles, hget, -, -, -, -, hruns, hends⟩ :=
    walk_exact loopDisk_wellFormed hleads hdir loopDisk_walkable
  have hfound : (Node.named loopEntries).filesBelow ⟨"p"⟩ = [⟨"p/d/f"⟩] := rfl
  have hlisted : loopDisk.filesUnder ⟨"p"⟩ = .ok [⟨"p/d/f"⟩] :=
    (filesUnder_eq_ok_iff loopDisk_wellFormed).mpr ⟨_, _, hleads, rfl, rfl, loopDisk_walkable, by
      rw [hfound, Path.sort_eq_self (List.pairwise_singleton _ _)]⟩
  cases hget
  rw [hlisted, Except.ok.injEq] at hfiles
  subst hfiles
  refine ⟨loopDisk_wellFormed, hleads, hdir, loopDisk_walkable, fun rounds walk hrun => ?_, hends⟩
  obtain ⟨hcount, -, -, -, hdone⟩ := hruns rounds walk hrun
  exact ⟨hcount, hdone⟩

end Disk

end PackageSeal
