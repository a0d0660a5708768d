import Mathlib.Data.List.Induction
import Mathlib.Data.List.Nodup
import PackageSeal.Proofs.Disk.Below
import PackageSeal.Proofs.Runs

/-!
# What a walk lists

A walk below a root succeeds exactly where every directory can be listed (`Walkable`), and then
lists every regular file below the root once, under the path that descends to it by names
(`listed_of_filesUnder`). Both are facts about what stands where: nothing depends on the order in
which directories keep their entries.
-/

namespace PackageSeal

/-- A text that is a proper name of an entry has the characters of one. -/
theorem RawText.IsName.text {text : String} (h : (RawText.utf8 text).IsName) :
    Text.IsName text where
  ne_empty heq := h.ne_nil (by rw [heq]; decide)
  ne_dot heq := h.ne_dot (by rw [heq]; decide)
  ne_dots heq := h.ne_dots (by rw [heq]; decide)
  no_separator hm := h.no_separator ((mem_utf8_iff (c := '/') (by decide)).mpr hm)

/-- A text that is a proper name of an entry holds no NUL. -/
theorem RawText.IsName.no_nul_text {text : String} (h : (RawText.utf8 text).IsName) :
    '\x00' ∉ text.toList :=
  fun hmem => h.no_nul ((mem_utf8_iff (c := '\x00') (by decide)).mpr hmem)

namespace Node

/-- What stands in a well-formed tree is well-formed. -/
theorem WellFormed.get? {top node : Node} {loc : Location} (h : top.WellFormed)
    (hget : top.get? loc = some node) : node.WellFormed := by
  induction loc generalizing top with
  | nil =>
      rw [get?_nil, Option.some.injEq] at hget
      rwa [← hget]
  | cons name rest ih =>
      cases top with
      | file _ => simp [child?] at hget
      | link _ => simp [child?] at hget
      | dir entries =>
          rw [get?_cons, child?_dir] at hget
          obtain ⟨child, hchild, hrest⟩ := Option.bind_eq_some_iff.mp hget
          have hentries := wellFormed_dir_iff.mp h
          have hmem := (Entries.lookup_eq_some_iff hentries.1.nodup).mp hchild
          exact ih (hentries.2 name child hmem) hrest

mutual

/-- A walk meets no place twice. -/
theorem nodup_inside : (node : Node) → node.WellFormed → (node.inside.map Prod.fst).Nodup
  | file _, _ => by simp [inside]
  | link _, _ => by simp [inside]
  | dir entries, h => by
    have hentries := wellFormed_dir_iff.mp h
    rw [inside]
    exact nodup_insideEntries entries hentries.1.nodup fun name child => hentries.2 name child

theorem nodup_insideEntries : (entries : List (RawText × Node)) →
    (entries.map Prod.fst).Nodup → (∀ name child, (name, child) ∈ entries → child.WellFormed) →
    ((insideEntries entries).map Prod.fst).Nodup
  | [], _, _ => by simp [insideEntries]
  | (name, node) :: rest, hnodup, hchildren => by
    rw [List.map_cons, List.nodup_cons] at hnodup
    have hfirst := nodup_insideEntry (name, node) (hchildren name node List.mem_cons_self)
    have hrest := nodup_insideEntries rest hnodup.2 fun other child hc =>
      hchildren other child (List.mem_cons_of_mem _ hc)
    rw [insideEntries, List.map_append, List.nodup_append]
    refine ⟨hfirst, hrest, ?_⟩
    -- Places behind different entries begin with different names.
    intro loc hloc loc' hloc' heq
    subst heq
    obtain ⟨place, hplace, rfl⟩ := List.mem_map.mp hloc
    obtain ⟨place', hplace', heq⟩ := List.mem_map.mp hloc'
    obtain ⟨tail, htail⟩ : ∃ tail, place.1 = name :: tail := by
      rw [insideEntry, List.mem_cons, List.mem_map] at hplace
      cases hplace with
      | inl h => exact ⟨[], by rw [h]⟩
      | inr h =>
          obtain ⟨inner, -, h⟩ := h
          exact ⟨inner.1, by rw [← h]⟩
    have hmem : (name :: tail, place'.2) ∈ insideEntries rest := by
      rw [← htail, ← heq]
      exact hplace'
    obtain ⟨child, hchild, -⟩ := cons_mem_insideEntries.mp hmem
    exact hnodup.1 (List.mem_map.mpr ⟨(name, child), hchild, rfl⟩)

theorem nodup_insideEntry : (entry : RawText × Node) → entry.2.WellFormed →
    ((insideEntry entry).map Prod.fst).Nodup
  | (name, node), h => by
    have hinside := nodup_inside node h
    rw [insideEntry, List.map_cons, List.map_map, List.nodup_cons]
    constructor
    · intro hmem
      obtain ⟨place, hplace, heq⟩ := List.mem_map.mp hmem
      exact ne_nil_of_mem_inside hplace (List.cons.inj heq).2
    · have hmap : node.inside.map (Prod.fst ∘ fun place => (name :: place.1, place.2)) =
          (node.inside.map Prod.fst).map (name :: ·) := by
        rw [List.map_map]
        rfl
      rw [hmap]
      exact List.Nodup.map (fun _ _ heq => (List.cons.inj heq).2) hinside

end

end Node

/-- Sorting paths keeps the paths. -/
theorem Path.sort_perm (paths : List Path) : (Path.sort paths).Perm paths := by
  have hkeys : (paths.map fun p => (p.key, p)).map Prod.snd = paths := by
    rw [List.map_map]
    exact List.map_id paths
  rw [Path.sort]
  conv_rhs => rw [← hkeys]
  exact (List.mergeSort_perm _ _).map Prod.snd

/-- Sorted paths stand in the order of their keys. -/
theorem Path.sort_ascending (paths : List Path) :
    (Path.sort paths).Pairwise fun p q => ¬ q.key < p.key := by
  have hkeys : ∀ entry ∈ (paths.map fun p => (p.key, p)).mergeSort fun a b => !decide (b.1 < a.1),
      entry.1 = entry.2.key := by
    intro entry hentry
    rw [List.mem_mergeSort] at hentry
    obtain ⟨path, -, rfl⟩ := List.mem_map.mp hentry
    rfl
  have hsorted : ((paths.map fun p => (p.key, p)).mergeSort fun a b =>
      !decide (b.1 < a.1)).Pairwise fun a b => !decide (b.1 < a.1) :=
    List.pairwise_mergeSort (fun a b c hab hbc => ?_) (fun a b => ?_) _
  · rw [sort, List.pairwise_map]
    refine hsorted.imp_of_mem fun {a b} ha hb hab => ?_
    rw [← hkeys a ha, ← hkeys b hb]
    simpa using hab
  · simp only [Bool.not_eq_true', decide_eq_false_iff_not, List.not_lt] at hab hbc ⊢
    exact List.le_trans hab hbc
  · simp only [Bool.or_eq_true, Bool.not_eq_true', decide_eq_false_iff_not, List.not_lt]
    exact List.le_total a.1 b.1

/-- Sorted paths stay as they are. -/
theorem Path.sort_eq_self {paths : List Path} (h : paths.Pairwise fun p q => ¬ q.key < p.key) :
    Path.sort paths = paths := by
  rw [sort, List.mergeSort_of_pairwise, List.map_map]
  · exact List.map_id paths
  · rw [List.pairwise_map]
    simpa using h

/-- Names without NUL lead from a path without NUL to one without NUL. -/
theorem Path.nul_notMem_descend {p : Path} {texts : List String} (hp : p.text ≠ "")
    (hnul : 0 ∉ utf8 p.text) (h : ∀ text ∈ texts, Text.IsName text)
    (hclean : ∀ text ∈ texts, '\x00' ∉ text.toList) :
    0 ∉ utf8 (p.descend (names texts)).text := by
  induction texts generalizing p with
  | nil => exact hnul
  | cons text rest ih =>
      rw [List.forall_mem_cons] at h hclean
      have ho := not_isAbsolute_of_no_separator h.1.no_separator
      have hname : 0 ∉ utf8 text := fun hmem =>
        hclean.1 ((mem_utf8_iff (c := '\x00') (by decide)).mp hmem)
      have hslash : 0 ∉ utf8 "/" := by decide
      refine ih (join_ne_empty hp ho) ?_ h.2 hclean.2
      show 0 ∉ utf8 (p.join ⟨text⟩).text
      rw [join_eq hp ho]
      split_ifs
      · rw [utf8_append, List.mem_append, not_or]
        exact ⟨hnul, hname⟩
      · rw [utf8_append, utf8_append, List.mem_append, List.mem_append, not_or, not_or]
        exact ⟨⟨hnul, hslash⟩, hname⟩

/-- Paths that descend from one root differ in their keys if they differ. -/
theorem Path.key_descend_inj {p : Path} {texts texts' : List String} (hp : p.text ≠ "")
    (h : ∀ text ∈ texts, Text.IsName text) (h' : ∀ text ∈ texts', Text.IsName text)
    (heq : (p.descend (names texts)).key = (p.descend (names texts')).key) : texts = texts' := by
  have hname : Function.Injective fun text => (Component.name text).key := by
    intro a b hab
    have hlist := congrArg String.toList hab
    simp only [Component.key, String.toList_append, List.append_cancel_left_eq] at hlist
    exact String.toList_inj.mp hlist
  rw [key, key, components_descend hp h, components_descend hp h', List.map_append, List.map_append,
    List.append_cancel_left_eq, List.map_map, List.map_map] at heq
  exact List.map_injective_iff.mpr hname heq

namespace Disk

variable {disk after : Disk} {root : Path} {loc : Location}

/-- What a directory entry leads to stands there under a proper name. -/
theorem isName_of_at? (hw : disk.WellFormed) {name : RawText} {item : Item}
    (h : disk.at? (loc ++ [name]) = some item) : name.IsName := by
  obtain ⟨node, hnode, -⟩ := Option.map_eq_some_iff.mp h
  exact (hw.entry hnode).1

/-- Every name on the way to what stands somewhere is a proper one. -/
theorem isName_of_names (hw : disk.WellFormed) {texts : List String} {item : Item}
    (hat : disk.at? (loc ++ Path.names texts) = some item) :
    ∀ text ∈ texts, (RawText.utf8 text).IsName := by
  intro text htext
  obtain ⟨front, rest, rfl⟩ := List.append_of_mem htext
  have hsplit : loc ++ Path.names (front ++ text :: rest) =
      (loc ++ Path.names front) ++ [.utf8 text] ++ Path.names rest := by simp
  rw [hsplit] at hat
  cases rest with
  | nil =>
      change disk.at? (loc ++ Path.names front ++ [.utf8 text] ++ []) = some item at hat
      rw [List.append_nil] at hat
      exact isName_of_at? hw hat
  | cons next others => exact isName_of_at? hw (at?_eq_dir_of_append (by simp) hat)

/-! ## Directories that can be listed -/

/-- Every directory below the place, seen from `root`, has a path that can be opened, and every name
below the place is text. -/
structure Walkable (disk : Disk) (root : Path) (loc : Location) : Prop where
  short : ∀ rest, disk.at? (loc ++ rest) = some .dir →
    (root.descend rest).text.utf8ByteSize ≤ Route.maxLength
  isText : ∀ rest name item, disk.at? (loc ++ (rest ++ [name])) = some item →
    ∃ text, name = .utf8 text

/-- Whatever stands below a place that can be walked is reached by names. -/
theorem Walkable.names (hw : disk.WellFormed) (h : Walkable disk root loc) {rest : Location}
    {item : Item} (hat : disk.at? (loc ++ rest) = some item) :
    ∃ texts, rest = Path.names texts ∧ ∀ text ∈ texts, Text.IsName text := by
  induction rest using List.reverseRecOn generalizing item with
  | nil => exact ⟨[], rfl, by simp⟩
  | append_singleton front name ih =>
      obtain ⟨text, rfl⟩ := h.isText front name item hat
      rw [← List.append_assoc] at hat
      have hname := (isName_of_at? hw hat).text
      obtain ⟨texts, rfl, htexts⟩ := ih (at?_eq_dir_of_append (List.cons_ne_nil _ []) hat)
      refine ⟨texts ++ [text], by simp, ?_⟩
      intro other hother
      rw [List.mem_append, List.mem_singleton] at hother
      cases hother with
      | inl hmem => exact htexts other hmem
      | inr heq => rwa [heq]

theorem listingFault?_eq_none_iff {path : Path} {node : Node} :
    node.listingFault? path = none ↔ ∀ entries, node = .dir entries →
      path.text.utf8ByteSize ≤ Route.maxLength ∧
        ∀ entry ∈ entries, ∃ text, entry.1 = .utf8 text := by
  cases node with
  | file content => simp [Node.listingFault?]
  | link target => simp [Node.listingFault?]
  | dir entries =>
      rw [Node.listingFault?]
      by_cases hlong : path.text.utf8ByteSize > Route.maxLength
      · rw [if_pos hlong]
        simp only [reduceCtorEq, Node.dir.injEq, forall_eq', false_iff, not_and]
        intro hshort
        omega
      · rw [if_neg hlong, List.findSome?_eq_none_iff]
        simp only [List.mem_reverse, Node.dir.injEq, forall_eq']
        constructor
        · intro h
          refine ⟨Nat.le_of_not_lt hlong, fun entry hentry => ?_⟩
          have hnone := h entry hentry
          cases hname : entry.1 with
          | utf8 text => exact ⟨text, rfl⟩
          | octets bytes => simp [hname] at hnone
        · intro h entry hentry
          obtain ⟨text, htext⟩ := h.2 entry hentry
          simp [htext]

/-- A walk meets no fault exactly where every directory can be listed. -/
theorem walkFault?_eq_none_iff (hw : disk.WellFormed) {node : Node}
    (hget : disk.top.get? loc = some node) :
    node.walkFault? root = none ↔ Walkable disk root loc := by
  have hnode := hw.top.get? hget
  have hat : ∀ rest other, (rest, other) ∈ node.all ↔
      disk.top.get? (loc ++ rest) = some other := by
    intro rest other
    rw [Node.mem_all_iff hnode, Node.get?_append, hget, Option.bind_some]
  rw [Node.walkFault?, List.findSome?_eq_none_iff]
  simp only [Option.map_eq_none_iff, listingFault?_eq_none_iff]
  constructor
  · intro h
    constructor
    · intro rest hdir
      obtain ⟨entries, hentries⟩ := at?_eq_dir_iff.mp hdir
      exact (h (rest, .dir entries) ((hat _ _).mpr hentries) entries rfl).1
    · intro rest name item hitem
      rw [← List.append_assoc] at hitem
      obtain ⟨child, hchild, -⟩ := Option.map_eq_some_iff.mp hitem
      obtain ⟨-, entries, hentries, hmem, -⟩ := hw.entry hchild
      exact (h (rest, .dir entries) ((hat _ _).mpr hentries) entries rfl).2 _ hmem
  · intro h place hplace entries heq
    have hentries : disk.top.get? (loc ++ place.1) = some (.dir entries) := by
      rw [← heq]
      exact (hat _ _).mp hplace
    refine ⟨h.short place.1 (at?_eq_dir_iff.mpr ⟨entries, hentries⟩), fun entry hentry => ?_⟩
    have hchild : disk.top.get? (loc ++ (place.1 ++ [entry.1])) = some entry.2 := by
      rw [← List.append_assoc, Node.get?_snoc entry.1 hentries]
      exact (Entries.lookup_eq_some_iff (hw.entries hentries).nodup).mpr hentry
    exact h.isText place.1 entry.1 entry.2.item (by rw [at?, hchild]; rfl)

/-! ## Lists of files -/

/-- The files are the regular files below the place to which `root` leads, each once, under the path
that descends to it. -/
structure Listed (disk : Disk) (root : Path) (loc : Location) (files : List Path) : Prop where
  leads : disk.Leads root loc
  dir : disk.at? loc = some .dir
  walkable : Walkable disk root loc
  nodup : files.Nodup
  mem_iff : ∀ path, path ∈ files ↔ ∃ texts content, (∀ text ∈ texts, Text.IsName text) ∧
    path = root.descend (Path.names texts) ∧
    disk.at? (loc ++ Path.names texts) = some (.file content)

theorem filesUnder_eq_ok_iff (hw : disk.WellFormed) {files : List Path} :
    disk.filesUnder root = .ok files ↔
      ∃ loc node, disk.Leads root loc ∧ disk.top.get? loc = some node ∧ node.isDir = true ∧
        Walkable disk root loc ∧ files = Path.sort (node.filesBelow root) := by
  unfold filesUnder directory
  cases hfind : disk.find root with
  | error e =>
      simp only [reduceCtorEq, false_iff]
      rintro ⟨loc, node, ⟨other, hother⟩, -⟩
      rw [hfind] at hother
      cases hother
  | ok found =>
      obtain ⟨loc, node⟩ := found
      have hleads : disk.Leads root loc := ⟨node, hfind⟩
      have hget := get?_of_find hfind
      by_cases hdir : node.isDir = true
      · simp only [hdir, if_true]
        cases hfault : node.walkFault? root with
        | some fault =>
            simp only [reduceCtorEq, false_iff]
            rintro ⟨loc', node', hleads', hget', -, hwalk, -⟩
            obtain rfl := hleads.unique hleads'
            rw [(walkFault?_eq_none_iff hw hget).mpr hwalk] at hfault
            cases hfault
        | none =>
            simp only [Except.ok.injEq]
            constructor
            · intro h
              exact ⟨loc, node, hleads, hget, hdir, (walkFault?_eq_none_iff hw hget).mp hfault,
                h.symm⟩
            · rintro ⟨loc', node', hleads', hget', -, -, h⟩
              obtain rfl := hleads.unique hleads'
              rw [hget, Option.some.injEq] at hget'
              rw [h, hget']
      · simp only [Bool.not_eq_true] at hdir
        simp only [hdir, Bool.false_eq_true, if_false, reduceCtorEq, false_iff]
        rintro ⟨loc', node', hleads', hget', hdir', -⟩
        obtain rfl := hleads.unique hleads'
        rw [hget, Option.some.injEq] at hget'
        rw [← hget', hdir] at hdir'
        cases hdir'

/-- Places have names because directories are no files. -/
theorem texts_ne_nil {texts : List String} {content : Bytes} (hdir : disk.at? loc = some .dir)
    (hat : disk.at? (loc ++ Path.names texts) = some (.file content)) : texts ≠ [] := by
  intro hnil
  rw [hnil, Path.names, List.map_nil, List.append_nil, hdir] at hat
  cases hat

section FilesBelow

variable {node : Node}

/-- What is inside a node that a walk covers stands below its place, and names lead there. -/
theorem names_of_mem_inside (hw : disk.WellFormed) (hget : disk.top.get? loc = some node)
    (hwalk : Walkable disk root loc) {place : Location × Node} (hplace : place ∈ node.inside) :
    disk.top.get? (loc ++ place.1) = some place.2 ∧
      ∃ texts, place.1 = Path.names texts ∧ ∀ text ∈ texts, Text.IsName text := by
  have hinside : disk.top.get? (loc ++ place.1) = some place.2 := by
    rw [Node.get?_append, hget, Option.bind_some]
    exact (Node.mem_all_iff (hw.top.get? hget)).mp (List.mem_cons_of_mem _ hplace)
  have hat : disk.at? (loc ++ place.1) = some place.2.item := by
    rw [at?, hinside]
    rfl
  exact ⟨hinside, hwalk.names hw hat⟩

/-- No path is listed twice: different places have different names, and the path tells the names. -/
theorem nodup_filesBelow (hw : disk.WellFormed) (hroot : root.text ≠ "")
    (hget : disk.top.get? loc = some node) (hwalk : Walkable disk root loc) :
    (node.filesBelow root).Nodup := by
  rw [Node.filesBelow, List.nodup_iff_pairwise_ne, List.pairwise_filterMap]
  have hpairs := List.pairwise_map.mp
    (List.nodup_iff_pairwise_ne.mp (Node.nodup_inside node (hw.top.get? hget)))
  refine List.Pairwise.imp_of_mem ?_ hpairs
  intro place place' hplace hplace' hne path hpath path' hpath' heq
  obtain ⟨-, texts, htexts, hall⟩ := names_of_mem_inside hw hget hwalk hplace
  obtain ⟨-, texts', htexts', hall'⟩ := names_of_mem_inside hw hget hwalk hplace'
  split_ifs at hpath hpath'
  rw [Option.some.injEq] at hpath hpath'
  rw [← hpath, ← hpath', htexts, htexts'] at heq
  exact hne (by rw [htexts, htexts', Path.descend_inj hroot hall hall' heq])

/-- The paths that are listed are those that descend to a regular file. -/
theorem mem_filesBelow_iff (hw : disk.WellFormed) (hget : disk.top.get? loc = some node)
    (hdir : disk.at? loc = some .dir) (hwalk : Walkable disk root loc) {path : Path} :
    path ∈ node.filesBelow root ↔ ∃ texts content, (∀ text ∈ texts, Text.IsName text) ∧
      path = root.descend (Path.names texts) ∧
      disk.at? (loc ++ Path.names texts) = some (.file content) := by
  rw [Node.filesBelow, List.mem_filterMap]
  constructor
  · rintro ⟨place, hplace, hpath⟩
    split_ifs at hpath with hfile
    rw [Option.some.injEq] at hpath
    obtain ⟨hinside, texts, htexts, hall⟩ := names_of_mem_inside hw hget hwalk hplace
    cases hnode : place.2 with
    | link target => simp [hnode, Node.isFile] at hfile
    | dir entries => simp [hnode, Node.isFile] at hfile
    | file content =>
        refine ⟨texts, content, hall, by rw [← hpath, htexts], ?_⟩
        rw [← htexts, at?_eq_file_iff, hinside, hnode]
  · rintro ⟨texts, content, hall, rfl, hat⟩
    have hmem : (Path.names texts, Node.file content) ∈ node.all := by
      rw [Node.mem_all_iff (hw.top.get? hget)]
      have hfile := at?_eq_file_iff.mp hat
      rwa [Node.get?_append, hget, Option.bind_some] at hfile
    rw [Node.all, List.mem_cons] at hmem
    cases hmem with
    | inl heq =>
        have hnil : texts = [] := List.map_eq_nil_iff.mp (Prod.mk.inj heq).1
        exact absurd hnil (texts_ne_nil hdir hat)
    | inr hmem => exact ⟨_, hmem, by simp [Node.isFile]⟩

end FilesBelow

/-- **A walk lists every regular file below the root once.** -/
theorem listed_of_filesUnder (hw : disk.WellFormed) {files : List Path}
    (h : disk.filesUnder root = .ok files) : ∃ loc, Listed disk root loc files := by
  obtain ⟨loc, node, hleads, hget, hisDir, hwalk, rfl⟩ := (filesUnder_eq_ok_iff hw).mp h
  have hdir : disk.at? loc = some .dir := by
    cases node with
    | file content => cases hisDir
    | link target => cases hisDir
    | dir entries => exact at?_eq_dir_iff.mpr ⟨entries, hget⟩
  refine ⟨loc, hleads, hdir, hwalk, ?_, fun path => ?_⟩
  · rw [(Path.sort_perm _).nodup_iff]
    exact nodup_filesBelow hw hleads.text_ne_empty hget hwalk
  · rw [(Path.sort_perm _).mem_iff]
    exact mem_filesBelow_iff hw hget hdir hwalk

/-- A walk lists paths in the order of their keys. -/
theorem ascending_of_filesUnder (hw : disk.WellFormed) {files : List Path}
    (h : disk.filesUnder root = .ok files) : files.Pairwise fun p q => ¬ q.key < p.key := by
  obtain ⟨loc, node, -, -, -, -, rfl⟩ := (filesUnder_eq_ok_iff hw).mp h
  exact Path.sort_ascending _

/-- Listed paths with one key are the same path. -/
theorem Listed.key_inj {files : List Path} (h : Listed disk root loc files) {p q : Path}
    (hp : p ∈ files) (hq : q ∈ files) (hkey : p.key = q.key) : p = q := by
  obtain ⟨texts, -, htexts, rfl, -⟩ := (h.mem_iff p).mp hp
  obtain ⟨texts', -, htexts', rfl, -⟩ := (h.mem_iff q).mp hq
  rw [Path.key_descend_inj h.leads.text_ne_empty htexts htexts' hkey]

/-- What is listed, with the names that lead to each file and with its content. -/
theorem Listed.places {files : List Path} (h : Listed disk root loc files) :
    ∃ places : List (List String × Bytes),
      files = places.map (fun place => root.descend (Path.names place.1)) ∧
      (places.map Prod.fst).Nodup ∧
      ∀ texts content, (texts, content) ∈ places ↔
        (∀ text ∈ texts, Text.IsName text) ∧
          disk.at? (loc ++ Path.names texts) = some (.file content) := by
  obtain ⟨places, hplaces⟩ : ∃ places : List (List String × Bytes),
      List.Forall₂ (fun path place => (∀ text ∈ place.1, Text.IsName text) ∧
        path = root.descend (Path.names place.1) ∧
        disk.at? (loc ++ Path.names place.1) = some (.file place.2)) files places := by
    refine exists_forall₂ fun path hpath => ?_
    obtain ⟨texts, content, hplace⟩ := (h.mem_iff path).mp hpath
    exact ⟨(texts, content), hplace⟩
  have hpaths : files = places.map fun place => root.descend (Path.names place.1) := by
    have hmap := map_eq_map_of_forall₂ hplaces fun path place hplace => hplace.2.1
    rwa [List.map_id'] at hmap
  refine ⟨places, hpaths, ?_, fun texts content => ⟨fun hmem => ?_, fun hplace => ?_⟩⟩
  · have hmap : places.map (fun place => root.descend (Path.names place.1)) =
        (places.map Prod.fst).map fun texts => root.descend (Path.names texts) := by
      rw [List.map_map]
      rfl
    have hnodup := h.nodup
    rw [hpaths, hmap] at hnodup
    exact List.Nodup.of_map _ hnodup
  · obtain ⟨path, -, hall, -, hat⟩ := exists_left_of_forall₂ hplaces hmem
    exact ⟨hall, hat⟩
  · obtain ⟨hall, hat⟩ := hplace
    have hlisted := (h.mem_iff _).mpr ⟨texts, content, hall, rfl, hat⟩
    obtain ⟨⟨texts', content'⟩, hmem, hall', heq, hat'⟩ := exists_right_of_forall₂ hplaces hlisted
    obtain rfl := Path.descend_inj h.leads.text_ne_empty hall hall' heq
    rw [hat, Option.some.injEq, Item.file.injEq] at hat'
    rwa [hat']

/-- A walk below a root whose directories can be listed succeeds. -/
theorem filesUnder_of_walkable (hw : disk.WellFormed) (hleads : disk.Leads root loc)
    (hdir : disk.at? loc = some .dir) (hwalk : Walkable disk root loc) :
    ∃ files, disk.filesUnder root = .ok files := by
  obtain ⟨entries, hget⟩ := at?_eq_dir_iff.mp hdir
  exact ⟨_, (filesUnder_eq_ok_iff hw).mpr ⟨loc, _, hleads, hget, rfl, hwalk, rfl⟩⟩

/-! ## Reading what is listed -/

/-- Where something other than a link stands, entering the names one by one leads there. -/
theorem advances_names (hw : disk.WellFormed) {names : Location} {node : Node}
    (hget : disk.top.get? (loc ++ names) = some node) (hlink : ∀ target, node ≠ .link target) :
    Advances disk.top loc (names.map Step.into) (.place (.found (loc ++ names) node)) := by
  induction names generalizing loc with
  | nil =>
      rw [List.append_nil] at hget ⊢
      exact .done hget
  | cons name rest ih =>
      have hat : disk.at? (loc ++ ([name] ++ rest)) = some node.item := by
        rw [at?]
        exact congrArg (Option.map Node.item) hget
      obtain ⟨entries, hdir⟩ := at?_eq_dir_iff.mp (at?_eq_dir_of_append (by simp) hat)
      have hsplit : loc ++ name :: rest = loc ++ [name] ++ rest := by simp
      rw [← List.append_assoc] at hat
      have hchild : ∃ child, disk.top.get? (loc ++ [name]) = some child ∧
          ∀ target, child ≠ .link target := by
        cases rest with
        | nil => exact ⟨node, hget, hlink⟩
        | cons next others =>
            obtain ⟨below, hbelow⟩ :=
              at?_eq_dir_iff.mp (at?_eq_dir_of_append (List.cons_ne_nil next others) hat)
            exact ⟨_, hbelow, by simp⟩
      obtain ⟨child, hchild, hlink'⟩ := hchild
      have hshort := (hw.entry hchild).1.short
      rw [hsplit] at hget ⊢
      exact .enter hdir hshort hchild hlink' (ih hget)

/-- Where something other than a link stands, the path that descends to it by names finds it, if a
disk can be asked about the path at all. -/
theorem find_descend (hw : disk.WellFormed) (hroot : disk.Leads root loc) {texts : List String}
    (hne : texts ≠ []) (htexts : ∀ text ∈ texts, Text.IsName text) {node : Node}
    (hget : disk.top.get? (loc ++ Path.names texts) = some node)
    (hlink : ∀ target, node ≠ .link target) {route : Route}
    (hroute : Route.ofPath (root.descend (Path.names texts)) = .ok route) :
    disk.find (root.descend (Path.names texts)) = .ok (loc ++ Path.names texts, node) := by
  obtain ⟨-, rfl⟩ := text_ne_empty_of_ofPath hroute
  have hcontinues := Path.continues_descend hroot.text_ne_empty htexts hne
  obtain ⟨links, heq⟩ := locate_continues hroot hcontinues .reach
  have hsteps := advances_names hw hget hlink
  rw [Path.slash_descend hroot.text_ne_empty htexts hne] at heq
  have hplace : follow disk.top .reach links loc ((Path.names texts).map Step.into) false =
      .ok (.found (loc ++ Path.names texts) node, false) :=
    follow_eq_ok_iff.mpr (.inl ⟨hsteps.advance_reach false, rfl⟩)
  exact find_eq_ok_iff.mpr ⟨_, false, hroute, heq.trans hplace, by simp⟩

/-- A disk can be asked about a path that descends by names, if it can be asked about its start and
the path is not too long. -/
theorem route_descend (hw : disk.WellFormed) (hroot : disk.Leads root loc) {texts : List String}
    (htexts : ∀ text ∈ texts, Text.IsName text) {item : Item}
    (hat : disk.at? (loc ++ Path.names texts) = some item)
    (hshort : (root.descend (Path.names texts)).text.utf8ByteSize ≤ Route.maxLength) :
    Route.ofPath (root.descend (Path.names texts)) =
      .ok (Route.ofText (root.descend (Path.names texts)).text) := by
  obtain ⟨node, hfind⟩ := id hroot
  obtain ⟨route, -, hroute, -, -⟩ := find_eq_ok_iff.mp hfind
  obtain ⟨hnul, hne, -, -⟩ := Route.ofPath_eq_ok_iff.mp hroute
  have hclean := Path.nul_notMem_descend hne hnul htexts fun text htext =>
    (isName_of_names hw hat text htext).no_nul_text
  rw [← length_utf8] at hshort
  exact Route.ofPath_eq_ok_iff.mpr
    ⟨hclean, Path.descend_ne_empty hne htexts, hshort, rfl⟩

/-- Where a file stands, the path that descends to it by names leads there, if a disk can be asked
about it at all. -/
theorem leads_descend (hw : disk.WellFormed) (hroot : disk.Leads root loc)
    (hdir : disk.at? loc = some .dir) {texts : List String}
    (htexts : ∀ text ∈ texts, Text.IsName text) {content : Bytes}
    (hat : disk.at? (loc ++ Path.names texts) = some (.file content)) {route : Route}
    (hroute : Route.ofPath (root.descend (Path.names texts)) = .ok route) :
    disk.Leads (root.descend (Path.names texts)) (loc ++ Path.names texts) :=
  ⟨_, find_descend hw hroot (texts_ne_nil hdir hat) htexts
    (at?_eq_file_iff.mp hat) (by simp) hroute⟩

/-- Reading the path that descends to a file gives the content of the file. -/
theorem read_descend (hw : disk.WellFormed) (hroot : disk.Leads root loc)
    (hdir : disk.at? loc = some .dir) {texts : List String}
    (htexts : ∀ text ∈ texts, Text.IsName text) {content content' : Bytes}
    (hat : disk.at? (loc ++ Path.names texts) = some (.file content))
    (hread : disk.read (root.descend (Path.names texts)) = .ok content') :
    disk.Leads (root.descend (Path.names texts)) (loc ++ Path.names texts) ∧
      content' = content := by
  obtain ⟨found, hfound, hcontent⟩ := read_eq_ok_iff.mp hread
  obtain ⟨node, hfind⟩ := id hfound
  obtain ⟨route, -, hroute, -⟩ := find_eq_ok_iff.mp hfind
  have hleads := leads_descend hw hroot hdir htexts hat hroute
  obtain rfl := hleads.unique hfound
  rw [hat, Option.some.injEq, Item.file.injEq] at hcontent
  exact ⟨hleads, hcontent.symm⟩

end Disk

end PackageSeal
