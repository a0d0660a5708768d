import PackageSeal.Disk.Access

/-!
# Well-formed disks

What a disk keeps that the type of a tree does not say: the entries of a directory have different
names, each of them one that a path can ask for, and links lead somewhere. In a well-formed tree the
two views of it agree: what a walk lists at a place is what stands there (`mem_all_iff`).
-/

namespace PackageSeal

/-- A name that an entry can have: not empty, neither of the dotted names, without separator and
NUL, not too long, and kept as text if it is text. -/
structure RawText.IsName (name : RawText) : Prop where
  ne_nil : name.bytes ≠ []
  ne_dot : name.bytes ≠ [46]
  ne_dots : name.bytes ≠ [46, 46]
  no_separator : 47 ∉ name.bytes
  no_nul : 0 ∉ name.bytes
  short : name.bytes.length ≤ Route.maxName
  canonical : RawText.ofBytes name.bytes = name

/-- A text that a link can hold. -/
structure RawText.IsTarget (target : RawText) : Prop where
  ne_nil : target.bytes ≠ []
  no_nul : 0 ∉ target.bytes
  short : target.bytes.length ≤ Route.maxLength
  canonical : RawText.ofBytes target.bytes = target

/-- The entries have different names, and names that entries can have. -/
structure Entries.WellFormed (entries : Entries) : Prop where
  nodup : (entries.map Prod.fst).Nodup
  isName : ∀ entry ∈ entries, entry.1.IsName

namespace Node

/-- What is kept at a node itself. -/
def IsSound : Node → Prop
  | file _ => True
  | link target => target.IsTarget
  | dir entries => Entries.WellFormed entries

/-- What is kept at a node and at every place below it. -/
def WellFormed (node : Node) : Prop :=
  ∀ place ∈ node.all, place.2.IsSound

/-- No link stands below a node. -/
def LinkFree (node : Node) : Prop :=
  ∀ place ∈ node.inside, ∀ target, place.2 ≠ link target

theorem mem_all_nil {node n : Node} : (([], n) : Location × Node) ∈ node.all ↔ n = node := by
  rw [all, List.mem_cons]
  constructor
  · rintro (h | h)
    · exact congrArg Prod.snd h
    · exact absurd rfl (ne_nil_of_mem_inside h)
  · rintro rfl
    exact .inl rfl

/-- What a walk lists behind a name is what it lists of the entries of that name. -/
theorem cons_mem_insideEntries {name : RawText} {rest : Location} {n : Node}
    {entries : List (RawText × Node)} :
    (name :: rest, n) ∈ insideEntries entries ↔
      ∃ child, (name, child) ∈ entries ∧ (rest, n) ∈ child.all := by
  induction entries with
  | nil => simp [insideEntries]
  | cons entry others ih =>
    obtain ⟨other, node⟩ := entry
    rw [insideEntries, List.mem_append, ih, insideEntry, List.mem_cons, List.mem_map]
    constructor
    · rintro ((h | ⟨place, hp, h⟩) | ⟨child, hc, hm⟩)
      · obtain ⟨hl, rfl⟩ := Prod.mk.inj h
        obtain ⟨rfl, rfl⟩ := List.cons.inj hl
        exact ⟨n, List.mem_cons_self, by simp [all]⟩
      · obtain ⟨hl, rfl⟩ := Prod.mk.inj h
        obtain ⟨rfl, rfl⟩ := List.cons.inj hl
        exact ⟨node, List.mem_cons_self, List.mem_cons_of_mem _ hp⟩
      · exact ⟨child, List.mem_cons_of_mem _ hc, hm⟩
    · rintro ⟨child, hc, hm⟩
      rcases List.mem_cons.mp hc with h | hc
      · obtain ⟨rfl, rfl⟩ := Prod.mk.inj h
        rw [all, List.mem_cons] at hm
        rcases hm with h | hm
        · obtain ⟨rfl, rfl⟩ := Prod.mk.inj h
          exact .inl (.inl rfl)
        · exact .inl (.inr ⟨(rest, n), hm, rfl⟩)
      · exact .inr ⟨child, hc, hm⟩

theorem cons_mem_all {name : RawText} {rest : Location} {n : Node} {entries : Entries} :
    (name :: rest, n) ∈ (dir entries).all ↔
      ∃ child, (name, child) ∈ entries ∧ (rest, n) ∈ child.all := by
  rw [all, List.mem_cons, inside, cons_mem_insideEntries]
  constructor
  · rintro (h | h)
    · simp at h
    · exact h
  · exact .inr

/-- A well-formed directory has well-formed entries. -/
theorem WellFormed.child {entries : Entries} (h : (dir entries).WellFormed) {name : RawText}
    {child : Node} (hc : (name, child) ∈ entries) : child.WellFormed := by
  rintro ⟨loc, n⟩ hn
  exact h (name :: loc, n) (cons_mem_all.mpr ⟨child, hc, hn⟩)

end Node

namespace Entries

theorem lookup_eq_some_iff {entries : Entries} (h : (entries.map Prod.fst).Nodup) {name : RawText}
    {node : Node} : entries.lookup name = some node ↔ (name, node) ∈ entries := by
  induction entries with
  | nil => simp
  | cons entry rest ih =>
    obtain ⟨other, old⟩ := entry
    rw [List.map_cons, List.nodup_cons] at h
    rw [List.lookup_cons, List.mem_cons]
    by_cases hn : name = other
    · subst hn
      rw [beq_self_eq_true]
      constructor
      · intro hs
        rw [Option.some.injEq] at hs
        exact .inl (by rw [hs])
      · rintro (hs | hs)
        · rw [(Prod.mk.inj hs).2]
        · exact absurd (List.mem_map_of_mem hs) h.1
    · rw [beq_false_of_ne hn]
      constructor
      · exact fun hs => .inr ((ih h.2).mp hs)
      · rintro (hs | hs)
        · exact absurd (Prod.mk.inj hs).1 hn
        · exact (ih h.2).mpr hs

end Entries

namespace Node

/-- In a well-formed tree, what a walk lists at a place is what stands there. -/
theorem mem_all_iff {node n : Node} (h : node.WellFormed) {loc : Location} :
    (loc, n) ∈ node.all ↔ node.get? loc = some n := by
  induction loc generalizing node with
  | nil => rw [mem_all_nil, get?_nil, Option.some.injEq, eq_comm]
  | cons name rest ih =>
    cases node with
    | file _ => simp [all, inside, child?]
    | link _ => simp [all, inside, child?]
    | dir entries =>
      have hs : Entries.WellFormed entries := h ([], dir entries) (mem_all_nil.mpr rfl)
      rw [cons_mem_all, get?_cons, child?_dir, Option.bind_eq_some_iff]
      constructor
      · rintro ⟨child, hc, hm⟩
        exact ⟨child, (Entries.lookup_eq_some_iff hs.nodup).mpr hc, (ih (h.child hc)).mp hm⟩
      · rintro ⟨child, hl, hg⟩
        have hc := (Entries.lookup_eq_some_iff hs.nodup).mp hl
        exact ⟨child, hc, (ih (h.child hc)).mpr hg⟩

end Node

namespace Disk

/-- The tree is well-formed, and relative paths start at a directory of it. -/
structure WellFormed (disk : Disk) : Prop where
  top : disk.top.WellFormed
  start : ∃ entries, disk.top.get? disk.start = some (.dir entries)

end Disk

end PackageSeal
