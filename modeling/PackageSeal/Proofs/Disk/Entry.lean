import PackageSeal.Proofs.Disk.Through

/-!
# What stands at a path itself

`Disk.entryAt` finds what stands at a path and, unlike `Disk.find`, does not follow a link at its
end. What it finds there that is no link is what the path leads to (`find_of_entryAt`). Under a name
in a directory it finds the entry of that name (`Base.entryAt_eq_ok_iff`), and a regular file is
found in no other way (`exists_base_of_entryAt`).
-/

namespace PackageSeal

namespace Path

/-- A path that is not empty and does not end in a separator is a name put after a root. -/
theorem exists_join {path : Path} (hne : path.text ≠ "")
    (hslash : (Route.ofText path.text).slash = false) :
    ∃ root name, path = join root ⟨name⟩ ∧ name ≠ "" ∧ '/' ∉ name.toList := by
  obtain ⟨front, last, htext, hlast, hfront⟩ := Text.exists_last_part '/' path.text.toList
  have hname : last ≠ [] := by
    rintro rfl
    rw [List.append_nil] at htext
    obtain hnil | hsep := hfront
    · rw [hnil] at htext
      exact hne (String.toList_eq_nil_iff.mp htext)
    · rw [← htext] at hsep
      simp [Route.ofText, hsep] at hslash
  have hwhole : path = ⟨String.ofList front ++ String.ofList last⟩ := by
    rw [← String.ofList_append, ← htext, String.ofList_toList]
  have hsep : '/' ∉ (String.ofList last).toList := by rwa [String.toList_ofList]
  refine ⟨⟨String.ofList front⟩, String.ofList last, ?_, by simpa using hname, hsep⟩
  rw [hwhole]
  obtain rfl | hfront := hfront
  · rw [join, if_pos (.inr (by simp))]
    simp
  · have hroot : (Path.mk (String.ofList front)).text ≠ "" := by
      intro hnil
      rw [String.ofList_eq_empty_iff.mp hnil] at hfront
      cases hfront
    rw [join_eq hroot (not_isAbsolute_of_no_separator hsep),
      if_pos (by rwa [String.toList_ofList])]

end Path

namespace Disk

variable {disk : Disk} {root path : Path} {start loc : Location} {node : Node}

/-- What stands at a path. A link at the end of the path is not followed. -/
def entryAt (disk : Disk) (path : Path) : Except IoError (Location × Node) :=
  match Route.ofPath path with
  | .error e => .error e
  | .ok route => disk.lookup .entry route

theorem entryAt_eq_ok_iff : disk.entryAt path = .ok (loc, node) ↔
    ∃ route slash, Route.ofPath path = .ok route ∧
      disk.locate .entry route = .ok (.found loc node, slash) ∧
      (slash = true → node.isDir = true) := by
  unfold entryAt
  cases Route.ofPath path with
  | error e => simp
  | ok route => simp only [lookup_eq_ok_iff, Except.ok.injEq, exists_and_left, exists_eq_left']

/-! ## Entries that are no links -/

/-- The reach ends at a link that was not followed. -/
def Reach.AtLink : Reach → Prop
  | .place (.found _ (.link _)) => True
  | _ => False

/-- Steps that do not end at a link lead as far when links are followed. -/
theorem advance_reach_of_entry {top : Node} {slash : Bool} {steps : List Step} {reach : Reach}
    (hlink : ¬ reach.AtLink) (h : advance top .entry slash loc steps = .ok reach) :
    advance top .reach slash loc steps = .ok reach := by
  induction steps generalizing loc with
  | nil =>
      obtain ⟨node, hnode, rfl⟩ := advance_nil_eq_ok h
      exact advance_nil hnode
  | cons step rest ih =>
      obtain ⟨entries, hdir⟩ := dir_of_advance_cons h
      cases step with
      | here =>
          rw [advance_here hdir] at h ⊢
          exact ih h
      | up =>
          rw [advance_up hdir] at h ⊢
          exact ih h
      | into name =>
          rw [advance_into hdir, if_neg (by simp)] at h ⊢
          by_cases hlong : name.bytes.length > Route.maxName
          · rw [if_pos hlong] at h
            cases h
          · rw [if_neg hlong] at h ⊢
            cases hnode : top.get? (loc ++ [name]) with
            | none => simpa only [hnode] using h
            | some node =>
                cases node with
                | file content =>
                    simp only [hnode] at h ⊢
                    exact ih h
                | dir entries =>
                    simp only [hnode] at h ⊢
                    exact ih h
                | link target =>
                    simp only [hnode] at h ⊢
                    by_cases hend : rest.isEmpty && !slash
                    · rw [if_pos (by simp [hend])] at h
                      rw [← Except.ok.inj h] at hlink
                      exact absurd trivial hlink
                    · rw [if_neg (by simp [hend])] at h
                      rw [if_neg (by simp), h]

theorem follow_reach_of_entry {top : Node} {links : Nat} {steps : List Step} {slash asked : Bool}
    {place : Place} (hlink : ¬ (Reach.place place).AtLink)
    (h : follow top .entry links loc steps slash = .ok (place, asked)) :
    follow top .reach links loc steps slash = .ok (place, asked) := by
  refine follow_induction (motive := fun links loc steps slash =>
    follow top .reach links loc steps slash = .ok (place, asked)) ?_ ?_ h
  · intro links loc steps hadv
    exact follow_eq_ok_iff.mpr (.inl ⟨advance_reach_of_entry hlink hadv, rfl⟩)
  · intro links loc steps slash parent target rest route hadv hroute ih
    rw [follow_link (advance_reach_of_entry id hadv) hroute]
    exact ih

/-- **What stands at a path and is no link** is what the path leads to. -/
theorem find_of_entryAt (hlink : ∀ target, node ≠ .link target)
    (h : disk.entryAt path = .ok (loc, node)) : disk.find path = .ok (loc, node) := by
  obtain ⟨route, slash, hroute, hlocate, hdir⟩ := entryAt_eq_ok_iff.mp h
  have hnot : ¬ (Reach.place (.found loc node)).AtLink := by
    cases node with
    | link target => exact absurd rfl (hlink target)
    | file content => exact id
    | dir entries => exact id
  exact find_eq_ok_iff.mpr ⟨route, slash, hroute, follow_reach_of_entry hnot hlocate, hdir⟩

theorem read_of_entryAt {content : Bytes} (h : disk.entryAt path = .ok (loc, .file content)) :
    disk.read path = .ok content := by
  rw [read, find_of_entryAt (by simp) h]
  rfl

/-! ## Entries by name -/

/-- **Under a name in a directory** stands the entry of that name. -/
theorem Base.entryAt_eq_ok_iff (h : disk.Base root start) (hw : disk.WellFormed) {name : String}
    (hname : Text.IsName name) {route : Route}
    (hroute : Route.ofPath (root.join ⟨name⟩) = .ok route) :
    disk.entryAt (root.join ⟨name⟩) = .ok (loc, node) ↔
      loc = start ++ [.utf8 name] ∧ disk.top.get? loc = some node := by
  obtain ⟨entries, hdir⟩ := at?_eq_dir_iff.mp h.dir
  obtain ⟨links, hlocate⟩ := h.locate (Path.continues_name hname) .entry
  obtain ⟨-, rfl⟩ := text_ne_empty_of_ofPath hroute
  have hadvance := @advance_into disk.top .entry false start entries [] hdir (.utf8 name)
  rw [if_neg (by simp)] at hadvance
  rw [entryAt, hroute]
  simp only [lookup_eq_ok_iff, hlocate, Path.slash_join_name root hname]
  cases hnode : disk.top.get? (start ++ [.utf8 name]) with
  | none =>
      rw [hnode] at hadvance
      have hfree : ∀ slash, follow disk.top .entry links start [.into (.utf8 name)] false ≠
          .ok (.found loc node, slash) := by
        intro slash
        rw [follow, hadvance]
        split_ifs <;> simp
      refine iff_of_false (by simp [hfree]) ?_
      rintro ⟨rfl, hget⟩
      rw [hnode] at hget
      cases hget
  | some held =>
      have hshort : ¬ (RawText.utf8 name).bytes.length > Route.maxName :=
        Nat.not_lt.mpr (hw.entry hnode).1.short
      have hplace : advance disk.top .entry false start [.into (.utf8 name)] =
          .ok (.place (.found (start ++ [.utf8 name]) held)) := by
        rw [hadvance, if_neg hshort, hnode]
        cases held with
        | link target => rfl
        | file content => exact advance_nil hnode
        | dir below => exact advance_nil hnode
      rw [follow, hplace]
      simp only [Except.ok.injEq, Prod.mk.injEq, Place.found.injEq]
      constructor
      · rintro ⟨slash, ⟨⟨rfl, rfl⟩, -⟩, -⟩
        exact ⟨rfl, hnode⟩
      · rintro ⟨rfl, hget⟩
        rw [hnode, Option.some.injEq] at hget
        exact ⟨false, ⟨⟨rfl, hget⟩, rfl⟩, by simp⟩

/-- **A regular file** stands under a name in a directory. -/
theorem exists_base_of_entryAt (hw : disk.WellFormed) {content : Bytes}
    (h : disk.entryAt path = .ok (loc, .file content)) : ∃ root name start,
      path = root.join ⟨name⟩ ∧ Text.IsName name ∧ disk.Base root start ∧
        loc = start ++ [.utf8 name] := by
  obtain ⟨route, slash, hroute, hlocate, -⟩ := entryAt_eq_ok_iff.mp h
  have hread := read_of_entryAt h
  obtain ⟨hne, rfl⟩ := text_ne_empty_of_ofPath hroute
  obtain ⟨root, name, rfl, hname, hsep⟩ := Path.exists_join hne (slash_of_read hread)
  have hfind := find_of_entryAt (by simp) h
  obtain ⟨start, hbase⟩ := Leads.exists_base hw (Path.not_isAbsolute_of_no_separator hsep) hname
    ⟨_, hfind⟩
  have hdotted : ¬ (name = "." ∨ name = "..") := by
    intro hdots
    obtain ⟨found, entries, asked, hdir⟩ := hbase.locate_dotted hdots .entry
    rw [hdir] at hlocate
    cases hlocate
  rw [not_or] at hdotted
  have hname : Text.IsName name := ⟨hname, hdotted.1, hdotted.2, hsep⟩
  exact ⟨root, name, start, rfl, hname, hbase,
    ((hbase.entryAt_eq_ok_iff hw hname hroute).mp h).1⟩

end Disk

end PackageSeal
