import PackageSeal.Proofs.Path.Sources
import PackageSeal.Proofs.Sealing.Steps

/-!
# Writing all sidecars

The sidecar of a file stands beside it, under the name of the file and what ends all names of
sidecars. So the sidecars of different files are different files, and none of them is a file that
has a sidecar: writing them one after the other leaves every file what it was, and beside each the
checksum of what it holds (`ends_sidecars`).
-/

namespace PackageSeal.Sidecar

variable {texts texts' front : List String} {name : String} {root : Path}

/-! ## Places of sidecars -/

/-- The names that lead to the sidecar of a file. -/
def beside : List String → List String
  | [] => []
  | [name] => [name ++ suffix]
  | first :: next :: rest => first :: beside (next :: rest)

theorem beside_concat (front : List String) (name : String) :
    beside (front ++ [name]) = front ++ [name ++ suffix] := by
  induction front with
  | nil => rfl
  | cons first front ih =>
      cases front with
      | nil => rfl
      | cons next rest =>
          rw [List.cons_append, List.cons_append, beside, ← List.cons_append, ih, List.cons_append]
          rfl

theorem beside_ne_nil (hne : texts ≠ []) : beside texts ≠ [] := by
  obtain ⟨front, name, rfl⟩ := exists_concat hne
  rw [beside_concat]
  exact List.append_ne_nil_of_right_ne_nil _ (List.cons_ne_nil _ _)

/-- Different files have different sidecars. -/
theorem beside_inj (hne : texts ≠ []) (hne' : texts' ≠ []) (h : beside texts = beside texts') :
    texts = texts' := by
  obtain ⟨front, name, rfl⟩ := exists_concat hne
  obtain ⟨front', name', rfl⟩ := exists_concat hne'
  rw [beside_concat, beside_concat] at h
  obtain ⟨rfl, hname⟩ := List.append_singleton_inj.mp h
  rw [(String.append_left_inj suffix).mp hname]

/-- Without separators whatever stands before the suffix makes a name with it. -/
theorem isName_append_suffix (h : '/' ∉ name.toList) : Text.IsName (name ++ suffix) := by
  have hlength : ∀ text : String, name ++ suffix = text → 7 ≤ text.toList.length := by
    intro text heq
    have hlist := congrArg (fun s => s.toList.length) heq
    simp only [String.toList_append, List.length_append] at hlist
    have hsuffix : suffix.toList.length = 7 := by decide
    omega
  refine ⟨fun heq => ?_, fun heq => ?_, fun heq => ?_, ?_⟩
  · exact absurd (hlength _ heq) (by decide)
  · exact absurd (hlength _ heq) (by decide)
  · exact absurd (hlength _ heq) (by decide)
  · rw [String.toList_append, List.mem_append, not_or]
    exact ⟨h, by decide⟩

theorem isName_beside (hne : texts ≠ []) (h : ∀ text ∈ texts, Text.IsName text) :
    ∀ text ∈ beside texts, Text.IsName text := by
  obtain ⟨front, name, rfl⟩ := exists_concat hne
  rw [List.forall_mem_append, List.forall_mem_singleton] at h
  rw [beside_concat, List.forall_mem_append, List.forall_mem_singleton]
  exact ⟨h.1, isName_append_suffix h.2.no_separator⟩

theorem isMarkedPlace_beside (hne : texts ≠ []) : IsMarkedPlace (Path.names (beside texts)) := by
  obtain ⟨front, name, rfl⟩ := exists_concat hne
  rw [beside_concat]
  exact ⟨Path.names front, name, by simp⟩

/-- The names of a file that has a sidecar. -/
structure IsSubject (texts : List String) : Prop where
  isName : ∀ text ∈ texts, Text.IsName text
  unmarked : ∃ front name, texts = front ++ [name] ∧ isMarkedName name = false

theorem IsSubject.ne_nil (h : IsSubject texts) : texts ≠ [] := by
  obtain ⟨front, name, rfl, -⟩ := h.unmarked
  simp

/-- What has a sidecar is none. -/
theorem IsSubject.not_isMarkedPlace (h : IsSubject texts) :
    ¬ IsMarkedPlace (Path.names texts) := by
  obtain ⟨front, name, rfl, hunmarked⟩ := h.unmarked
  rintro ⟨front', text, heq⟩
  rw [Path.names, List.map_append, List.map_singleton] at heq
  have hname : name = text ++ suffix := RawText.utf8.inj (List.append_singleton_inj.mp heq).2
  rw [isMarkedName_iff.mpr ⟨text, hname⟩] at hunmarked
  cases hunmarked

theorem isMarked_descend (hroot : root.text ≠ "") (hne : texts ≠ [])
    (h : ∀ text ∈ texts, Text.IsName text) :
    isMarked (root.descend (Path.names texts)) = false ↔ IsSubject texts := by
  obtain ⟨front, name, rfl⟩ := exists_concat hne
  have hall := List.forall_mem_append.mp h
  rw [isMarked, Path.lastName?_descend hroot hall.1 (List.forall_mem_singleton.mp hall.2)]
  constructor
  · intro hunmarked
    exact ⟨h, front, name, rfl, hunmarked⟩
  · intro hsubject
    obtain ⟨front', name', heq, hunmarked⟩ := hsubject.unmarked
    rw [(List.append_singleton_inj.mp heq).2]
    exact hunmarked

/-- The sidecar of a file stands beside it. -/
theorem pathFor_descend (hroot : root.text ≠ "") (hne : texts ≠ [])
    (h : ∀ text ∈ texts, Text.IsName text) :
    pathFor (root.descend (Path.names texts)) = root.descend (Path.names (beside texts)) := by
  obtain ⟨front, name, rfl⟩ := exists_concat hne
  rw [List.forall_mem_append, List.forall_mem_singleton] at h
  rw [beside_concat, Path.names, Path.names, List.map_append, List.map_append,
    List.map_singleton, List.map_singleton, Path.descend_concat, Path.descend_concat, pathFor]
  exact Path.extend_join (Path.descend_ne_empty hroot h.1) h.2 suffix

/-! ## What has a sidecar -/

/-- A name excludes the one file of that name at the root. -/
theorem isExcluded_descend {excluded : List String} (hroot : root.text ≠ "") (hne : texts ≠ [])
    (h : ∀ text ∈ texts, Text.IsName text) (hexcluded : ∀ name ∈ excluded, '/' ∉ name.toList) :
    isExcluded root excluded (root.descend (Path.names texts)) = true ↔
      ∃ name ∈ excluded, texts = [name] := by
  rw [isExcluded, Path.below?_descend hroot h hne]
  simp only [List.contains_iff_mem]
  cases texts with
  | nil => exact absurd rfl hne
  | cons first rest =>
      have hjoined : Text.joinWith '/' ((first :: rest).map String.toList) =
          first.toList ++ if rest = [] then [] else
            '/' :: Text.joinWith '/' (rest.map String.toList) := by
        by_cases hrest : rest = []
        · rw [if_pos hrest, hrest, List.append_nil]
          rfl
        · rw [if_neg hrest, List.map_cons, Text.joinWith_cons _ _ (by simpa using hrest)]
      rw [hjoined]
      by_cases hrest : rest = []
      · rw [if_pos hrest, hrest, List.append_nil, String.ofList_toList]
        constructor
        · intro hmem
          exact ⟨first, hmem, rfl⟩
        · rintro ⟨name, hname, heq⟩
          rwa [(List.cons.inj heq).1]
      · rw [if_neg hrest]
        constructor
        · intro hmem
          exact absurd (by simp) (hexcluded _ hmem)
        · rintro ⟨name, -, heq⟩
          exact absurd (List.cons.inj heq).2 hrest

/-- The files below a place that have a sidecar, without the excluded ones at the place itself, each
once, by the names that lead there and with its content. -/
structure IsSubjects (disk : Disk) (loc : Location) (excluded : List String)
    (places : List (List String × Bytes)) : Prop where
  nodup : (places.map Prod.fst).Nodup
  mem_iff : ∀ texts content, (texts, content) ∈ places ↔ IsSubject texts ∧
    (∀ name ∈ excluded, texts ≠ [name]) ∧ disk.at? (loc ++ Path.names texts) = some (.file content)

theorem IsSubjects.isSubject {disk : Disk} {loc : Location} {excluded : List String}
    {places : List (List String × Bytes)} (h : IsSubjects disk loc excluded places) :
    ∀ texts ∈ places.map Prod.fst, IsSubject texts := by
  intro texts htexts
  obtain ⟨place, hplace, rfl⟩ := List.mem_map.mp htexts
  exact ((h.mem_iff place.1 place.2).mp hplace).1

/-- The files that have a sidecar are the same but for the order. -/
theorem IsSubjects.perm {disk : Disk} {loc : Location} {excluded : List String}
    {places places' : List (List String × Bytes)} (h : IsSubjects disk loc excluded places)
    (h' : IsSubjects disk loc excluded places') : places.Perm places' := by
  rw [List.perm_ext_iff_of_nodup (List.Nodup.of_map _ h.nodup) (List.Nodup.of_map _ h'.nodup)]
  rintro ⟨texts, content⟩
  rw [h.mem_iff, h'.mem_iff]

/-- **The files that have a sidecar** are those that a walk lists and that are no sidecars. -/
theorem subjects_of_listed {disk : Disk} {loc : Location} {files : List Path}
    {excluded : List String} (hfiles : disk.filesUnder root = .ok files)
    (h : Disk.Listed disk root loc files) (hexcluded : ∀ name ∈ excluded, '/' ∉ name.toList) :
    ∃ places, IsSubjects disk loc excluded places ∧ subjects disk root excluded =
      .ok (places.map fun place => root.descend (Path.names place.1)) := by
  obtain ⟨places, hpaths, hnodup, hmem⟩ := h.places
  let kept := places.filter fun place => !isMarked (root.descend (Path.names place.1)) &&
    !isExcluded root excluded (root.descend (Path.names place.1))
  refine ⟨kept, ⟨?_, fun texts content => ?_⟩, ?_⟩
  · exact List.Nodup.sublist (List.filter_sublist.map Prod.fst) hnodup
  · have hroot := h.leads.text_ne_empty
    rw [List.mem_filter, hmem, Bool.and_eq_true, Bool.not_eq_true', Bool.not_eq_true']
    constructor
    · rintro ⟨⟨hall, hat⟩, hmarked, hfree⟩
      have hne := Disk.texts_ne_nil h.dir hat
      refine ⟨(isMarked_descend hroot hne hall).mp hmarked, fun name hname heq => ?_, hat⟩
      rw [(isExcluded_descend hroot hne hall hexcluded).mpr ⟨name, hname, heq⟩] at hfree
      cases hfree
    · rintro ⟨hsubject, hfree, hat⟩
      have hne := hsubject.ne_nil
      refine ⟨⟨hsubject.isName, hat⟩, (isMarked_descend hroot hne hsubject.isName).mpr hsubject, ?_⟩
      rw [← Bool.not_eq_true, isExcluded_descend hroot hne hsubject.isName hexcluded]
      rintro ⟨name, hname, heq⟩
      exact hfree name hname heq
  · rw [subjects_eq_ok_iff]
    exact ⟨files, hfiles, by rw [hpaths, List.filter_map]; rfl⟩

/-! ## One after the other -/

/-- The text that the sidecar of a content holds, in octets. -/
def digest (content : Bytes) : Bytes :=
  utf8 (Checksum.ofContent content).text

variable {before after : Disk} {loc : Location}

/-- Sidecars are written one after the other. -/
theorem ends_sidecars_cons {path : Path} {rest : List Path} {content : Bytes} {middle : Disk}
    (hread : before.read path = .ok content)
    (hwrite : before.write (pathFor path) (digest content) = .ok middle)
    (hrest : (rest.forM fun path => discard (write path)).Ends middle () after) :
    ((path :: rest).forM fun path => discard (write path)).Ends before () after :=
  Action.ends_forM_cons.mpr ⟨middle, Action.ends_discard.mpr
    ⟨_, ends_write.mpr ⟨rfl, content, hread, hwrite⟩⟩, hrest⟩

/-- The names lead to a file with this content, and beside it stands its checksum. -/
structure Accompanied (disk : Disk) (root : Path) (loc : Location) (texts : List String)
    (content : Bytes) : Prop where
  file : disk.Stores (root.descend (Path.names texts)) (loc ++ Path.names texts) content
  sidecar : disk.Stores (root.descend (Path.names (beside texts)))
    (loc ++ Path.names (beside texts)) (digest content)

/-- A file and its sidecar stay together as long as neither is written. -/
theorem Accompanied.of_differs {touched : Location → Prop} {content : Bytes}
    (h : Accompanied before root loc texts content) (hdiffers : before.Differs touched after)
    (hfile : ¬ touched (loc ++ Path.names texts))
    (hsidecar : ¬ touched (loc ++ Path.names (beside texts))) :
    Accompanied after root loc texts content :=
  ⟨hdiffers.stores h.file hfile, hdiffers.stores h.sidecar hsidecar⟩

/-- A file with a sidecar does not stand at the place of a sidecar. -/
theorem IsSubject.ne_beside (h : IsSubject texts) (hne : texts' ≠ []) :
    loc ++ Path.names texts ≠ loc ++ Path.names (beside texts') := by
  intro heq
  have hplace := isMarkedPlace_beside hne
  rw [← List.append_cancel_left heq] at hplace
  exact h.not_isMarkedPlace hplace

/-- Sidecars of different files stand at different places. -/
theorem IsSubject.beside_ne_beside (h : IsSubject texts) (h' : IsSubject texts')
    (hne : texts ≠ texts') :
    loc ++ Path.names (beside texts) ≠ loc ++ Path.names (beside texts') := by
  intro heq
  have hnames := Path.names_inj (List.append_cancel_left heq)
  exact hne (beside_inj h.ne_nil h'.ne_nil hnames)

/-- **Writing sidecars one after the other** touches their places only, and leaves beside each file
the checksum of what it held from the start. -/
theorem ends_sidecars (hroot : before.Rooted root loc) {places : List (List String)}
    (hsubjects : ∀ texts ∈ places, IsSubject texts) (hnodup : places.Nodup)
    (hends : ((places.map fun texts => root.descend (Path.names texts)).forM fun path =>
      discard (write path)).Ends before () after) :
    after.Rooted root loc ∧
      before.Differs (fun place => ∃ texts ∈ places, place = loc ++ Path.names (beside texts))
        after ∧
      ∀ texts ∈ places, ∀ content, before.at? (loc ++ Path.names texts) = some (.file content) →
        Accompanied after root loc texts content := by
  induction places generalizing before with
  | nil =>
      obtain rfl := Action.ends_forM_nil.mp hends
      exact ⟨hroot, Disk.Differs.refl _ _, by simp⟩
  | cons texts rest ih =>
      rw [List.forall_mem_cons] at hsubjects
      rw [List.nodup_cons] at hnodup
      obtain ⟨hsubject, hothers⟩ := hsubjects
      obtain ⟨middle, hfirst, hrest⟩ := Action.ends_forM_cons.mp hends
      obtain ⟨path, hwrite⟩ := Action.ends_discard.mp hfirst
      obtain ⟨-, content, hread, hwritten⟩ := ends_write.mp hwrite
      rw [pathFor_descend hroot.leads.text_ne_empty hsubject.ne_nil hsubject.isName] at hwritten
      obtain ⟨hover, hmiddle, hstores⟩ := hroot.write_descend (beside_ne_nil hsubject.ne_nil)
        (isName_beside hsubject.ne_nil hsubject.isName) hwritten
      have hone : before.Differs (· = loc ++ Path.names (beside texts)) middle :=
        hover.differs rfl
      obtain ⟨hafter, hdiffers, hall⟩ := ih hmiddle hothers hnodup.2 hrest
      refine ⟨hafter, ?_, ?_⟩
      · refine (hone.mono ?_).trans (hdiffers.mono ?_)
        · rintro place rfl
          exact ⟨texts, List.mem_cons_self, rfl⟩
        · rintro place ⟨other, hother, rfl⟩
          exact ⟨other, List.mem_cons_of_mem _ hother, rfl⟩
      · intro other hother held hat
        rw [List.mem_cons] at hother
        cases hother with
        | inl heq =>
            subst heq
            obtain ⟨hleads, rfl⟩ := Disk.read_descend hroot.wellFormed hroot.leads hroot.dir
              hsubject.isName hat hread
            have hfile := hone.stores ⟨hleads, hat⟩ (hsubject.ne_beside hsubject.ne_nil)
            have hpair : Accompanied middle root loc other content := ⟨hfile, hstores⟩
            -- Neither the file nor its sidecar is one of the sidecars written later.
            refine hpair.of_differs hdiffers ?_ ?_
            · rintro ⟨later, hlater, heq⟩
              exact hsubject.ne_beside (hothers later hlater).ne_nil heq
            · rintro ⟨later, hlater, heq⟩
              refine hsubject.beside_ne_beside (hothers later hlater) (fun hsame => ?_) heq
              exact hnodup.1 (hsame ▸ hlater)
        | inr hmem =>
            refine hall other hmem held ?_
            rw [hone.at?_eq ((hothers other hmem).ne_beside hsubject.ne_nil), hat]

/-- The place below another is called like a sidecar. -/
def MarkedBelow (loc place : Location) : Prop :=
  ∃ rest, place = loc ++ rest ∧ IsMarkedPlace rest

theorem markedBelow_append_iff {rest : Location} :
    MarkedBelow loc (loc ++ rest) ↔ IsMarkedPlace rest := by
  constructor
  · rintro ⟨other, heq, hother⟩
    rwa [List.append_cancel_left heq]
  · intro h
    exact ⟨rest, rfl, h⟩

theorem isMarkedPlace_singleton_iff {name : String} :
    IsMarkedPlace [.utf8 name] ↔ isMarkedName name = true := by
  rw [isMarkedName_iff]
  constructor
  · rintro ⟨front, text, heq⟩
    rw [← List.nil_append [RawText.utf8 name]] at heq
    exact ⟨text, RawText.utf8.inj (List.append_singleton_inj.mp heq).2⟩
  · rintro ⟨text, rfl⟩
    exact ⟨[], text, rfl⟩

/-- Writing all sidecars writes one for each file that has one, by the names that lead there. -/
theorem exists_places_of_writeAll (hroot : before.Rooted root loc) {excluded : List String}
    (hexcluded : ∀ name ∈ excluded, '/' ∉ name.toList) {count : Nat}
    (hends : (writeAll root excluded).Ends before count after) :
    before.Walkable root loc ∧ ∃ places, IsSubjects before loc excluded places ∧
      subjects before root excluded =
        .ok ((places.map Prod.fst).map fun texts => root.descend (Path.names texts)) ∧
      count = places.length ∧
      (((places.map Prod.fst).map fun texts => root.descend (Path.names texts)).forM fun path =>
        discard (write path)).Ends before () after := by
  obtain ⟨paths, hsubjects, rfl, hwrites⟩ := ends_writeAll.mp hends
  obtain ⟨files, hfiles, -⟩ := subjects_eq_ok_iff.mp hsubjects
  obtain ⟨found, hlisted⟩ := Disk.listed_of_filesUnder hroot.wellFormed hfiles
  obtain rfl := hroot.leads.unique hlisted.leads
  obtain ⟨places, hplaces, hmap⟩ := subjects_of_listed hfiles hlisted hexcluded
  have hnames : paths = (places.map Prod.fst).map fun texts => root.descend (Path.names texts) := by
    rw [hsubjects, Except.ok.injEq] at hmap
    rw [hmap, List.map_map]
    rfl
  subst hnames
  exact ⟨hlisted.walkable, places, hplaces, hsubjects, by rw [List.length_map, List.length_map],
    hwrites⟩

/-- **Writing all sidecars** touches their places only, and leaves beside every file that has a
sidecar the checksum of its content. -/
theorem ends_writeAll_places (hroot : before.Rooted root loc) {excluded : List String}
    (hexcluded : ∀ name ∈ excluded, '/' ∉ name.toList) {count : Nat}
    (hends : (writeAll root excluded).Ends before count after) :
    after.Rooted root loc ∧ before.Walkable root loc ∧
      ∃ places, IsSubjects before loc excluded places ∧ count = places.length ∧
        before.Differs (fun place => ∃ texts ∈ places.map Prod.fst,
          place = loc ++ Path.names (beside texts)) after ∧
        ∀ texts content, (texts, content) ∈ places →
          Accompanied after root loc texts content := by
  obtain ⟨hwalk, places, hplaces, -, hcount, hwrites⟩ :=
    exists_places_of_writeAll hroot hexcluded hends
  obtain ⟨hafter, hdiffers, hstores⟩ :=
    ends_sidecars hroot hplaces.isSubject hplaces.nodup hwrites
  refine ⟨hafter, hwalk, places, hplaces, hcount, hdiffers, fun texts content hmem => ?_⟩
  have hat := ((hplaces.mem_iff texts content).mp hmem).2.2
  exact hstores texts (List.mem_map_of_mem hmem) content hat

end PackageSeal.Sidecar
