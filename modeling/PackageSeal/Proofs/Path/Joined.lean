import PackageSeal.Proofs.Disk.Names
import PackageSeal.Sidecar

/-!
# Joined paths

What a joined path means, in terms of its two parts. The pieces of a path without an empty last one
are its `stem`; joining puts the pieces of the second path after the stem of the first
(`split_join`), so the steps and the components of the whole are those of the parts.

A path that descends from a root by names has those names as its last components, and `below?` finds
them again (`below?_descend`).
-/

namespace PackageSeal

/-- A text that can be the name of an entry, as far as its characters go. -/
structure Text.IsName (text : String) : Prop where
  ne_empty : text ≠ ""
  ne_dot : text ≠ "."
  ne_dots : text ≠ ".."
  no_separator : '/' ∉ text.toList

namespace Path

variable {p root other : Path} {name : String}

/-- The pieces of a path, without an empty last one. -/
def stem (p : Path) : List (List Char) :=
  let pieces := Text.split '/' p.text.toList
  if p.text.toList.getLast? = some '/' then pieces.dropLast else pieces

theorem stem_of_slash {front : List Char} (h : p.text.toList = front ++ ['/']) :
    p.stem = Text.split '/' front ∧ Text.split '/' p.text.toList = p.stem ++ [[]] := by
  have hsplit : Text.split '/' p.text.toList = Text.split '/' front ++ [[]] := by
    rw [h, Text.split_append_sep]
    rfl
  have hstem : p.stem = Text.split '/' front := by
    rw [stem, if_pos (by rw [h, List.getLast?_concat])]
    rw [hsplit, List.dropLast_concat]
  exact ⟨hstem, by rw [hsplit, hstem]⟩

theorem stem_of_no_slash (h : p.text.toList.getLast? ≠ some '/') :
    p.stem = Text.split '/' p.text.toList := by
  rw [stem, if_neg h]

theorem stem_ne_nil (p : Path) : p.stem ≠ [] := by
  by_cases h : p.text.toList.getLast? = some '/'
  · obtain ⟨front, hfront⟩ := List.getLast?_eq_some_iff.mp h
    rw [(stem_of_slash hfront).1]
    exact Text.split_ne_nil '/' front
  · rw [stem_of_no_slash h]
    exact Text.split_ne_nil '/' _

/-! ## Joins -/

theorem join_eq (hp : p.text ≠ "") (ho : other.isAbsolute = false) :
    p.join other = if p.text.toList.getLast? = some '/' then ⟨p.text ++ other.text⟩
      else ⟨p.text ++ "/" ++ other.text⟩ := by
  rw [join, if_neg (by simp [ho, hp])]

/-- The second path of a join stands at its end. -/
theorem toList_join (hp : p.text ≠ "") (ho : other.isAbsolute = false) :
    ∃ front, (p.join other).text.toList = front ++ other.text.toList ∧
      front.head? = p.text.toList.head? ∧
      Text.split '/' (front ++ other.text.toList) = p.stem ++ Text.split '/' other.text.toList := by
  have hne : p.text.toList ≠ [] := fun h => hp (String.toList_eq_nil_iff.mp h)
  rw [join_eq hp ho]
  by_cases h : p.text.toList.getLast? = some '/'
  · obtain ⟨front, hfront⟩ := List.getLast?_eq_some_iff.mp h
    refine ⟨p.text.toList, by rw [if_pos h, String.toList_append], rfl, ?_⟩
    rw [(stem_of_slash hfront).1, hfront, List.append_assoc, List.singleton_append,
      Text.split_append_sep]
  · refine ⟨p.text.toList ++ ['/'], ?_, ?_, ?_⟩
    · rw [if_neg h, String.toList_append, String.toList_append]
      rfl
    · rw [List.head?_append_of_ne_nil _ hne]
    · rw [stem_of_no_slash h, List.append_assoc, List.singleton_append, Text.split_append_sep]

/-- The pieces of a join are the stem of the first path and the pieces of the second. -/
theorem split_join (hp : p.text ≠ "") (ho : other.isAbsolute = false) :
    Text.split '/' (p.join other).text.toList =
      p.stem ++ Text.split '/' other.text.toList := by
  obtain ⟨front, htext, -, hsplit⟩ := toList_join hp ho
  rw [htext, hsplit]

theorem join_ne_empty (hp : p.text ≠ "") (ho : other.isAbsolute = false) :
    (p.join other).text ≠ "" := by
  obtain ⟨front, htext, hhead, -⟩ := toList_join hp ho
  intro h
  rw [h, String.toList_empty] at htext
  have hfront : front = [] := (List.append_eq_nil_iff.mp htext.symm).1
  rw [hfront, List.head?_nil, eq_comm, List.head?_eq_none_iff, String.toList_eq_nil_iff] at hhead
  exact hp hhead

theorem not_isAbsolute_of_no_separator (h : '/' ∉ name.toList) :
    (Path.mk name).isAbsolute = false := by
  rw [isAbsolute, beq_eq_false_iff_ne]
  intro hhead
  exact h (List.mem_of_head? hhead)

theorem getLast?_join (hp : p.text ≠ "") (ho : other.isAbsolute = false) (hne : other.text ≠ "") :
    (p.join other).text.toList.getLast? = other.text.toList.getLast? := by
  obtain ⟨front, htext, -, -⟩ := toList_join hp ho
  rw [htext, List.getLast?_append_of_ne_nil]
  exact fun h => hne (String.toList_eq_nil_iff.mp h)

/-- The stem of a join is made of both stems. -/
theorem stem_join_relative (hp : p.text ≠ "") (ho : other.isAbsolute = false)
    (hne : other.text ≠ "") : (p.join other).stem = p.stem ++ other.stem := by
  have hlast := getLast?_join hp ho hne
  by_cases h : other.text.toList.getLast? = some '/'
  · obtain ⟨front, hfront⟩ := List.getLast?_eq_some_iff.mp h
    rw [stem, if_pos (hlast.trans h), split_join hp ho, (stem_of_slash hfront).2,
      ← List.append_assoc, List.dropLast_concat]
  · rw [stem_of_no_slash (hlast ▸ h), split_join hp ho, stem_of_no_slash h]

theorem stem_join (hp : p.text ≠ "") (hname : Text.IsName name) :
    (p.join ⟨name⟩).stem = p.stem ++ [name.toList] := by
  have ho := not_isAbsolute_of_no_separator hname.no_separator
  rw [stem_join_relative hp ho hname.ne_empty, stem_of_no_slash (p := ⟨name⟩),
    Text.split_of_notMem hname.no_separator]
  exact fun h => hname.no_separator (List.mem_of_getLast? h)

/-- What is put after a joined name is put after the name. -/
theorem extend_join (hp : p.text ≠ "") (hname : Text.IsName name) (suffix : String) :
    (p.join ⟨name⟩).extend suffix = p.join ⟨name ++ suffix⟩ := by
  have ho := not_isAbsolute_of_no_separator hname.no_separator
  have ho' : (Path.mk (name ++ suffix)).isAbsolute = false := by
    rw [isAbsolute, String.toList_append, List.head?_append_of_ne_nil]
    · exact ho
    · exact fun h => hname.ne_empty (String.toList_eq_nil_iff.mp h)
  rw [join_eq hp ho, join_eq hp ho']
  by_cases h : p.text.toList.getLast? = some '/'
  · rw [if_pos h, if_pos h, extend, String.append_assoc]
  · rw [if_neg h, if_neg h, extend, String.append_assoc]

/-! ## Routes -/

theorem steps_eq_stem (p : Path) :
    (Route.ofText p.text).steps = p.stem.filterMap Route.stepOfText? := by
  rw [Route.ofText]
  by_cases h : p.text.toList.getLast? = some '/'
  · obtain ⟨front, hfront⟩ := List.getLast?_eq_some_iff.mp h
    simp only [(stem_of_slash hfront).2, List.filterMap_append]
    simp [Route.stepOfText?]
  · simp only [stem_of_no_slash h]

/-- The route of a join takes the steps of the first path, then those of the second. -/
theorem route_join (hp : p.text ≠ "") (ho : other.isAbsolute = false) (hne : other.text ≠ "") :
    Route.ofText (p.join other).text =
      ⟨(Route.ofText p.text).absolute,
        (Route.ofText p.text).steps ++ (Route.ofText other.text).steps,
        (Route.ofText other.text).slash⟩ := by
  have hsteps : (Route.ofText (p.join other).text).steps =
      (Route.ofText p.text).steps ++ (Route.ofText other.text).steps := by
    rw [steps_eq_stem p]
    simp only [Route.ofText, split_join hp ho, List.filterMap_append]
  have habsolute : (Route.ofText (p.join other).text).absolute =
      (Route.ofText p.text).absolute := by
    obtain ⟨front, htext, hhead, -⟩ := toList_join hp ho
    have hfront : front ≠ [] := by
      intro h
      rw [h, List.head?_nil, eq_comm, List.head?_eq_none_iff, String.toList_eq_nil_iff] at hhead
      exact hp hhead
    simp only [Route.ofText, htext, List.head?_append_of_ne_nil _ hfront, hhead]
  have hslash : (Route.ofText (p.join other).text).slash = (Route.ofText other.text).slash := by
    simp only [Route.ofText, getLast?_join hp ho hne]
  rw [← hsteps, ← habsolute, ← hslash]

/-- Joining the empty path asks for a directory. -/
theorem slash_join_empty (hroot : root.text ≠ "") :
    (Route.ofText (root.join ⟨""⟩).text).slash = true := by
  rw [join_eq hroot (not_isAbsolute_of_no_separator (by simp))]
  by_cases h : root.text.toList.getLast? = some '/'
  · rw [if_pos h]
    simp [Route.ofText, h]
  · rw [if_neg h]
    simp [Route.ofText]

/-- A name is one step. -/
theorem route_name (hname : Text.IsName name) :
    (Route.ofText name).steps = [.into (.utf8 name)] ∧ (Route.ofText name).slash = false := by
  constructor
  · have hstep : Route.stepOfText? name.toList = some (.into (.utf8 name)) := by
      rw [Route.stepOfText?_eq_into_iff, String.ofList_toList]
      refine ⟨⟨fun h => hname.ne_empty (String.toList_inj.mp h),
        fun h => hname.ne_dot (String.toList_inj.mp h),
        fun h => hname.ne_dots (String.toList_inj.mp h)⟩, rfl⟩
    simp only [Route.ofText, Text.split_of_notMem hname.no_separator, List.filterMap_cons, hstep,
      List.filterMap_nil]
  · simp only [Route.ofText, beq_eq_false_iff_ne]
    exact fun h => hname.no_separator (List.mem_of_getLast? h)

theorem slash_join_name (root : Path) (hname : Text.IsName name) :
    (Route.ofText (root.join ⟨name⟩).text).slash = false := by
  by_cases hroot : root.text = ""
  · rw [join, if_pos (.inr hroot)]
    exact (route_name hname).2
  · rw [route_join hroot (not_isAbsolute_of_no_separator hname.no_separator) hname.ne_empty]
    exact (route_name hname).2

/-! ## Components -/

/-- The pieces of a stem, each with what it stands for. -/
def markStem : List (List Char) → List (String × Option Component)
  | [] => []
  | first :: rest =>
    (String.ofList first, leading (String.ofList first) true) ::
      rest.map fun piece => (String.ofList piece, inner (String.ofList piece))

theorem markStem_append {front : List (List Char)} (h : front ≠ []) (rest : List (List Char)) :
    markStem (front ++ rest) = markStem front ++
      rest.map fun piece => (String.ofList piece, inner (String.ofList piece)) := by
  cases front with
  | nil => exact absurd rfl h
  | cons first front => simp [markStem]

/-- What a path marks is its stem, and after it nothing that stands for something. -/
theorem marked_eq_stem (hp : p.text ≠ "") :
    ∃ trail, p.marked = markStem p.stem ++ trail ∧ ∀ piece ∈ trail, piece.2 = none := by
  by_cases h : p.text.toList.getLast? = some '/'
  · obtain ⟨front, hfront⟩ := List.getLast?_eq_some_iff.mp h
    refine ⟨[("", none)], ?_, by simp⟩
    have hsplit := (stem_of_slash hfront).2
    cases hstem : p.stem with
    | nil => exact absurd hstem p.stem_ne_nil
    | cons first rest =>
        have hmore : (!(List.map String.ofList (rest ++ [[]])).isEmpty) = true := by simp
        rw [marked, pieces, hsplit, hstem, List.cons_append, List.map_cons]
        simp only [hmore]
        simp [markStem, inner]
  · refine ⟨[], ?_, by simp⟩
    have hsplit := stem_of_no_slash h
    rw [List.append_nil, marked, pieces, ← hsplit]
    cases hstem : p.stem with
    | nil => exact absurd hstem p.stem_ne_nil
    | cons first rest =>
        cases rest with
        | cons next rest => simp [markStem]
        | nil =>
            -- A lone piece is the whole text, which is not empty.
            have hwhole : first = p.text.toList := by
              have := Text.joinWith_split '/' p.text.toList
              rw [← hsplit, hstem] at this
              exact this
            subst hwhole
            simp [markStem, leading, hp]

theorem components_eq_stem (hp : p.text ≠ "") :
    p.components = (markStem p.stem).filterMap Prod.snd := by
  obtain ⟨trail, hmarked, htrail⟩ := marked_eq_stem hp
  have hnone : trail.filterMap Prod.snd = [] := List.filterMap_eq_nil_iff.mpr htrail
  rw [components, hmarked, List.filterMap_append, hnone, List.append_nil]

/-- The first piece of a path stands for something. -/
theorem components_ne_nil (hp : p.text ≠ "") : p.components ≠ [] := by
  rw [components_eq_stem hp]
  cases hstem : p.stem with
  | nil => exact absurd hstem p.stem_ne_nil
  | cons first rest =>
      rw [markStem, List.filterMap_cons]
      have hsome : (leading (String.ofList first) true).isSome := by
        by_cases hnil : String.ofList first = ""
        · simp [leading, hnil]
        · by_cases hdot : String.ofList first = "."
          · simp [leading, hdot]
          · by_cases hdots : String.ofList first = ".."
            · simp [leading, inner, hdots]
            · simp [leading, inner, hnil, hdot, hdots]
      obtain ⟨component, hcomponent⟩ := Option.isSome_iff_exists.mp hsome
      simp [hcomponent]

theorem inner_name (hname : Text.IsName name) : inner name = some (.name name) := by
  rw [inner, if_neg, if_neg hname.ne_dots]
  intro h
  cases h with
  | inl h => exact hname.ne_empty h
  | inr h => exact hname.ne_dot h

theorem components_join (hp : p.text ≠ "") (hname : Text.IsName name) :
    (p.join ⟨name⟩).components = p.components ++ [.name name] := by
  have hne := join_ne_empty hp (not_isAbsolute_of_no_separator hname.no_separator)
  rw [components_eq_stem hne, components_eq_stem hp, stem_join hp hname,
    markStem_append p.stem_ne_nil, List.filterMap_append]
  simp [inner_name hname]

theorem lastName?_join (hp : p.text ≠ "") (hname : Text.IsName name) :
    (p.join ⟨name⟩).lastName? = some name := by
  rw [lastName?, components_join hp hname, List.getLast?_concat]

/-! ## Descending by names -/

/-- The names that texts are. -/
abbrev names (texts : List String) : Location :=
  texts.map RawText.utf8

theorem names_inj {texts texts' : List String} (h : names texts = names texts') : texts = texts' :=
  List.map_injective_iff.mpr (fun _ _ heq => RawText.utf8.inj heq) h

theorem descend_concat (p : Path) (front : Location) (name : RawText) :
    p.descend (front ++ [name]) = (p.descend front).join ⟨name.shown⟩ := by
  rw [descend, List.foldl_concat]
  rfl

variable {texts : List String}

theorem descend_ne_empty (hp : p.text ≠ "") (h : ∀ text ∈ texts, Text.IsName text) :
    (p.descend (names texts)).text ≠ "" := by
  induction texts generalizing p with
  | nil => exact hp
  | cons text rest ih =>
      rw [List.forall_mem_cons] at h
      exact ih (join_ne_empty hp (not_isAbsolute_of_no_separator h.1.no_separator)) h.2

theorem stem_descend (hp : p.text ≠ "") (h : ∀ text ∈ texts, Text.IsName text) :
    (p.descend (names texts)).stem = p.stem ++ texts.map String.toList := by
  induction texts generalizing p with
  | nil => rw [List.map_nil, List.append_nil]; rfl
  | cons text rest ih =>
      rw [List.forall_mem_cons] at h
      have hjoin := join_ne_empty hp (not_isAbsolute_of_no_separator h.1.no_separator)
      show ((p.join ⟨text⟩).descend (names rest)).stem = _
      rw [ih hjoin h.2, stem_join hp h.1, List.map_cons, List.append_assoc]
      rfl

theorem components_descend (hp : p.text ≠ "") (h : ∀ text ∈ texts, Text.IsName text) :
    (p.descend (names texts)).components = p.components ++ texts.map Component.name := by
  induction texts generalizing p with
  | nil => rw [List.map_nil, List.append_nil]; rfl
  | cons text rest ih =>
      rw [List.forall_mem_cons] at h
      have hjoin := join_ne_empty hp (not_isAbsolute_of_no_separator h.1.no_separator)
      show ((p.join ⟨text⟩).descend (names rest)).components = _
      rw [ih hjoin h.2, components_join hp h.1, List.map_cons, List.append_assoc]
      rfl

/-- Names are found again in the path that descends by them. -/
theorem descend_inj {texts' : List String} (hp : p.text ≠ "")
    (h : ∀ text ∈ texts, Text.IsName text) (h' : ∀ text ∈ texts', Text.IsName text)
    (heq : p.descend (names texts) = p.descend (names texts')) : texts = texts' := by
  have hcomponents := components_descend hp h
  rw [heq, components_descend hp h', List.append_cancel_left_eq] at hcomponents
  exact (List.map_injective_iff.mpr (fun _ _ h => Component.name.inj h) hcomponents).symm

theorem lastName?_descend (hp : p.text ≠ "") (h : ∀ text ∈ texts, Text.IsName text)
    (hname : Text.IsName name) : (p.descend (names (texts ++ [name]))).lastName? = some name := by
  rw [names, List.map_append, List.map_singleton, descend_concat]
  exact lastName?_join (descend_ne_empty hp h) hname

/-! ## Names below a root -/

/-- Dropping the components of the front leaves what follows, but for pieces that stand for
nothing. -/
theorem after?_append (front rest : List (String × Option Component)) :
    ∃ trail, after? (front.filterMap Prod.snd) (front ++ rest) = some (trail ++ rest) ∧
      ∀ piece ∈ trail, piece.2 = none := by
  induction front with
  | nil => exact ⟨[], by simp [after?], by simp⟩
  | cons piece front ih =>
      obtain ⟨text, meaning⟩ := piece
      obtain ⟨trail, hafter, htrail⟩ := ih
      cases meaning with
      | some component =>
          refine ⟨trail, ?_, htrail⟩
          show after? (component :: front.filterMap Prod.snd) ((text, some component) ::
            (front ++ rest)) = _
          rw [after?, if_pos rfl, hafter]
      | none =>
          rw [List.filterMap_cons_none rfl]
          cases hrest : front.filterMap Prod.snd with
          | nil =>
              rw [List.filterMap_eq_nil_iff] at hrest
              refine ⟨(text, none) :: front, rfl, ?_⟩
              exact List.forall_mem_cons.mpr ⟨rfl, hrest⟩
          | cons component others =>
              refine ⟨trail, ?_, htrail⟩
              rw [List.cons_append, after?, ← hrest, hafter]

/-- `trimEnd` drops what stands for nothing, down to a piece that stands for something. -/
theorem trimEnd_append {marks trail : List (String × Option Component)}
    (h : ∀ piece ∈ marks, piece.2 ≠ none) (htrail : ∀ piece ∈ trail, piece.2 = none) :
    trimEnd (marks ++ trail) = marks := by
  have hdrop : ∀ piece ∈ trail.reverse,
      (fun mark : String × Option Component => mark.2.isNone) piece := by
    intro piece hpiece
    simp [htrail piece (List.mem_reverse.mp hpiece)]
  rw [trimEnd, List.reverse_append, List.dropWhile_append_of_pos hdrop]
  cases hreverse : marks.reverse with
  | nil => rw [List.reverse_eq_nil_iff.mp hreverse]; rfl
  | cons last front =>
      have hlast : last.2 ≠ none := h last (List.mem_reverse.mp (hreverse ▸ List.mem_cons_self))
      rw [List.dropWhile_cons_of_neg (by simpa using hlast), ← hreverse, List.reverse_reverse]

/-- Names, each marked as what it is. -/
def markNames (texts : List String) : List (String × Option Component) :=
  texts.map fun text => (text, some (.name text))

theorem ofMarked_markNames (texts : List String) :
    ofMarked (markNames texts) =
      ⟨String.ofList (Text.joinWith '/' (texts.map String.toList))⟩ := by
  have hmap : (markNames texts).map (fun piece => piece.1.toList) = texts.map String.toList := by
    rw [markNames, List.map_map]
    rfl
  rw [← hmap]
  cases texts with
  | nil => rfl
  | cons text rest =>
      cases rest with
      | nil => rfl
      | cons next rest => rfl

theorem markStem_stem_descend (hp : p.text ≠ "") (h : ∀ text ∈ texts, Text.IsName text) :
    markStem (p.descend (names texts)).stem = markStem p.stem ++ markNames texts := by
  rw [stem_descend hp h, markStem_append p.stem_ne_nil, List.map_map]
  congr 1
  refine List.map_congr_left fun text htext => ?_
  simp [inner_name (h text htext)]

/-- **The path of a place, seen from the root, is the names that lead there.** -/
theorem below?_descend (hp : root.text ≠ "") (h : ∀ text ∈ texts, Text.IsName text)
    (hne : texts ≠ []) :
    root.below? (root.descend (names texts)) =
      some ⟨String.ofList (Text.joinWith '/' (texts.map String.toList))⟩ := by
  have hmarks : ∀ piece ∈ markNames texts, piece.2 ≠ none := by
    intro piece hpiece
    obtain ⟨text, -, rfl⟩ := List.mem_map.mp hpiece
    simp
  obtain ⟨trail, hmarked, htrail⟩ := marked_eq_stem (descend_ne_empty hp h)
  obtain ⟨skipped, hafter, hskipped⟩ :=
    after?_append (markStem root.stem) (markNames texts ++ trail)
  rw [← components_eq_stem hp, ← List.append_assoc, ← markStem_stem_descend hp h, ← hmarked]
    at hafter
  have hbody : (skipped ++ (markNames texts ++ trail)).dropWhile (fun piece => piece.2.isNone) =
      markNames texts ++ trail := by
    rw [List.dropWhile_append_of_pos (by simpa using hskipped)]
    cases texts with
    | nil => exact absurd rfl hne
    | cons first rest => rfl
  have hroot : root.components.isEmpty = false := by
    simpa using components_ne_nil hp
  rw [below?, hafter]
  show some (ofMarked (trimEnd (if root.components.isEmpty then _ else _))) = _
  rw [hroot, if_neg (by simp), hbody, trimEnd_append hmarks htrail, ofMarked_markNames]

end Path

end PackageSeal
