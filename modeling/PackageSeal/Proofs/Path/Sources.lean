import PackageSeal.Layout.Validity
import PackageSeal.Proofs.Disk.Below

/-!
# Sources inside a package

A source that stays inside the package, whatever its spelling, is a way down by names
(`names_of_staysInside`), and these are the names of its components. So a source that is not the
place of a signature leads to another place than every signature (`names_ne_of_not_isOverwritten`),
and one that is no sidecar ends in a name that no sidecar has.
-/

namespace PackageSeal

/-- The text of a component that is a name. -/
def Component.name? : Component → Option String
  | name text => some text
  | _ => none

namespace Path

/-- What a piece asks for and what it stands for agree on names. -/
theorem name?_stepOfText? (piece : List Char) (more : Bool) :
    (Route.stepOfText? piece).bind Step.name? =
        ((inner (String.ofList piece)).bind Component.name?).map RawText.utf8 ∧
      (leading (String.ofList piece) more).bind Component.name? =
        (inner (String.ofList piece)).bind Component.name? := by
  have hiff : ∀ chars, String.ofList piece = String.ofList chars ↔ piece = chars := by
    intro chars
    rw [← String.toList_inj, String.toList_ofList, String.toList_ofList]
  have hnil : String.ofList piece = "" ↔ piece = [] := hiff []
  have hdot : String.ofList piece = "." ↔ piece = ['.'] := hiff ['.']
  have hdots : String.ofList piece = ".." ↔ piece = ['.', '.'] := hiff ['.', '.']
  unfold Route.stepOfText? leading inner
  by_cases h : piece = []
  · cases more with
    | false => simp [h]
    | true => simp [h, Component.name?]
  · by_cases h' : piece = ['.']
    · simp [h', Step.name?, Component.name?]
    · by_cases h'' : piece = ['.', '.']
      · simp [h'', Step.name?, Component.name?]
      · simp [h, h', h'', hnil, hdot, hdots, Step.name?, Component.name?]

/-- The names that the steps of a path enter are those among its components. -/
theorem names_steps (p : Path) :
    Step.names (Route.ofText p.text).steps =
      (p.components.filterMap Component.name?).map RawText.utf8 := by
  have hinner : ∀ pieces : List (List Char),
      Step.names (pieces.filterMap Route.stepOfText?) =
        ((pieces.filterMap fun piece => inner (String.ofList piece)).filterMap
          Component.name?).map RawText.utf8 := by
    intro pieces
    rw [Step.names, List.filterMap_filterMap, List.filterMap_filterMap, List.map_filterMap]
    exact List.filterMap_congr fun piece _ => (name?_stepOfText? piece true).1
  simp only [Route.ofText, hinner]
  congr 1
  rw [components, marked, pieces]
  cases Text.split '/' p.text.toList with
  | nil => rfl
  | cons first rest =>
      have hfirst := (name?_stepOfText? first (!(rest.map String.ofList).isEmpty)).2
      rw [List.map_cons]
      simp only [List.filterMap_cons, List.filterMap_map]
      cases hinner : inner (String.ofList first) with
      | none =>
          cases hleading : leading (String.ofList first) (!(rest.map String.ofList).isEmpty) with
          | none => rfl
          | some component =>
              rw [hinner, hleading, Option.bind_some, Option.bind_none] at hfirst
              rw [List.filterMap_cons_none hfirst]
              rfl
      | some component =>
          cases hleading : leading (String.ofList first) (!(rest.map String.ofList).isEmpty) with
          | none =>
              rw [hinner, hleading, Option.bind_some, Option.bind_none] at hfirst
              rw [List.filterMap_cons_none hfirst.symm]
              rfl
          | some component' =>
              rw [hinner, hleading, Option.bind_some, Option.bind_some] at hfirst
              simp only [List.filterMap_cons, hfirst]
              rfl

/-- A step up is a component up. -/
theorem up_mem_components {p : Path} (h : .up ∈ (Route.ofText p.text).steps) :
    .up ∈ p.components := by
  simp only [Route.ofText, List.mem_filterMap] at h
  obtain ⟨piece, hpiece, hstep⟩ := h
  have hdots : piece = ['.', '.'] := by
    by_contra hne
    unfold Route.stepOfText? at hstep
    rw [if_neg hne] at hstep
    split_ifs at hstep <;> simp at hstep
  subst hdots
  have hinner : inner (String.ofList ['.', '.']) = some .up := by decide
  rw [components, marked, pieces]
  cases hsplit : Text.split '/' p.text.toList with
  | nil => rw [hsplit] at hpiece; contradiction
  | cons first rest =>
      rw [hsplit, List.mem_cons] at hpiece
      rw [List.map_cons]
      simp only [List.mem_filterMap]
      cases hpiece with
      | inl heq =>
          rw [← heq]
          exact ⟨_, List.mem_cons_self, by simp [leading, inner]⟩
      | inr hmem =>
          refine ⟨(String.ofList ['.', '.'], some .up), ?_, rfl⟩
          refine List.mem_cons_of_mem _ (List.mem_map.mpr ⟨_, List.mem_map_of_mem hmem, ?_⟩)
          rw [hinner]

/-- A dot after the front stands for nothing. -/
theorem inner_ne_here (piece : String) : inner piece ≠ some .here := by
  unfold inner
  split_ifs <;> simp

/-- An absolute path begins with the root. -/
theorem root_mem_components {p : Path} (h : p.isAbsolute = true) : .root ∈ p.components := by
  rw [isAbsolute, beq_iff_eq] at h
  obtain ⟨rest, hrest⟩ := List.head?_eq_some_iff.mp h
  have hsplit : Text.split '/' p.text.toList = [] :: Text.split '/' rest := by
    rw [hrest, Text.split, if_pos rfl]
  rw [components, marked, pieces, hsplit, List.map_cons]
  have hmore : (!((Text.split '/' rest).map String.ofList).isEmpty) = true := by
    simpa using Text.split_ne_nil '/' rest
  simp only [hmore]
  simp [leading]

/-- Only an absolute path has the root among its components. -/
theorem isAbsolute_of_root_mem {p : Path} (h : .root ∈ p.components) : p.isAbsolute = true := by
  have hinner : ∀ piece, inner piece ≠ some .root := by
    intro piece
    unfold inner
    split_ifs <;> simp
  rw [components, marked, pieces] at h
  rw [isAbsolute, beq_iff_eq]
  cases htext : p.text.toList with
  | nil =>
      rw [htext] at h
      simp [Text.split, leading] at h
  | cons c chars =>
      rw [htext, Text.split] at h
      by_cases hc : c = '/'
      · rw [hc]; rfl
      · -- The first piece is not empty, so it stands for no root.
        have hleading : ∀ (piece : List Char) (more : Bool),
            leading (String.ofList (c :: piece)) more ≠ some .root := by
          intro piece more
          have hne : String.ofList (c :: piece) ≠ "" := by
            rw [Ne, ← String.toList_inj, String.toList_ofList]
            exact List.cons_ne_nil _ _
          rw [leading, if_neg hne]
          split_ifs
          · simp
          · exact hinner _
        rw [if_neg hc] at h
        cases hsplit : Text.split '/' chars with
        | nil => exact absurd hsplit (Text.split_ne_nil '/' chars)
        | cons piece rest =>
            rw [hsplit, List.map_cons] at h
            obtain ⟨⟨text, found⟩, hmark, rfl⟩ := List.mem_filterMap.mp h
            rw [List.mem_cons] at hmark
            cases hmark with
            | inl heq => exact absurd (Prod.mk.inj heq).2.symm (hleading _ _)
            | inr hrest =>
                obtain ⟨piece, -, heq⟩ := List.mem_map.mp hrest
                exact absurd (Prod.mk.inj heq).2 (hinner _)

end Path

namespace Layout

variable {source : Path}

/-- A source stays inside exactly if it is relative and never leads up. -/
theorem staysInside_iff :
    staysInside source = true ↔ source.isAbsolute = false ∧ .up ∉ source.components := by
  rw [staysInside, List.all_eq_true]
  constructor
  · intro h
    constructor
    · by_contra habsolute
      rw [Bool.not_eq_false] at habsolute
      simpa using h _ (Path.root_mem_components habsolute)
    · intro hup
      simpa using h _ hup
  · intro ⟨hrelative, hup⟩ component hmem
    cases component with
    | root =>
        rw [Path.isAbsolute_of_root_mem hmem] at hrelative
        cases hrelative
    | here => rfl
    | up => exact absurd hmem hup
    | name text => rfl

/-- A source is overwritten exactly if, but for dots, it is the name of a signature and nothing
else. -/
theorem isOverwritten_eq_false_iff {artifacts : List String} :
    isOverwritten artifacts source = false ↔
      ∀ name ∈ artifacts, source.components.filter (· != .here) ≠ [.name name] := by
  rw [isOverwritten]
  split
  · next name heq =>
      rw [heq, List.contains_eq_mem, decide_eq_false_iff_not]
      constructor
      · intro hname other hother hsame
        obtain rfl := Component.name.inj (List.cons.inj hsame).1
        exact hname hother
      · intro h hname
        exact h name hname rfl
  · next hother => exact iff_of_true rfl fun name _ heq => hother name heq

theorem mem_of_staysInside (h : staysInside source = true) {component : Component}
    (hmem : component ∈ source.components) :
    component = .here ∨ ∃ text, component = .name text := by
  have hall := List.all_eq_true.mp h component hmem
  cases component with
  | root => simp at hall
  | here => exact .inl rfl
  | up => simp at hall
  | name text => exact .inr ⟨text, rfl⟩

/-- A source that stays inside is not absolute. -/
theorem not_isAbsolute_of_staysInside (h : staysInside source = true) :
    source.isAbsolute = false := by
  by_contra habsolute
  rw [Bool.not_eq_false] at habsolute
  obtain heq | ⟨text, heq⟩ := mem_of_staysInside h (Path.root_mem_components habsolute)
  · cases heq
  · cases heq

/-- A source that stays inside never leads up. -/
theorem up_notMem_of_staysInside (h : staysInside source = true) :
    .up ∉ (Route.ofText source.text).steps := by
  intro hup
  obtain heq | ⟨text, heq⟩ := mem_of_staysInside h (Path.up_mem_components hup)
  · cases heq
  · cases heq

/-- Without roots and steps up, the components but `.` are the names. -/
theorem filter_eq_names {components : List Component}
    (h : ∀ component ∈ components, component = .here ∨ ∃ text, component = .name text) :
    components.filter (· != .here) = (components.filterMap Component.name?).map .name := by
  induction components with
  | nil => rfl
  | cons component rest ih =>
      rw [List.forall_mem_cons] at h
      have hrest := ih h.2
      obtain hhere | ⟨text, hname⟩ := h.1
      · subst hhere
        rw [List.filter_cons_of_neg (by simp)]
        exact hrest
      · subst hname
        rw [List.filter_cons_of_pos (by simp), hrest]
        rfl

/-- Of the pieces of a stem, a dot at the front stands for itself only there. -/
theorem filter_markStem {stem : List (List Char)}
    (hroot : .root ∉ (Path.markStem stem).filterMap Prod.snd) :
    ((Path.markStem stem).filterMap Prod.snd).filter (· != .here) =
      (stem.map String.ofList).filterMap Path.inner := by
  have hrest : ∀ pieces : List (List Char),
      (pieces.map fun piece => (String.ofList piece, Path.inner (String.ofList piece))).filterMap
        Prod.snd = (pieces.map String.ofList).filterMap Path.inner := by
    intro pieces
    rw [List.filterMap_map, List.filterMap_map]
    rfl
  cases stem with
  | nil => rfl
  | cons first rest =>
      have hkept : ((rest.map String.ofList).filterMap Path.inner).filter (· != .here) =
          (rest.map String.ofList).filterMap Path.inner := by
        refine List.filter_eq_self.mpr fun component hmem => ?_
        obtain ⟨piece, -, hinner⟩ := List.mem_filterMap.mp hmem
        rw [bne_iff_ne]
        rintro rfl
        exact Path.inner_ne_here piece hinner
      rw [Path.markStem, List.filterMap_cons, hrest] at hroot ⊢
      rw [List.map_cons, List.filterMap_cons]
      generalize (rest.map String.ofList).filterMap Path.inner = others at hkept hroot ⊢
      by_cases hnil : String.ofList first = ""
      · simp [Path.leading, hnil] at hroot
      · by_cases hdot : String.ofList first = "."
        · simp [Path.leading, Path.inner, hdot, hkept]
        · have hsame :
            Path.leading (String.ofList first) true = Path.inner (String.ofList first) := by
            rw [Path.leading, if_neg hnil, if_neg hdot]
          simp only [hsame]
          cases hinner : Path.inner (String.ofList first) with
          | none => exact hkept
          | some component =>
              have hne : component ≠ .here := by
                rintro rfl
                exact Path.inner_ne_here _ hinner
              simp [hne, hkept]

/-- Seen from a root, a source that stays inside adds its names to the components of the root. -/
theorem components_join_inside {root : Path} (hroot : root.text ≠ "")
    (h : staysInside source = true) (hne : source.text ≠ "") :
    (root.join source).components =
      root.components ++ (source.components.filterMap Component.name?).map .name := by
  have ho := not_isAbsolute_of_staysInside h
  have hall : ∀ component ∈ source.components, component = .here ∨ ∃ text, component = .name text :=
    fun _ => mem_of_staysInside h
  rw [← filter_eq_names hall, Path.components_eq_stem (Path.join_ne_empty hroot ho),
    Path.components_eq_stem hroot, Path.stem_join_relative hroot ho hne,
    Path.markStem_append root.stem_ne_nil, List.filterMap_append]
  congr 1
  rw [Path.components_eq_stem hne] at hall ⊢
  rw [filter_markStem, List.filterMap_map, List.filterMap_map]
  · rfl
  · intro hmem
    obtain heq | ⟨text, heq⟩ := hall _ hmem
    · cases heq
    · cases heq

/-- A source that no signature overwrites has other names than every signature. -/
theorem names_ne_of_not_isOverwritten {artifacts : List String} (h : staysInside source = true)
    (hover : isOverwritten artifacts source = false) {artifact : String}
    (hmem : artifact ∈ artifacts) :
    Step.names (Route.ofText source.text).steps ≠ [.utf8 artifact] := by
  intro heq
  rw [Path.names_steps, ← List.map_singleton] at heq
  have hnames := Path.names_inj heq
  have hfilter : source.components.filter (· != .here) = [.name artifact] := by
    rw [filter_eq_names fun _ hmem => mem_of_staysInside h hmem, hnames, List.map_singleton]
  rw [isOverwritten, hfilter] at hover
  simp [hmem] at hover

end Layout

/-! ## Last names -/

namespace Path

/-- A dot means something at the front only. -/
theorem here_notMem_tail_components (p : Path) : .here ∉ p.components.tail := by
  rw [components, marked]
  cases p.pieces with
  | nil => simp
  | cons first rest =>
      have hrest : .here ∉ (rest.map fun s => (s, inner s)).filterMap Prod.snd := by
        intro hmem
        obtain ⟨mark, hmark, hsome⟩ := List.mem_filterMap.mp hmem
        obtain ⟨piece, -, rfl⟩ := List.mem_map.mp hmark
        exact inner_ne_here piece hsome
      rw [List.filterMap_cons]
      cases leading first (!rest.isEmpty) with
      | none => exact fun hmem => hrest (List.mem_of_mem_tail hmem)
      | some component => exact hrest

/-- The last name that a path inside a package enters is its last name. -/
theorem lastName?_of_names {p : Path} (h : Layout.staysInside p = true) {front : Location}
    {name : String} (hnames : Step.names (Route.ofText p.text).steps = front ++ [.utf8 name]) :
    p.lastName? = some name := by
  rw [names_steps] at hnames
  have hne : p.components ≠ [] := by
    intro hnil
    rw [hnil] at hnames
    simp at hnames
  obtain ⟨init, last, hcomponents⟩ := exists_concat hne
  have hlast : last ∈ p.components := by
    rw [hcomponents]
    exact List.mem_append_right init List.mem_cons_self
  rw [lastName?, hcomponents, List.getLast?_concat]
  rw [hcomponents, List.filterMap_append, List.map_append] at hnames
  obtain hhere | ⟨text, htext⟩ := Layout.mem_of_staysInside h hlast
  · -- A dot at the end is all there is, so no name is entered.
    subst hhere
    cases init with
    | nil =>
        have hnil : ([] : Location) = front ++ [.utf8 name] := hnames
        simp at hnil
    | cons first rest =>
        have htail := here_notMem_tail_components p
        rw [hcomponents] at htail
        simp at htail
  · subst htext
    have hconcat := List.append_inj_right' hnames rfl
    simp only [List.filterMap_cons, Component.name?, List.filterMap_nil, List.map_cons,
      List.map_nil, List.cons.injEq, RawText.utf8.injEq, and_true] at hconcat
    rw [hconcat]

end Path

namespace Sidecar

theorem isMarkedName_iff {name : String} :
    isMarkedName name = true ↔ ∃ text, name = text ++ suffix := by
  rw [isMarkedName, List.isSuffixOf_iff_suffix]
  constructor
  · rintro ⟨front, hfront⟩
    refine ⟨String.ofList front, ?_⟩
    rw [← String.toList_inj, String.toList_append, String.toList_ofList, hfront]
  · rintro ⟨text, rfl⟩
    exact ⟨text.toList, by rw [String.toList_append]⟩

/-- What stands at the place is called like a sidecar. -/
def IsMarkedPlace (loc : Location) : Prop :=
  ∃ front text, loc = front ++ [RawText.utf8 (text ++ suffix)]

/-- A source that is no sidecar leads to no place of a sidecar. -/
theorem not_isMarkedPlace_names {source : Path} (h : Layout.staysInside source = true)
    (hmarked : isMarked source = false) :
    ¬ IsMarkedPlace (Step.names (Route.ofText source.text).steps) := by
  rintro ⟨front, text, heq⟩
  have hname : isMarkedName (text ++ suffix) = true := isMarkedName_iff.mpr ⟨text, rfl⟩
  rw [isMarked, Path.lastName?_of_names h heq] at hmarked
  have hfalse : isMarkedName (text ++ suffix) = false := hmarked
  rw [hname] at hfalse
  cases hfalse

end Sidecar

end PackageSeal
