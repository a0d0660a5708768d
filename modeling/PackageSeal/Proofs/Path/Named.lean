import PackageSeal.Coverage.Members
import PackageSeal.Proofs.NormalForms
import PackageSeal.Proofs.Path.Joined

/-!
# Members named by places

The file at a place below the root is a member named by the names that lead there
(`memberOfFile_descend`). Where no name holds a backslash the name is those names joined, so that
different places give different members (`ofTexts_inj`); with backslashes two places can give one.
-/

namespace PackageSeal

namespace Path

theorem leading_name {text : String} (h : Text.IsName text) (more : Bool) :
    leading text more = some (.name text) := by
  rw [leading, if_neg h.ne_empty, if_neg h.ne_dot, inner_name h]

/-- Joined names are the components of the path that they make. -/
theorem components_joinWith {texts : List String} (hne : texts ≠ [])
    (h : ∀ text ∈ texts, Text.IsName text) :
    (Path.mk (String.ofList (Text.joinWith '/' (texts.map String.toList)))).components =
      texts.map Component.name := by
  have hsep : ∀ piece ∈ texts.map String.toList, '/' ∉ piece := by
    intro piece hpiece
    obtain ⟨text, htext, rfl⟩ := List.mem_map.mp hpiece
    exact (h text htext).no_separator
  have hpieces : (Path.mk (String.ofList (Text.joinWith '/' (texts.map String.toList)))).pieces =
      texts := by
    rw [pieces, String.toList_ofList, Text.split_joinWith (by simpa using hne) hsep, List.map_map]
    have hid : String.ofList ∘ String.toList = id := by
      funext text
      exact String.ofList_toList
    rw [hid, List.map_id]
  rw [components, marked, hpieces]
  cases texts with
  | nil => exact absurd rfl hne
  | cons first rest =>
      rw [List.forall_mem_cons] at h
      simp only [leading_name h.1, List.filterMap_cons, List.map_cons, List.filterMap_map]
      congr 1
      rw [← List.filterMap_eq_map]
      refine List.filterMap_congr fun text htext => ?_
      exact inner_name (h.2 text htext)

end Path

namespace MemberName

/-- The member name of the place that the names lead to. -/
def ofTexts (texts : List String) : Except NameFault MemberName :=
  ofText (String.ofList (Text.joinWith '/' (texts.map String.toList)))

theorem ofPath_joinWith {texts : List String} (hne : texts ≠ [])
    (h : ∀ text ∈ texts, Text.IsName text) :
    ofPath ⟨String.ofList (Text.joinWith '/' (texts.map String.toList))⟩ = ofTexts texts := by
  rw [ofPath, Path.components_joinWith hne h, List.filterMap_map]
  show ofText (String.ofList (Text.joinWith '/' (texts.filterMap fun text => some text.toList))) = _
  rw [List.filterMap_eq_map', ofTexts]

/-- Nothing is dropped in front of a first piece that is neither empty nor a dot. -/
theorem dropLeading_joinWith {first : List Char} {rest : List (List Char)} (hnil : first ≠ [])
    (hdot : first ≠ ['.']) (hsep : '/' ∉ first) :
    dropLeading (Text.joinWith '/' (first :: rest)) = Text.joinWith '/' (first :: rest) := by
  obtain ⟨tail, htail⟩ : ∃ tail, Text.joinWith '/' (first :: rest) = first ++ tail := by
    cases rest with
    | nil => exact ⟨[], (List.append_nil first).symm⟩
    | cons next others => exact ⟨_, Text.joinWith_cons _ _ (List.cons_ne_nil next others)⟩
  rw [htail]
  cases first with
  | nil => exact absurd rfl hnil
  | cons c cs =>
      rw [List.mem_cons, not_or] at hsep
      unfold dropLeading
      split
      · next heq => exact absurd (List.cons.inj heq).1.symm hsep.1
      · next heq =>
        -- The piece begins with a dot and goes on, so no separator comes second.
        obtain ⟨hc, hrest⟩ := List.cons.inj heq
        cases cs with
        | nil => exact absurd (by rw [hc]) hdot
        | cons d ds =>
            have hd : d = '/' := (List.cons.inj hrest).1
            rw [hd] at hsep
            exact absurd List.mem_cons_self hsep.2
      · rfl

/-- Without backslashes nothing changes in joined names. -/
theorem normalize_joinWith {texts : List String} (hne : texts ≠ [])
    (h : ∀ text ∈ texts, Text.IsName text) (hback : ∀ text ∈ texts, '\\' ∉ text.toList) :
    normalize (Text.joinWith '/' (texts.map String.toList)) =
      Text.joinWith '/' (texts.map String.toList) := by
  have hunify : unify (Text.joinWith '/' (texts.map String.toList)) =
      Text.joinWith '/' (texts.map String.toList) := by
    refine unify_eq_self fun hmem => ?_
    obtain ⟨piece, hpiece, hchar⟩ := Text.mem_of_mem_joinWith (by decide) hmem
    obtain ⟨text, htext, rfl⟩ := List.mem_map.mp hpiece
    exact hback text htext hchar
  rw [normalize, hunify]
  cases texts with
  | nil => exact absurd rfl hne
  | cons first rest =>
      have hfirst := h first List.mem_cons_self
      refine dropLeading_joinWith ?_ ?_ hfirst.no_separator
      · exact fun heq => hfirst.ne_empty (String.toList_inj.mp heq)
      · exact fun heq => hfirst.ne_dot (String.toList_inj.mp heq)

/-- Without backslashes the name of a place is its names joined. -/
theorem text_of_ofTexts {texts : List String} {name : MemberName} (hne : texts ≠ [])
    (h : ∀ text ∈ texts, Text.IsName text) (hback : ∀ text ∈ texts, '\\' ∉ text.toList)
    (hname : ofTexts texts = .ok name) :
    name.text.toList = Text.joinWith '/' (texts.map String.toList) := by
  rwa [ofTexts, ofText_eq_ok_iff, String.toList_ofList, normalize_joinWith hne h hback] at hname

/-- Without backslashes and NULs every place has a name. -/
theorem exists_ofTexts {texts : List String} (hne : texts ≠ [])
    (h : ∀ text ∈ texts, Text.IsName text) (hback : ∀ text ∈ texts, '\\' ∉ text.toList)
    (hnul : ∀ text ∈ texts, '\x00' ∉ text.toList) : ∃ name, ofTexts texts = .ok name := by
  have hfilled : Text.joinWith '/' (texts.map String.toList) ≠ [] := by
    cases texts with
    | nil => exact absurd rfl hne
    | cons first rest =>
        have hfirst : first.toList ≠ [] := fun heq =>
          (h first List.mem_cons_self).ne_empty (String.toList_eq_nil_iff.mp heq)
        cases rest with
        | nil => exact hfirst
        | cons next others =>
            rw [List.map_cons, Text.joinWith_cons _ _ (by simp)]
            exact List.append_ne_nil_of_left_ne_nil hfirst _
  have hclean : '\x00' ∉ Text.joinWith '/' (texts.map String.toList) := by
    intro hmem
    obtain ⟨piece, hpiece, hchar⟩ := Text.mem_of_mem_joinWith (by decide) hmem
    obtain ⟨text, htext, rfl⟩ := List.mem_map.mp hpiece
    exact hnul text htext hchar
  rw [ofTexts, exists_ofText_iff, String.toList_ofList, normalize_joinWith hne h hback]
  exact ⟨hfilled, hclean⟩

/-- **Different places give different members** where no name holds a backslash. -/
theorem ofTexts_inj {texts texts' : List String} {name : MemberName} (hne : texts ≠ [])
    (hne' : texts' ≠ []) (h : ∀ text ∈ texts, Text.IsName text)
    (h' : ∀ text ∈ texts', Text.IsName text) (hback : ∀ text ∈ texts, '\\' ∉ text.toList)
    (hback' : ∀ text ∈ texts', '\\' ∉ text.toList) (hname : ofTexts texts = .ok name)
    (hname' : ofTexts texts' = .ok name) : texts = texts' := by
  have htext := text_of_ofTexts hne h hback hname
  rw [text_of_ofTexts hne' h' hback' hname'] at htext
  have hsep : ∀ texts : List String, (∀ text ∈ texts, Text.IsName text) →
      ∀ piece ∈ texts.map String.toList, '/' ∉ piece := by
    intro texts h piece hpiece
    obtain ⟨text, htext, rfl⟩ := List.mem_map.mp hpiece
    exact (h text htext).no_separator
  have hmap := Text.joinWith_inj (by simpa using hne') (by simpa using hne) (hsep _ h')
    (hsep _ h) htext
  exact (List.map_injective_iff.mpr (fun _ _ heq => String.toList_inj.mp heq) hmap).symm

end MemberName

namespace Coverage

/-- A file below the root is named by the names that lead to it, if these give a name. -/
theorem memberOfFile_descend_eq {root : Path} {texts : List String} (hroot : root.text ≠ "")
    (h : ∀ text ∈ texts, Text.IsName text) (hne : texts ≠ []) :
    memberOfFile root (root.descend (Path.names texts)) =
      ((MemberName.ofTexts texts).map fun name => ⟨name, root.descend (Path.names texts)⟩).mapError
        fun fault => .brokenRule (.memberName fault) := by
  rw [memberOfFile, Path.below?_descend hroot h hne]
  simp only [MemberName.ofPath_joinWith hne h]
  cases MemberName.ofTexts texts with
  | error fault => rfl
  | ok name => rfl

/-- The file at a place below the root is the member that its names give. -/
theorem memberOfFile_descend {root : Path} {texts : List String} (hroot : root.text ≠ "")
    (h : ∀ text ∈ texts, Text.IsName text) (hne : texts ≠ []) {member : Member} :
    memberOfFile root (root.descend (Path.names texts)) = .ok member ↔
      MemberName.ofTexts texts = .ok member.name ∧
        member.source = root.descend (Path.names texts) := by
  rw [memberOfFile_descend_eq hroot h hne]
  cases MemberName.ofTexts texts with
  | error fault => simp [Except.map, Except.mapError]
  | ok name =>
      obtain ⟨name', source⟩ := member
      simp only [Except.map, Except.mapError, Except.ok.injEq, Member.mk.injEq]
      rw [eq_comm (a := source)]

end Coverage

end PackageSeal
