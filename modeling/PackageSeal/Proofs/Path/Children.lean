import PackageSeal.Proofs.Path.Named
import PackageSeal.Proofs.Path.Sources

/-!
# Children of a root

A text without separators is one piece, and joining it to a root adds what the piece stands for. So
different pieces make different paths (`components_join_inj`), and a name makes a child of the root
(`components_join_name`). Without the dots in them, paths inside a root are the root and what
follows (`bare_join_inside`).
-/

namespace PackageSeal

namespace Path

variable {root : Path} {name name' : String}

theorem components_single (hsep : '/' ∉ name.toList) :
    (Path.mk name).components = (leading name false).toList := by
  rw [components, marked, pieces, Text.split_of_notMem hsep, List.map_singleton,
    String.ofList_toList]
  simp only [List.map_nil, List.isEmpty_nil, Bool.not_true, List.filterMap_cons, List.filterMap_nil]
  cases leading name false <;> rfl

/-- Joining one piece adds what the piece stands for. -/
theorem components_join_piece (hroot : root.text ≠ "") (hne : name ≠ "")
    (hsep : '/' ∉ name.toList) :
    (root.join ⟨name⟩).components = root.components ++ (inner name).toList := by
  have ho := not_isAbsolute_of_no_separator hsep
  have hstem : (Path.mk name).stem = [name.toList] := by
    rw [stem_of_no_slash, Text.split_of_notMem hsep]
    exact fun h => hsep (List.mem_of_getLast? h)
  rw [components_eq_stem (join_ne_empty hroot ho), components_eq_stem hroot,
    stem_join_relative hroot ho hne, hstem, markStem_append root.stem_ne_nil, List.filterMap_append,
    List.map_singleton, String.ofList_toList]
  cases inner name with
  | none => simp
  | some component => simp

theorem join_of_empty (hroot : root.text = "") (other : Path) : root.join other = other := by
  rw [join, if_pos (.inr hroot)]

theorem components_of_empty (hroot : root.text = "") : root.components = [] := by
  obtain rfl : root = ⟨""⟩ := Path.ext hroot
  rfl

/-- Pieces stand for different things. -/
theorem inner_inj (hne : name ≠ "") (hne' : name' ≠ "") (h : inner name = inner name') :
    name = name' := by
  unfold inner at h
  grind

theorem leading_inj (hne : name ≠ "") (hne' : name' ≠ "")
    (h : leading name false = leading name' false) : name = name' := by
  rw [leading, leading, if_neg hne, if_neg hne'] at h
  split_ifs at h with hdot hdot' hdot'
  · rw [hdot, hdot']
  · exact absurd h.symm (inner_ne_here name')
  · exact absurd h (inner_ne_here name)
  · exact inner_inj hne hne' h

/-- **Different pieces are joined to different paths.** -/
theorem components_join_inj (hne : name ≠ "") (hne' : name' ≠ "") (hsep : '/' ∉ name.toList)
    (hsep' : '/' ∉ name'.toList)
    (h : (root.join ⟨name⟩).components = (root.join ⟨name'⟩).components) : name = name' := by
  have hsame : ∀ {meaning meaning' : Option Component}, meaning.toList = meaning'.toList →
      meaning = meaning' := by
    intro meaning meaning' hlist
    rw [← Option.head?_toList (o := meaning), hlist, Option.head?_toList]
  by_cases hroot : root.text = ""
  · rw [join_of_empty hroot, join_of_empty hroot, components_single hsep,
      components_single hsep'] at h
    exact leading_inj hne hne' (hsame h)
  · rw [components_join_piece hroot hne hsep, components_join_piece hroot hne' hsep',
      List.append_cancel_left_eq] at h
    exact inner_inj hne hne' (hsame h)

/-- A name is joined as a child of the root, be that empty or not. -/
theorem components_join_name (root : Path) (hname : Text.IsName name) :
    (root.join ⟨name⟩).components = root.components ++ [.name name] := by
  by_cases hroot : root.text = ""
  · rw [join_of_empty hroot, components_of_empty hroot, components_single hname.no_separator,
      leading_name hname]
    rfl
  · exact components_join hroot hname

/-! ## Without dots -/

/-- What a path means without the dots, which stand for nothing. -/
def bare (p : Path) : List Component :=
  p.components.filter (· != .here)

theorem bare_join_name (root : Path) (hname : Text.IsName name) :
    (root.join ⟨name⟩).bare = root.bare ++ [.name name] := by
  rw [bare, components_join_name root hname, List.filter_append]
  rfl

/-- Joining the empty path changes nothing of what the root means. -/
theorem components_join_empty (hroot : root.text ≠ "") :
    (root.join ⟨""⟩).components = root.components := by
  have ho : (Path.mk "").isAbsolute = false := not_isAbsolute_of_no_separator (by simp)
  have hslash : (root.join ⟨""⟩).text.toList.getLast? = some '/' := by
    simpa [Route.ofText] using slash_join_empty hroot
  obtain ⟨front, hfront⟩ := List.getLast?_eq_some_iff.mp hslash
  have hstem : (root.join ⟨""⟩).stem = root.stem := by
    have hsplit := (stem_of_slash hfront).2
    rw [split_join hroot ho] at hsplit
    exact (List.append_cancel_right hsplit).symm
  rw [components_eq_stem (join_ne_empty hroot ho), components_eq_stem hroot, hstem]

/-- A source that stays inside means the same wherever the root is. -/
theorem bare_join_inside {source : Path} (h : Layout.staysInside source = true) :
    (root.join source).bare = root.bare ++ source.bare := by
  by_cases hroot : root.text = ""
  · have hbare : root.bare = [] := by rw [bare, components_of_empty hroot]; rfl
    rw [join_of_empty hroot, hbare, List.nil_append]
  · by_cases hsource : source.text = ""
    · obtain rfl : source = ⟨""⟩ := Path.ext hsource
      rw [bare, components_join_empty hroot]
      exact (List.append_nil root.bare).symm
    · have hnames : ((source.components.filterMap Component.name?).map Component.name).filter
          (· != .here) = (source.components.filterMap Component.name?).map Component.name := by
        refine List.filter_eq_self.mpr fun component hmem => ?_
        obtain ⟨text, -, rfl⟩ := List.mem_map.mp hmem
        rfl
      rw [bare, bare, bare, Layout.components_join_inside hroot h hsource, List.filter_append,
        hnames, Layout.filter_eq_names fun _ hmem => Layout.mem_of_staysInside h hmem]

end Path

end PackageSeal
