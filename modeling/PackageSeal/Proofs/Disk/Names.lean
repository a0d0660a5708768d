import PackageSeal.Proofs.Disk.View
import PackageSeal.Proofs.Octets
import PackageSeal.Proofs.Text.Pieces

/-!
# Names that paths ask for

Whatever path or link a route was read from, the names in it could stand in a directory, but for
their length (`Route.askable_of_mem`); the length is checked where a name is looked up. So a disk on
which a file was put at a name that a route asked for is well-formed if it was before.
-/

namespace PackageSeal

namespace RawText

/-- A name that a path can ask for, however long. -/
structure Askable (name : RawText) : Prop where
  ne_nil : name.bytes ≠ []
  ne_dot : name.bytes ≠ [46]
  ne_dots : name.bytes ≠ [46, 46]
  no_separator : 47 ∉ name.bytes
  no_nul : 0 ∉ name.bytes
  canonical : ofBytes name.bytes = name

theorem Askable.isName {name : RawText} (h : name.Askable)
    (hshort : name.bytes.length ≤ Route.maxName) : name.IsName :=
  ⟨h.ne_nil, h.ne_dot, h.ne_dots, h.no_separator, h.no_nul, hshort, h.canonical⟩

@[simp] theorem bytes_utf8 (text : String) :
    (RawText.utf8 text).bytes = PackageSeal.utf8 text := rfl

@[simp] theorem ofBytes_utf8 (text : String) : ofBytes (PackageSeal.utf8 text) = .utf8 text := by
  rw [ofBytes, ofUtf8?_utf8]

/-- Octets kept as a name are the octets of the name. -/
@[simp] theorem bytes_ofBytes (bytes : Bytes) : (ofBytes bytes).bytes = bytes := by
  unfold ofBytes
  cases h : ofUtf8? bytes with
  | none => rfl
  | some text => exact utf8_of_ofUtf8? h

/-- A text is a name that a path can ask for if its characters allow it. -/
theorem askable_utf8 {text : String} (hnil : text ≠ "") (hdot : text ≠ ".") (hdots : text ≠ "..")
    (hsep : '/' ∉ text.toList) (hnul : '\x00' ∉ text.toList) : (RawText.utf8 text).Askable where
  ne_nil h := hnil (utf8_eq_nil_iff.mp h)
  ne_dot h := hdot (utf8_injective (h.trans (by decide : [46] = PackageSeal.utf8 ".")))
  ne_dots h := hdots (utf8_injective (h.trans (by decide : [46, 46] = PackageSeal.utf8 "..")))
  no_separator h := hsep ((mem_utf8_iff (c := '/') (by decide)).mp h)
  no_nul h := hnul ((mem_utf8_iff (c := '\x00') (by decide)).mp h)
  canonical := ofBytes_utf8 text

end RawText

namespace Route

theorem stepOfText?_eq_into_iff {piece : List Char} {name : RawText} :
    stepOfText? piece = some (.into name) ↔
      (piece ≠ [] ∧ piece ≠ ['.'] ∧ piece ≠ ['.', '.']) ∧ .utf8 (String.ofList piece) = name := by
  unfold stepOfText?
  by_cases hnil : piece = []
  · simp [hnil]
  · by_cases hdot : piece = ['.']
    · simp [hdot]
    · by_cases hdots : piece = ['.', '.']
      · simp [hdots]
      · simp [hnil, hdot, hdots]

theorem stepOfOctets?_eq_into_iff {piece : Bytes} {name : RawText} :
    stepOfOctets? piece = some (.into name) ↔
      (piece ≠ [] ∧ piece ≠ [46] ∧ piece ≠ [46, 46]) ∧ RawText.ofBytes piece = name := by
  unfold stepOfOctets?
  by_cases hnil : piece = []
  · simp [hnil]
  · by_cases hdot : piece = [46]
    · simp [hdot]
    · by_cases hdots : piece = [46, 46]
      · simp [hdots]
      · simp [hnil, hdot, hdots]

/-- Every name in the route of a text is one that a path can ask for. -/
theorem askable_of_mem_ofText {text : String} {name : RawText}
    (hnul : (0 : UInt8) ∉ utf8 text) (hm : .into name ∈ (ofText text).steps) : name.Askable := by
  rw [ofText, List.mem_filterMap] at hm
  obtain ⟨piece, hpiece, hstep⟩ := hm
  obtain ⟨⟨hnil, hdot, hdots⟩, rfl⟩ := stepOfText?_eq_into_iff.mp hstep
  have hsep : '/' ∉ piece := Text.not_mem_of_mem_split hpiece
  have hzero : '\x00' ∉ piece := fun h =>
    hnul ((mem_utf8_iff (c := '\x00') (by decide)).mpr (Text.mem_of_mem_split hpiece h))
  have heq : ∀ chars, String.ofList piece = String.ofList chars → piece = chars := by
    intro chars h
    simpa using congrArg String.toList h
  apply RawText.askable_utf8
  · exact fun h => hnil (heq [] h)
  · exact fun h => hdot (heq ['.'] h)
  · exact fun h => hdots (heq ['.', '.'] h)
  · rwa [String.toList_ofList]
  · rwa [String.toList_ofList]

/-- Every name in the route of octets is one that a path can ask for. -/
theorem askable_of_mem_ofOctets {bytes : Bytes} {name : RawText} (hnul : (0 : UInt8) ∉ bytes)
    (hm : .into name ∈ (ofOctets bytes).steps) : name.Askable := by
  rw [ofOctets, List.mem_filterMap] at hm
  obtain ⟨piece, hpiece, hstep⟩ := hm
  obtain ⟨⟨hnil, hdot, hdots⟩, rfl⟩ := stepOfOctets?_eq_into_iff.mp hstep
  have hsep : (47 : UInt8) ∉ piece := Text.not_mem_of_mem_split hpiece
  have hzero : (0 : UInt8) ∉ piece := fun h => hnul (Text.mem_of_mem_split hpiece h)
  have hbytes : (RawText.ofBytes piece).bytes = piece := RawText.bytes_ofBytes piece
  exact ⟨by rwa [hbytes], by rwa [hbytes], by rwa [hbytes], by rwa [hbytes], by rwa [hbytes],
    by rw [hbytes]⟩

/-- Every name in a route is one that a path can ask for. -/
theorem askable_of_mem {raw : RawText} {route : Route} {name : RawText} (h : ofRaw raw = .ok route)
    (hm : .into name ∈ route.steps) : name.Askable := by
  unfold ofRaw at h
  simp only at h
  split_ifs at h with hnul
  rw [Except.ok.injEq] at h
  subst h
  rw [List.contains_iff_mem] at hnul
  cases raw with
  | utf8 text => exact askable_of_mem_ofText hnul hm
  | octets bytes => exact askable_of_mem_ofOctets hnul hm

/-- A disk can be asked about the paths that are not empty, hold no NUL and are not too long. -/
theorem ofPath_eq_ok_iff {path : Path} {route : Route} :
    ofPath path = .ok route ↔ 0 ∉ utf8 path.text ∧ path.text ≠ "" ∧
      (utf8 path.text).length ≤ maxLength ∧ route = ofText path.text := by
  have hempty : (utf8 path.text).isEmpty = true ↔ path.text = "" := by
    rw [List.isEmpty_iff, utf8_eq_nil_iff]
  unfold ofPath ofRaw
  simp only [List.contains_iff_mem, hempty, RawText.bytes_utf8]
  by_cases hnul : 0 ∈ utf8 path.text
  · simp [hnul]
  · by_cases hnil : path.text = ""
    · rw [if_neg hnul, if_pos hnil]
      simp [hnil]
    · by_cases hlong : (utf8 path.text).length > maxLength
      · simp [hnul, hnil, hlong, Nat.not_le.mpr hlong]
      · simp [hnul, hnil, hlong, Nat.not_lt.mp hlong, eq_comm]

/-- Where a disk can be asked about a path with something after it, it can be asked about the
path. -/
theorem ofPath_of_extend {path : Path} {suffix : String} {route : Route} (hne : path.text ≠ "")
    (h : ofPath (path.extend suffix) = .ok route) : ofPath path = .ok (ofText path.text) := by
  obtain ⟨hnul, -, hshort, -⟩ := ofPath_eq_ok_iff.mp h
  have hbytes : utf8 (path.extend suffix).text = utf8 path.text ++ utf8 suffix :=
    utf8_append path.text suffix
  rw [hbytes, List.mem_append, not_or] at hnul
  rw [hbytes, List.length_append] at hshort
  exact ofPath_eq_ok_iff.mpr ⟨hnul.1, hne, Nat.le_of_add_right_le hshort, rfl⟩

end Route

/-! ## Well-formed trees -/

namespace Entries

theorem mem_set {name : RawText} {node : Node} {entries : Entries} {entry : RawText × Node}
    (h : entry ∈ set name node entries) : entry = (name, node) ∨ entry ∈ entries := by
  induction entries with
  | nil =>
      rw [set, List.mem_singleton] at h
      exact .inl h
  | cons first rest ih =>
      obtain ⟨other, old⟩ := first
      rw [set] at h
      split at h
      · rw [List.mem_cons] at h
        rcases h with h | h
        · exact .inl h
        · exact .inr (List.mem_cons_of_mem _ h)
      · rw [List.mem_cons] at h
        rcases h with rfl | h
        · exact .inr List.mem_cons_self
        · rcases ih h with h | h
          · exact .inl h
          · exact .inr (List.mem_cons_of_mem _ h)

theorem WellFormed.set {entries : Entries} (h : entries.WellFormed) {name : RawText}
    (hname : name.IsName) (node : Node) : (Entries.set name node entries).WellFormed where
  nodup := by
    have hnodup := h.nodup
    clear h
    induction entries with
    | nil => simp [Entries.set]
    | cons first rest ih =>
        obtain ⟨other, old⟩ := first
        rw [List.map_cons, List.nodup_cons] at hnodup
        rw [Entries.set]
        split
        · next heq =>
          subst heq
          rw [List.map_cons, List.nodup_cons]
          exact hnodup
        · next hne =>
          rw [List.map_cons, List.nodup_cons]
          refine ⟨?_, ih hnodup.2⟩
          intro hmem
          obtain ⟨entry, hentry, hfst⟩ := List.mem_map.mp hmem
          rcases mem_set hentry with rfl | hentry
          · exact hne hfst
          · exact hnodup.1 (List.mem_map.mpr ⟨entry, hentry, hfst⟩)
  isName entry hentry := by
    rcases mem_set hentry with rfl | hentry
    · exact hname
    · exact h.isName entry hentry

end Entries

namespace Node

/-- A directory is well-formed if its entries are and lead to well-formed nodes. -/
theorem wellFormed_dir_iff {entries : Entries} :
    (dir entries).WellFormed ↔
      Entries.WellFormed entries ∧ ∀ name child, (name, child) ∈ entries → child.WellFormed := by
  constructor
  · intro h
    exact ⟨h ([], dir entries) (mem_all_nil.mpr rfl), fun name child hc => h.child hc⟩
  · rintro ⟨hentries, hchildren⟩ ⟨loc, node⟩ hplace
    cases loc with
    | nil =>
        obtain rfl : node = dir entries := mem_all_nil.mp hplace
        exact hentries
    | cons name rest =>
        obtain ⟨child, hchild, hrest⟩ := cons_mem_all.mp hplace
        exact hchildren name child hchild (rest, node) hrest

theorem wellFormed_file (content : Bytes) : (file content).WellFormed := by
  rintro ⟨loc, node⟩ hplace
  rw [all, inside, List.mem_singleton, Prod.mk.injEq] at hplace
  rw [hplace.2]
  trivial

/-- A file put into a directory under a proper name keeps the tree well-formed. -/
theorem WellFormed.put {node : Node} (h : node.WellFormed) {front : Location} {entries : Entries}
    (hdir : node.get? front = some (dir entries)) {name : RawText} (hname : name.IsName)
    (content : Bytes) : (Node.put (file content) (front ++ [name]) node).WellFormed := by
  induction front generalizing node with
  | nil =>
      obtain rfl : node = dir entries := Option.some.inj hdir
      rw [wellFormed_dir_iff] at h
      rw [List.nil_append, Node.put, wellFormed_dir_iff]
      refine ⟨h.1.set hname _, fun other child hc => ?_⟩
      rcases Entries.mem_set hc with heq | hc
      · rw [(Prod.mk.inj heq).2]
        exact wellFormed_file content
      · exact h.2 other child hc
  | cons step front ih =>
      cases node with
      | file _ => simp [child?] at hdir
      | link _ => simp [child?] at hdir
      | dir es =>
          rw [get?_cons, child?_dir] at hdir
          obtain ⟨child, hchild, hfront⟩ := Option.bind_eq_some_iff.mp hdir
          rw [wellFormed_dir_iff] at h
          have hmem := (Entries.lookup_eq_some_iff h.1.nodup).mp hchild
          rw [List.cons_append, Node.put, hchild, Option.getD_some, wellFormed_dir_iff]
          refine ⟨h.1.set (h.1.isName _ hmem) _, fun other node hc => ?_⟩
          rcases Entries.mem_set hc with heq | hc
          · rw [(Prod.mk.inj heq).2]
            exact ih (h.2 step child hmem) hfront
          · exact h.2 other node hc

end Node

end PackageSeal
