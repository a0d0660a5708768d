import Mathlib.Data.List.Basic
import PackageSeal.MemberName

/-!
# Normal forms of names

What is dropped from the front of a text is said here without the loop that drops it: the longest
run of the pieces `/` and `./` (`Remainder`). The loop finds what is left after it
(`remainder_iff`), because such a run can be dropped in one go whatever comes next
(`dropLeading_append`). So every text has one normal form, which is the member name that it stands
for if it can be a name at all (`ofText_normalForm`).
-/

namespace PackageSeal.MemberName

variable {chars front rest other : List Char}

/-! ## Leading separators -/

/-- The characters are a run of the pieces that can be dropped. -/
def IsLead (front : List Char) : Prop :=
  ∃ pieces : List (List Char), (∀ piece ∈ pieces, piece = ['/'] ∨ piece = ['.', '/']) ∧
    pieces.flatten = front

/-- What is left of the characters after the longest run of pieces that can be dropped. -/
structure Remainder (chars rest : List Char) : Prop where
  split : ∃ front, IsLead front ∧ front ++ rest = chars
  longest : ∀ front other, IsLead front → front ++ other = chars → rest.length ≤ other.length

/-- A run of pieces is dropped in front of whatever comes next. -/
theorem dropLeading_append (h : IsLead front) (rest : List Char) :
    dropLeading (front ++ rest) = dropLeading rest := by
  obtain ⟨pieces, hpieces, rfl⟩ := h
  induction pieces with
  | nil => rfl
  | cons piece pieces ih =>
      rw [List.forall_mem_cons] at hpieces
      rw [List.flatten_cons, List.append_assoc]
      rcases hpieces.1 with rfl | rfl
      · exact ih hpieces.2
      · exact ih hpieces.2

/-- What is dropped is a run of pieces. -/
theorem exists_lead_dropLeading (chars : List Char) :
    ∃ front, IsLead front ∧ front ++ dropLeading chars = chars := by
  have hcons : ∀ {piece chars : List Char}, piece = ['/'] ∨ piece = ['.', '/'] →
      (∃ front, IsLead front ∧ front ++ dropLeading chars = chars) →
        ∃ front, IsLead front ∧ front ++ dropLeading chars = piece ++ chars := by
    rintro piece chars hpiece ⟨_, ⟨pieces, hpieces, rfl⟩, hsplit⟩
    refine ⟨piece ++ pieces.flatten, ⟨piece :: pieces, ?_, rfl⟩, ?_⟩
    · exact List.forall_mem_cons.mpr ⟨hpiece, hpieces⟩
    · rw [List.append_assoc, hsplit]
  fun_induction dropLeading chars with
  | case1 rest ih => exact hcons (.inl rfl) ih
  | case2 rest ih => exact hcons (.inr rfl) ih
  | case3 chars => exact ⟨[], ⟨[], List.forall_mem_nil _, rfl⟩, rfl⟩

/-- **Dropping leaves what follows the longest run of pieces**, and nothing else does. -/
theorem remainder_iff : Remainder chars rest ↔ rest = dropLeading chars := by
  have hlongest : ∀ front other, IsLead front → front ++ other = chars →
      (dropLeading chars).length ≤ other.length := by
    rintro front other hlead rfl
    rw [dropLeading_append hlead]
    exact (dropLeading_suffix other).length_le
  constructor
  · intro h
    obtain ⟨front, hlead, hsplit⟩ := h.split
    obtain ⟨front', hlead', hsplit'⟩ := exists_lead_dropLeading chars
    have hlength := Nat.le_antisymm (h.longest _ _ hlead' hsplit') (hlongest _ _ hlead hsplit)
    exact (List.append_inj' (hsplit.trans hsplit'.symm) hlength).2
  · rintro rfl
    exact ⟨exists_lead_dropLeading chars, hlongest⟩

/-! ## Names and their normal forms -/

/-- Nothing can be dropped from a normal form. -/
theorem IsNormal.not_lead (h : IsNormal chars) : ¬ ['/'] <+: chars ∧ ¬ ['.', '/'] <+: chars := by
  have hshort : ∀ {piece : List Char}, piece ≠ [] → IsLead piece → ¬ piece <+: chars := by
    rintro piece hne hlead ⟨rest, rfl⟩
    have hdrop := h.dropLeading_eq
    rw [dropLeading_append hlead] at hdrop
    have hlength := (dropLeading_suffix rest).length_le
    rw [hdrop, List.length_append] at hlength
    have hpos := List.length_pos_iff.mpr hne
    omega
  exact ⟨hshort (by simp) ⟨[['/']], by simp, rfl⟩, hshort (by simp) ⟨[['.', '/']], by simp, rfl⟩⟩

variable {raw : String} {name : MemberName}

/-- A text stands for the name that its normal form spells. -/
theorem ofText_eq_ok_iff : ofText raw = .ok name ↔ name.text.toList = normalize raw.toList := by
  unfold ofText
  by_cases hne : normalize raw.toList = []
  · simp only [hne, dite_true, reduceCtorEq, false_iff]
    exact name.isNormal.ne_nil
  · by_cases hnul : '\x00' ∈ normalize raw.toList
    · simp only [hne, hnul, dite_false, dite_true, reduceCtorEq, false_iff]
      exact fun htext => name.isNormal.no_nul (htext ▸ hnul)
    · simp only [hne, hnul, dite_false, Except.ok.injEq]
      rw [MemberName.ext_iff, ← String.toList_inj, String.toList_ofList, eq_comm]

/-- A text stands for a name if its normal form is not empty and holds no NUL. -/
theorem exists_ofText_iff :
    (∃ name, ofText raw = .ok name) ↔
      normalize raw.toList ≠ [] ∧ '\x00' ∉ normalize raw.toList := by
  constructor
  · rintro ⟨name, hname⟩
    rw [ofText_eq_ok_iff] at hname
    rw [← hname]
    exact ⟨name.isNormal.ne_nil, name.isNormal.no_nul⟩
  · rintro ⟨hne, hnul⟩
    exact ⟨_, (dif_neg hne).trans (dif_neg hnul)⟩

/-- What is wrong with any other text. -/
theorem ofText_eq_error_iff {fault : NameFault} : ofText raw = .error fault ↔
    (normalize raw.toList = [] ∧ fault = .empty raw) ∨
      (normalize raw.toList ≠ [] ∧ '\x00' ∈ normalize raw.toList ∧ fault = .holdsNul raw) := by
  unfold ofText
  by_cases hne : normalize raw.toList = []
  · simp [hne, eq_comm]
  · by_cases hnul : '\x00' ∈ normalize raw.toList
    · simp [hne, hnul, eq_comm]
    · simp [hne, hnul]

/-- A name stands for itself. -/
theorem ofText_text (name : MemberName) : ofText name.text = .ok name := by
  rw [ofText_eq_ok_iff, normalize_eq_self name.isNormal]

/-- **Every text has one normal form, and stands for the name that it spells.** With each backslash
turned into a separator, one rest is left after the longest run of pieces that can be dropped. The
text is a name if that rest is not empty and holds no NUL, and the name is the rest; otherwise the
text is refused for the one or the other. A name has no backslash and no NUL, begins with nothing
that can be dropped, and stands for itself; and texts stand for the same name exactly if they leave
the same rest. -/
theorem ofText_normalForm (raw : String) :
    ∃ rest, Remainder (unify raw.toList) rest ∧
      (∀ other, Remainder (unify raw.toList) other → other = rest) ∧
      ((∃ name, ofText raw = .ok name) ↔ rest ≠ [] ∧ '\x00' ∉ rest) ∧
      (∀ name, ofText raw = .ok name → name.text.toList = rest) ∧
      (∀ fault, ofText raw = .error fault ↔ (rest = [] ∧ fault = .empty raw) ∨
        (rest ≠ [] ∧ '\x00' ∈ rest ∧ fault = .holdsNul raw)) ∧
      (∀ name, ofText raw = .ok name → name.text ≠ "" ∧ '\\' ∉ name.text.toList ∧
        '\x00' ∉ name.text.toList ∧ ¬ ['/'] <+: name.text.toList ∧
        ¬ ['.', '/'] <+: name.text.toList ∧ ofText name.text = .ok name) ∧
      ∀ raw' rest', Remainder (unify raw'.toList) rest' → (∃ name, ofText raw = .ok name) →
        (ofText raw' = ofText raw ↔ rest' = rest) := by
  refine ⟨normalize raw.toList, remainder_iff.mpr rfl, fun other h => remainder_iff.mp h,
    exists_ofText_iff, fun name hname => ofText_eq_ok_iff.mp hname,
    fun fault => ofText_eq_error_iff, fun name _ => ?_, ?_⟩
  · have hnormal := name.isNormal
    obtain ⟨hslash, hdot⟩ := hnormal.not_lead
    refine ⟨fun hempty => hnormal.ne_nil ?_, hnormal.no_backslash, hnormal.no_nul, hslash, hdot,
      ofText_text name⟩
    rw [hempty]
    rfl
  · rintro raw' rest' hrest ⟨name, hname⟩
    rw [hname, ofText_eq_ok_iff, ← ofText_eq_ok_iff.mp hname, remainder_iff.mp hrest, eq_comm]
    rfl

/-- The two spellings have one rest; a third has none, and a fourth holds a NUL. -/
theorem ofText_normalForm_spellings :
    Remainder (unify "/.\\//././x".toList) ['x'] ∧
      ofText "/.\\//././x" = ofText "x" ∧ (∃ name, ofText "x" = .ok name) ∧
      ofText "./\\" = .error (.empty "./\\") ∧ ofText "/\x00" = .error (.holdsNul "/\x00") := by
  obtain ⟨rest, hrest, -, hname, -, -, -, hsame⟩ := ofText_normalForm "x"
  obtain rfl : ['x'] = rest := remainder_iff.mp hrest ▸ rfl
  have hother : Remainder (unify "/.\\//././x".toList) ['x'] := remainder_iff.mpr rfl
  have hfound : ∃ name, ofText "x" = .ok name := hname.mpr ⟨by decide, by decide⟩
  obtain ⟨_, hnone, -, -, -, hempty, -⟩ := ofText_normalForm "./\\"
  obtain ⟨_, hnul, -, -, -, hholds, -⟩ := ofText_normalForm "/\x00"
  exact ⟨hother, (hsame _ _ hother hfound).mpr rfl, hfound,
    (hempty _).mpr (.inl ⟨remainder_iff.mp hnone, rfl⟩),
    (hholds _).mpr (.inr (by rw [remainder_iff.mp hnul]; exact ⟨by decide, by decide, rfl⟩))⟩

end PackageSeal.MemberName
