import PackageSeal.Path
import PackageSeal.Text.Quoted

/-!
# Member names

The name under which a file is signed does not depend on how a host writes paths: it is separated by
`/`, starts with neither `/` nor `./`, and holds no NUL, which ends the name in a frame. Every text
that is not empty after the leading separators are dropped has exactly one such form. Names are
ordered by their octets.
-/

namespace PackageSeal

/-- Why a text is no member name. -/
inductive NameFault where
  /-- Nothing is left without the leading separators. -/
  | empty (raw : String)
  | holdsNul (raw : String)
deriving DecidableEq

namespace NameFault

/-- The wording of a fault. -/
def message : NameFault → String
  | empty raw => s!"logical name \"{raw}\" is empty after normalization"
  | holdsNul raw =>
    let shown := Text.quoted raw
    s!"logical name {shown} contains a NUL byte"

end NameFault

namespace MemberName

/-- The characters with every backslash turned into a separator. -/
def unify (chars : List Char) : List Char :=
  chars.map fun c => if c = '\\' then '/' else c

/-- The characters without the separators and `./` pieces at the front. -/
def dropLeading : List Char → List Char
  | '/' :: rest => dropLeading rest
  | '.' :: '/' :: rest => dropLeading rest
  | chars => chars

/-- The form under which a text is signed. -/
def normalize (chars : List Char) : List Char :=
  dropLeading (unify chars)

/-- What holds of the characters of every member name. -/
structure IsNormal (chars : List Char) : Prop where
  ne_nil : chars ≠ []
  no_backslash : '\\' ∉ chars
  no_nul : '\x00' ∉ chars
  dropLeading_eq : dropLeading chars = chars

/-- What is left after dropping is at the end of the whole. -/
theorem dropLeading_suffix (chars : List Char) : dropLeading chars <:+ chars := by
  fun_induction dropLeading chars with
  | case1 rest ih => exact ih.trans (List.suffix_cons ..)
  | case2 rest ih => exact ih.trans ((List.suffix_cons ..).trans (List.suffix_cons ..))
  | case3 => exact List.suffix_refl _

/-- Nothing is dropped twice. -/
theorem dropLeading_dropLeading (chars : List Char) :
    dropLeading (dropLeading chars) = dropLeading chars := by
  fun_induction dropLeading chars with
  | case1 rest ih => exact ih
  | case2 rest ih => exact ih
  | case3 chars h₁ h₂ =>
    unfold dropLeading
    split
    · next rest => exact absurd rfl (h₁ rest)
    · next rest => exact absurd rfl (h₂ rest)
    · rfl

theorem not_mem_unify (chars : List Char) : '\\' ∉ unify chars := by
  intro h
  obtain ⟨c, -, hc⟩ := List.mem_map.mp h
  split at hc
  · simp at hc
  · next hn => exact hn hc

theorem isNormal_normalize {chars : List Char} (hne : normalize chars ≠ [])
    (hnul : '\x00' ∉ normalize chars) : IsNormal (normalize chars) where
  ne_nil := hne
  no_backslash h := not_mem_unify chars ((dropLeading_suffix _).subset h)
  no_nul := hnul
  dropLeading_eq := dropLeading_dropLeading _

theorem unify_eq_self {chars : List Char} (h : '\\' ∉ chars) : unify chars = chars := by
  induction chars with
  | nil => rfl
  | cons c cs ih =>
    rw [List.mem_cons, not_or] at h
    simp only [unify, List.map_cons, if_neg (Ne.symm h.1)] at ih ⊢
    rw [ih h.2]

/-- A normal form is its own normal form. -/
theorem normalize_eq_self {chars : List Char} (h : IsNormal chars) : normalize chars = chars := by
  rw [normalize, unify_eq_self h.no_backslash, h.dropLeading_eq]

end MemberName

/-- The name of a member in the signed stream. -/
@[ext] structure MemberName where
  text : String
  isNormal : MemberName.IsNormal text.toList
deriving DecidableEq

namespace MemberName

/-- The member name that a text stands for. -/
def ofText (raw : String) : Except NameFault MemberName :=
  let chars := normalize raw.toList
  if hne : chars = [] then .error (.empty raw)
  else if hnul : '\x00' ∈ chars then .error (.holdsNul raw)
  else .ok ⟨String.ofList chars, by
    rw [String.toList_ofList]
    exact isNormal_normalize hne hnul⟩

/-- The member name of a path below the package root: its names, without anything else in it. -/
def ofPath (path : Path) : Except NameFault MemberName :=
  let names := path.components.filterMap fun
    | .name text => some text.toList
    | _ => none
  ofText (String.ofList (Text.joinWith '/' names))

/-- The octets of a name. -/
def octets (name : MemberName) : Bytes :=
  utf8 name.text

instance : LT MemberName where
  lt a b := a.octets < b.octets

instance (a b : MemberName) : Decidable (a < b) :=
  inferInstanceAs (Decidable (a.octets < b.octets))

theorem lt_iff {a b : MemberName} : a < b ↔ a.octets < b.octets := Iff.rfl

theorem octets_injective {a b : MemberName} (h : a.octets = b.octets) : a = b :=
  MemberName.ext (utf8_injective h)

theorem lt_irrefl (a : MemberName) : ¬ a < a :=
  List.lt_irrefl a.octets

theorem lt_trans {a b c : MemberName} (h₁ : a < b) (h₂ : b < c) : a < c :=
  List.lt_trans (lt_iff.mp h₁) (lt_iff.mp h₂)

/-- Of two different names one comes first. -/
theorem lt_of_not_lt_of_ne {a b : MemberName} (h : ¬ a < b) (hne : a ≠ b) : b < a := by
  rcases List.le_iff_lt_or_eq.mp (List.not_lt.mp fun hl => h (lt_iff.mpr hl)) with h | h
  · exact h
  · exact absurd (octets_injective h.symm) hne

end MemberName

end PackageSeal
