/-!
# Bytes

Byte strings, numbers written in a fixed number of octets, and the octets of a text.

Numbers are written least significant octet first (`littleEndian`) or most significant first
(`bigEndian`), and `ofLittleEndian_littleEndian` says that reading a written number gives it back
as far as it fits.
-/

namespace PackageSeal

/-- A byte string. -/
abbrev Bytes := List UInt8

/-- A byte string of exactly `n` octets. -/
structure Octets (n : Nat) where
  bytes : Bytes
  length_eq : bytes.length = n
deriving DecidableEq

namespace Octets

/-- The byte string as one of exactly `n` octets, if it has that many. -/
def ofBytes? (n : Nat) (bytes : Bytes) : Option (Octets n) :=
  if h : bytes.length = n then some ⟨bytes, h⟩ else none

theorem ofBytes?_bytes {n : Nat} (o : Octets n) : ofBytes? n o.bytes = some o := by
  simp [ofBytes?, o.length_eq]

theorem ofBytes?_eq_some_iff {n : Nat} {bytes : Bytes} {o : Octets n} :
    ofBytes? n bytes = some o ↔ o.bytes = bytes := by
  constructor
  · intro h
    by_cases hn : bytes.length = n
    · simp [ofBytes?, hn] at h; rw [← h]
    · simp [ofBytes?, hn] at h
  · rintro rfl; exact ofBytes?_bytes o

end Octets

/-! ## Numbers in octets -/

/-- The `width` low octets of `n`, least significant first. -/
def littleEndian : Nat → Nat → Bytes
  | 0, _ => []
  | width + 1, n => UInt8.ofNat n :: littleEndian width (n / 256)

/-- The number whose octets are given, least significant first. -/
def ofLittleEndian : Bytes → Nat
  | [] => 0
  | b :: bs => b.toNat + 256 * ofLittleEndian bs

/-- The `width` low octets of `n`, most significant first. -/
def bigEndian (width n : Nat) : Bytes :=
  (littleEndian width n).reverse

@[simp] theorem length_littleEndian (width n : Nat) : (littleEndian width n).length = width := by
  induction width generalizing n with
  | zero => rfl
  | succ width ih => simp [littleEndian, ih]

@[simp] theorem length_bigEndian (width n : Nat) : (bigEndian width n).length = width := by
  simp [bigEndian]

/-- Reading a written number gives it back, as far as it fits. -/
theorem ofLittleEndian_littleEndian (width n : Nat) :
    ofLittleEndian (littleEndian width n) = n % (1 <<< (8 * width)) := by
  rw [Nat.one_shiftLeft, Nat.pow_mul, show (2 : Nat) ^ 8 = 256 from rfl]
  induction width generalizing n with
  | zero => simp [littleEndian, ofLittleEndian, Nat.mod_one]
  | succ width ih =>
    simp only [littleEndian, ofLittleEndian, ih, UInt8.toNat_ofNat']
    rw [show (2 : Nat) ^ 8 = 256 from rfl, Nat.pow_succ', Nat.mod_mul]

/-- The number of the octets, most significant first. -/
def ofBigEndian (bytes : Bytes) : Nat :=
  ofLittleEndian bytes.reverse

/-! ## Cutting into pieces -/

/-- Consecutive pieces of `size` elements, at most `fuel` of them; the last may be shorter. -/
private def piecesUpTo {α : Type} (size : Nat) : Nat → List α → List (List α)
  | 0, _ => []
  | _ + 1, [] => []
  | fuel + 1, xs@(_ :: _) => xs.take size :: piecesUpTo size fuel (xs.drop size)

/-- Consecutive pieces of `size` elements; the last may be shorter and none is empty when `size` is
positive. -/
def pieces {α : Type} (size : Nat) (xs : List α) : List (List α) :=
  piecesUpTo size xs.length xs

private theorem flatten_piecesUpTo {α : Type} {size : Nat} (hs : 0 < size) (fuel : Nat)
    (xs : List α) (h : xs.length ≤ fuel) : (piecesUpTo size fuel xs).flatten = xs := by
  induction fuel generalizing xs with
  | zero => simp [List.length_eq_zero_iff.mp (Nat.le_zero.mp h), piecesUpTo]
  | succ fuel ih =>
    cases xs with
    | nil => rfl
    | cons x xs =>
      have : ((x :: xs).drop size).length ≤ fuel := by
        simp only [List.length_drop, List.length_cons] at *; omega
      simp only [piecesUpTo, List.flatten_cons, ih _ this, List.take_append_drop]

private theorem piecesUpTo_of_le {α : Type} {size : Nat} (hs : 0 < size) {fuel more : Nat}
    {xs : List α} (h : xs.length ≤ fuel) (h' : xs.length ≤ more) :
    piecesUpTo size fuel xs = piecesUpTo size more xs := by
  induction fuel generalizing more xs with
  | zero =>
    rw [List.length_eq_zero_iff.mp (Nat.le_zero.mp h)]
    cases more <;> rfl
  | succ fuel ih =>
    cases xs with
    | nil => cases more <;> rfl
    | cons x xs =>
      cases more with
      | zero => simp at h'
      | succ more =>
        have hlength : ((x :: xs).drop size).length ≤ xs.length := by
          simp only [List.length_drop, List.length_cons]; omega
        simp only [List.length_cons] at h h'
        simp only [piecesUpTo, ih (Nat.le_trans hlength (by omega) : _ ≤ fuel)
          (Nat.le_trans hlength (by omega) : _ ≤ more)]

@[simp] theorem pieces_nil {α : Type} (size : Nat) : pieces size ([] : List α) = [] := rfl

/-- The first piece is taken off, and the rest is cut in the same way. -/
theorem pieces_of_ne_nil {α : Type} {size : Nat} (hs : 0 < size) {xs : List α} (h : xs ≠ []) :
    pieces size xs = xs.take size :: pieces size (xs.drop size) := by
  cases xs with
  | nil => exact absurd rfl h
  | cons x xs =>
    have hlength : ((x :: xs).drop size).length ≤ xs.length := by
      simp only [List.length_drop, List.length_cons]; omega
    simp only [pieces, List.length_cons, piecesUpTo, piecesUpTo_of_le hs hlength (Nat.le_refl _)]

/-- The pieces put end to end are the whole. -/
theorem flatten_pieces {α : Type} {size : Nat} (hs : 0 < size) (xs : List α) :
    (pieces size xs).flatten = xs :=
  flatten_piecesUpTo hs _ _ (Nat.le_refl _)

/-! ## Octets of a text -/

/-- The octets of a text in UTF-8. -/
def utf8 (text : String) : Bytes :=
  text.toByteArray.data.toList

/-- The text whose UTF-8 octets are given, if they are well formed. -/
def ofUtf8? (bytes : Bytes) : Option String :=
  String.fromUTF8? ⟨bytes.toArray⟩

/-- Reading the octets of a text gives the text. -/
@[simp] theorem ofUtf8?_utf8 (text : String) : ofUtf8? (utf8 text) = some text := by
  have h : ByteArray.IsValidUTF8 ⟨text.toByteArray.data⟩ := text.isValidUTF8
  simp [ofUtf8?, utf8, String.fromUTF8?, String.fromUTF8, h]

theorem utf8_injective {a b : String} (h : utf8 a = utf8 b) : a = b := by
  have := congrArg ofUtf8? h
  simpa using this

end PackageSeal
