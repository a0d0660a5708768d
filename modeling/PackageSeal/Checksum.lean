import PackageSeal.Hash.Sha2
import PackageSeal.Text.Hex

/-!
# Checksums

A checksum is the SHA-256 of a content in lower-case hexadecimal. `ofText` counts the octets of a
text, then looks for a character that is no digit and for an upper-case letter; a text that passes
is a checksum (`isLowerHex_iff`, `utf8ByteSize_eq_length`). `ofParts_eq` says that a checksum does
not depend on the pieces in which the content was read.
-/

namespace PackageSeal

/-- Why a text is no checksum. -/
inductive ChecksumFault where
  | length (octets : Nat)
  | notHex (c : Char)
  | notLower
deriving DecidableEq

namespace ChecksumFault

/-- The wording of a fault. -/
def message : ChecksumFault → String
  | length octets => s!"invalid SHA-256 digest: expected 64 hex characters, got {octets}"
  | notHex c => s!"invalid SHA-256 digest: non-hex character '{c}'"
  | notLower => "invalid SHA-256 digest: digest must be lowercase"

end ChecksumFault

/-- A lower-case hexadecimal digit. -/
def IsLowerHex (c : Char) : Prop :=
  ('0' ≤ c ∧ c ≤ '9') ∨ ('a' ≤ c ∧ c ≤ 'f')

instance (c : Char) : Decidable (IsLowerHex c) :=
  inferInstanceAs (Decidable (_ ∨ _))

/-- The lower-case digits are the hexadecimal digits that are no upper-case letters. -/
theorem isLowerHex_iff {c : Char} :
    IsLowerHex c ↔ (Text.hexValue? c).isNone = false ∧ c.isUpper = false := by
  have hupper : c.isUpper = true ↔ 'A' ≤ c ∧ c ≤ 'Z' := decide_eq_true_iff
  rw [← Bool.not_eq_true c.isUpper, hupper, IsLowerHex, Text.hexValue?]
  simp only [Char.le_def]
  split <;> grind

theorem utf8Size_of_isLowerHex {c : Char} (h : IsLowerHex c) : c.utf8Size = 1 := by
  rw [Char.utf8Size_eq_one_iff]
  cases h with
  | inl h => exact Nat.le_trans h.2 (by decide)
  | inr h => exact Nat.le_trans h.2 (by decide)

/-- A text whose characters have one octet each has as many octets as characters. -/
theorem utf8ByteSize_eq_length {text : String} (h : ∀ c ∈ text.toList, c.utf8Size = 1) :
    text.utf8ByteSize = text.toList.length := by
  have hchars : ∀ chars : List Char, (∀ c ∈ chars, c.utf8Size = 1) →
      (String.ofList chars).utf8ByteSize = chars.length := by
    intro chars
    induction chars with
    | nil => intro _; rfl
    | cons c rest ih =>
      intro h
      rw [List.forall_mem_cons] at h
      rw [← List.singleton_append, String.ofList_append, String.utf8ByteSize_append, ih h.2]
      simp [h.1, Nat.add_comm]
  simpa using hchars text.toList h

/-- A SHA-256 in lower-case hexadecimal. -/
@[ext] structure Checksum where
  text : String
  length_eq : text.toList.length = 64
  isLowerHex : ∀ c ∈ text.toList, IsLowerHex c
deriving DecidableEq

namespace Checksum

/-- What the two searches of `ofText` find in a text of lower-case digits, and in no other. -/
theorem forall_isLowerHex_iff {text : String} : (∀ c ∈ text.toList, IsLowerHex c) ↔
    (text.toList.find? fun c => (Text.hexValue? c).isNone) = none ∧
      ¬ text.toList.any Char.isUpper = true := by
  simp only [isLowerHex_iff, List.find?_eq_none, List.any_eq_true, not_exists, not_and,
    Bool.not_eq_true]
  exact ⟨fun h => ⟨fun c hc => (h c hc).1, fun c hc => (h c hc).2⟩,
    fun h c hc => ⟨h.1 c hc, h.2 c hc⟩⟩

/-- The checksum that a text is. -/
def ofText (text : String) : Except ChecksumFault Checksum :=
  if hsize : text.utf8ByteSize ≠ 64 then .error (.length text.utf8ByteSize)
  else
    match hdigits : text.toList.find? fun c => (Text.hexValue? c).isNone with
    | some c => .error (.notHex c)
    | none =>
      if hupper : text.toList.any Char.isUpper then .error .notLower
      else
        have hlower := forall_isLowerHex_iff.mpr ⟨hdigits, hupper⟩
        have hlength := utf8ByteSize_eq_length fun c hc => utf8Size_of_isLowerHex (hlower c hc)
        .ok ⟨text, hlength.symm.trans (Decidable.of_not_not hsize), hlower⟩

theorem length_hex {bytes : Bytes} (h : bytes.length = 32) :
    (Text.hex bytes).toList.length = 64 := by
  rw [Text.hex, String.toList_ofList, Text.length_hexDigits, h]

theorem isLowerHex_hex (bytes : Bytes) : ∀ c ∈ (Text.hex bytes).toList, IsLowerHex c := by
  intro c hc
  rw [Text.hex, String.toList_ofList] at hc
  induction bytes with
  | nil => simp [Text.hexDigits] at hc
  | cons b bs ih =>
    rw [Text.hexDigits, List.mem_cons, List.mem_cons] at hc
    have hb : b.toNat < 256 := b.toNat_lt
    rcases hc with rfl | rfl | hc
    · exact Text.hexDigit_mem _ (by omega)
    · exact Text.hexDigit_mem _ (by omega)
    · exact ih hc

/-- The digits of thirty-two octets are a checksum. -/
private def ofOctets (bytes : Bytes) (h : bytes.length = 32) : Checksum where
  text := Text.hex bytes
  length_eq := length_hex h
  isLowerHex := isLowerHex_hex bytes

/-- The checksum of a content. -/
def ofContent (content : Bytes) : Checksum :=
  ofOctets (Hash.sha256.hash content) (Hash.length_sha256 content)

/-- The checksum of a content taken in piece by piece. -/
def ofParts (parts : List Bytes) : Checksum :=
  ofOctets (parts.foldl Hash.Running.absorb (Hash.Running.start Hash.sha256)).finish (by
    rw [Hash.Running.finish_foldl_absorb]
    exact Hash.length_sha256 _)

/-- A checksum does not depend on the pieces in which the content was read. -/
theorem ofParts_eq (parts : List Bytes) : ofParts parts = ofContent parts.flatten := by
  simp only [ofParts, ofContent, Hash.Running.finish_foldl_absorb]

end Checksum

end PackageSeal
