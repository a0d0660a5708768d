import Mathlib.Data.List.Basic
import PackageSeal.Bytes

/-!
# Octets of texts and numbers

What the codec proofs need to know of octets: the octets of a text are those of its characters one
after the other, an octet below 128 stands for itself wherever it occurs, and a number written in
enough octets is determined by them.
-/

namespace PackageSeal

/-! ## Texts -/

/-- The octets of a text are those of its characters. -/
theorem utf8_eq_flatMap (text : String) :
    utf8 text = text.toList.flatMap String.utf8EncodeChar := by
  rw [utf8, ← String.utf8Encode_toList, List.utf8Encode]
  simp

theorem utf8_append (front rest : String) : utf8 (front ++ rest) = utf8 front ++ utf8 rest := by
  simp only [utf8_eq_flatMap, String.toList_append, List.flatMap_append]

theorem length_utf8 (text : String) : (utf8 text).length = text.utf8ByteSize := by
  rw [utf8, Array.length_toList]; rfl

theorem utf8_eq_nil_iff {text : String} : utf8 text = [] ↔ text = "" := by
  constructor
  · intro h
    exact utf8_injective (h.trans (by decide : utf8 "" = []).symm)
  · rintro rfl; decide

/-- Octets that were read as a text are its octets. -/
theorem utf8_of_ofUtf8? {bytes : Bytes} {text : String} (h : ofUtf8? bytes = some text) :
    utf8 text = bytes := by
  unfold ofUtf8? String.fromUTF8? at h
  split at h
  · next hvalid =>
    rw [Option.some.injEq] at h
    subst h
    simp [utf8, String.fromUTF8]
  · contradiction

/-- An octet below 128 is the whole of a character, never a part of another one. -/
theorem mem_utf8EncodeChar_iff {c : Char} {b : UInt8} (hb : b.toNat < 128) :
    b ∈ String.utf8EncodeChar c ↔ c.toNat = b.toNat := by
  have hc : c.val.toNat = c.toNat := rfl
  have hmax : c.toNat < 1114112 := by
    have := c.valid
    simp only [UInt32.isValidChar, Nat.isValidChar] at this
    omega
  unfold String.utf8EncodeChar
  simp only [hc]
  split
  · next hle =>
    rw [List.mem_singleton, ← UInt8.toNat_inj, UInt8.toNat_ofNat']
    constructor <;> intro h <;> omega
  · next hgt =>
    have hne : c.toNat ≠ b.toNat := by omega
    split
    · simp only [List.mem_cons, List.not_mem_nil, or_false, ← UInt8.toNat_inj, UInt8.toNat_ofNat']
      constructor <;> intro h <;> omega
    · split <;>
      · simp only [List.mem_cons, List.not_mem_nil, or_false, ← UInt8.toNat_inj,
          UInt8.toNat_ofNat']
        constructor <;> intro h <;> omega

/-- A character below 128 stands in a text where its octet stands in the octets of the text. -/
theorem mem_utf8_iff {text : String} {c : Char} (hc : c.toNat < 128) :
    UInt8.ofNat c.toNat ∈ utf8 text ↔ c ∈ text.toList := by
  have hb : (UInt8.ofNat c.toNat).toNat = c.toNat := by
    rw [UInt8.toNat_ofNat']; omega
  rw [utf8_eq_flatMap, List.mem_flatMap]
  constructor
  · rintro ⟨d, hd, hm⟩
    rw [mem_utf8EncodeChar_iff (by omega), hb] at hm
    rwa [← Char.toNat_inj.mp hm]
  · intro h
    exact ⟨c, h, (mem_utf8EncodeChar_iff (by omega)).mpr hb.symm⟩

/-! ## Numbers -/

/-- A number that fits is determined by its octets. -/
theorem littleEndian_inj {width m n : Nat} (hm : m < 1 <<< (8 * width))
    (hn : n < 1 <<< (8 * width)) (h : littleEndian width m = littleEndian width n) : m = n := by
  have := congrArg ofLittleEndian h
  rwa [ofLittleEndian_littleEndian, ofLittleEndian_littleEndian, Nat.mod_eq_of_lt hm,
    Nat.mod_eq_of_lt hn] at this

end PackageSeal
