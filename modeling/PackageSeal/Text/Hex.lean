import PackageSeal.Bytes

/-!
# Hexadecimal text

Octets as pairs of hexadecimal digits, the high half first. Writing uses lower case; reading takes
either case, and `ofHex?_hex` says that what was written is read back.
-/

namespace PackageSeal.Text

/-- The hexadecimal digit of a number below sixteen. -/
def hexDigit (n : Nat) : Char :=
  Char.ofNat (if n < 10 then 48 + n else 87 + n)

/-- The value of a hexadecimal digit of either case. -/
def hexValue? (c : Char) : Option Nat :=
  if '0' ≤ c ∧ c ≤ '9' then some (c.toNat - 48)
  else if 'a' ≤ c ∧ c ≤ 'f' then some (c.toNat - 87)
  else if 'A' ≤ c ∧ c ≤ 'F' then some (c.toNat - 55)
  else none

/-- The digits of the octets, two for each. -/
def hexDigits : Bytes → List Char
  | [] => []
  | b :: bs => hexDigit (b.toNat / 16) :: hexDigit (b.toNat % 16) :: hexDigits bs

/-- The octets as lower-case hexadecimal text. -/
def hex (bytes : Bytes) : String :=
  String.ofList (hexDigits bytes)

/-- The octets whose digits are given, if they are an even number of hexadecimal digits. -/
def ofHexDigits? : List Char → Option Bytes
  | [] => some []
  | [_] => none
  | h :: l :: rest => do
    let high ← hexValue? h
    let low ← hexValue? l
    let bytes ← ofHexDigits? rest
    pure (UInt8.ofNat (16 * high + low) :: bytes)

/-- The octets that a hexadecimal text stands for. -/
def ofHex? (text : String) : Option Bytes :=
  ofHexDigits? text.toList

theorem hexValue?_hexDigit (n : Nat) (h : n < 16) : hexValue? (hexDigit n) = some n := by
  have : ∀ m : Fin 16, hexValue? (hexDigit m.val) = some m.val := by decide
  exact this ⟨n, h⟩

@[simp] theorem length_hexDigits (bytes : Bytes) : (hexDigits bytes).length = 2 * bytes.length := by
  induction bytes with
  | nil => rfl
  | cons b bs ih => simp [hexDigits, ih]; omega

theorem ofHexDigits?_hexDigits (bytes : Bytes) : ofHexDigits? (hexDigits bytes) = some bytes := by
  induction bytes with
  | nil => rfl
  | cons b bs ih =>
    have hb : b.toNat < 256 := b.toNat_lt
    have hsum : 16 * (b.toNat / 16) + b.toNat % 16 = b.toNat := by omega
    simp only [hexDigits, ofHexDigits?, hexValue?_hexDigit (b.toNat / 16) (by omega),
      hexValue?_hexDigit (b.toNat % 16) (by omega), ih, Option.bind_eq_bind, Option.bind_some,
      hsum, UInt8.ofNat_toNat, Option.pure_def]

/-- Reading what was written gives the octets back. -/
theorem ofHex?_hex (bytes : Bytes) : ofHex? (hex bytes) = some bytes := by
  simp [ofHex?, hex, ofHexDigits?_hexDigits]

/-- A digit below sixteen is written in `0`–`9` or `a`–`f`. -/
theorem hexDigit_mem (n : Nat) (h : n < 16) :
    ('0' ≤ hexDigit n ∧ hexDigit n ≤ '9') ∨ ('a' ≤ hexDigit n ∧ hexDigit n ≤ 'f') := by
  have : ∀ m : Fin 16, ('0' ≤ hexDigit m.val ∧ hexDigit m.val ≤ '9') ∨
      ('a' ≤ hexDigit m.val ∧ hexDigit m.val ≤ 'f') := by decide
  exact this ⟨n, h⟩

end PackageSeal.Text
