import PackageSeal.Bytes

/-!
# Names that need not be text

A file system stores names as octets. Nearly all are UTF-8 text, and `RawText` keeps those as
strings; the others stay octets, and are shown with every ill-formed stretch replaced by U+FFFD.
-/

namespace PackageSeal

/-- Octets, as text where they are UTF-8. -/
inductive RawText where
  | utf8 (text : String)
  | octets (bytes : Bytes)
deriving DecidableEq

namespace Text

/-- The smallest and largest second octet after a given first one, and the number of octets that
follow the first. -/
private def following (first : UInt8) : Option (UInt8 × UInt8 × Nat) :=
  if 0xC2 ≤ first ∧ first ≤ 0xDF then some (0x80, 0xBF, 1)
  else if first = 0xE0 then some (0xA0, 0xBF, 2)
  else if first = 0xED then some (0x80, 0x9F, 2)
  else if 0xE1 ≤ first ∧ first ≤ 0xEF then some (0x80, 0xBF, 2)
  else if first = 0xF0 then some (0x90, 0xBF, 3)
  else if first = 0xF4 then some (0x80, 0x8F, 3)
  else if 0xF1 ≤ first ∧ first ≤ 0xF3 then some (0x80, 0xBF, 3)
  else none

/-- How many of the next octets continue a character: the first of them lies in the given range, the
others in the common one. -/
private def continued : UInt8 → UInt8 → Nat → Bytes → Nat
  | _, _, 0, _ => 0
  | _, _, _, [] => 0
  | low, high, count + 1, b :: bs =>
    if low ≤ b ∧ b ≤ high then continued 0x80 0xBF count bs + 1 else 0

/-- The first character and the octets it takes. An ill-formed start reads as U+FFFD and takes the
longest stretch that could begin a character. -/
private def firstChar (first : UInt8) (rest : Bytes) : Char × Nat :=
  if first < 0x80 then (Char.ofNat first.toNat, 1)
  else match following first with
    | none => ('\uFFFD', 1)
    | some (low, high, count) =>
      let taken := continued low high count rest
      if taken = count then
        let lead := first.toNat % (1 <<< (6 - count))
        let value := (rest.take count).foldl (fun n b => n * 64 + b.toNat % 64) lead
        (Char.ofNat value, count + 1)
      else ('\uFFFD', taken + 1)

private def readableFrom : Nat → Bytes → List Char
  | 0, _ => []
  | _, [] => []
  | fuel + 1, b :: bs =>
    let (c, taken) := firstChar b bs
    c :: readableFrom fuel ((b :: bs).drop taken)

/-- The octets as text, with U+FFFD for every ill-formed stretch. -/
def readable (bytes : Bytes) : String :=
  String.ofList (readableFrom bytes.length bytes)

end Text

namespace RawText

/-- The octets as text if they are UTF-8. -/
def ofBytes (bytes : Bytes) : RawText :=
  match ofUtf8? bytes with
  | some text => .utf8 text
  | none => .octets bytes

/-- The octets themselves. -/
def bytes : RawText → Bytes
  | .utf8 text => PackageSeal.utf8 text
  | .octets bytes => bytes

/-- The text to show. -/
def shown : RawText → String
  | .utf8 text => text
  | .octets bytes => Text.readable bytes

end RawText

end PackageSeal
