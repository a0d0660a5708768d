import PackageSeal.Text.Hex
import PackageSeal.Text.Printable

/-!
# Quoted text

A text between braces, and a text between double quotes, in which quotes, backslashes and characters
that would not show are written as escapes: the common controls by a letter, all others by their
code point.
-/

namespace PackageSeal.Text

/-- The hexadecimal digits of a number, without leading zeros. -/
private def hexNumber (n : Nat) : List Char :=
  Nat.toDigits 16 n

/-- One character as written between quotes. -/
def quotedChar (c : Char) : List Char :=
  if c = '\x00' then ['\\', '0']
  else if c = '\t' then ['\\', 't']
  else if c = '\n' then ['\\', 'n']
  else if c = '\r' then ['\\', 'r']
  else if c = '"' then ['\\', '"']
  else if c = '\\' then ['\\', '\\']
  else if isPrintable c then [c]
  else ['\\', 'u', '{'] ++ hexNumber c.toNat ++ ['}']

/-- A text between braces. -/
def braced (text : String) : String :=
  String.ofList ('{' :: (text.toList ++ ['}']))

/-- A text between double quotes. -/
def quoted (text : String) : String :=
  String.ofList ('"' :: (text.toList.flatMap quotedChar ++ ['"']))

end PackageSeal.Text
