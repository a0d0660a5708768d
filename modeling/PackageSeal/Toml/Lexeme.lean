import PackageSeal.Text.Hex

/-!
# Blanks, strings and keys

The smallest pieces of a TOML document. A reader takes the characters that are left and gives what
it read and the characters after it; it fails where the document is not well formed.
-/

namespace PackageSeal.Toml

/-- Characters read to a value and the characters left; nothing where they are not well formed. -/
abbrev Reader (α : Type) := List Char → Option (α × List Char)

/-! ## Blanks, lines and comments -/

/-- A blank within a line. -/
def isBlank (c : Char) : Bool :=
  c == ' ' || c == '\t'

/-- A control character other than the tab, which stands in no comment and no string. -/
def isControl (c : Char) : Bool :=
  (c.toNat < 32 && c != '\t') || c.toNat == 127

/-- The characters after the blanks. -/
def dropBlanks (cs : List Char) : List Char :=
  cs.dropWhile isBlank

/-- The characters after a line end. -/
def lineEnd? : List Char → Option (List Char)
  | '\n' :: rest => some rest
  | '\r' :: '\n' :: rest => some rest
  | _ => none

/-- A line end, as it stands. -/
def lineEndText? : Reader (List Char)
  | '\n' :: rest => some (['\n'], rest)
  | '\r' :: '\n' :: rest => some (['\r', '\n'], rest)
  | _ => none

/-- The characters after the text of a comment, from its line end on. -/
def comment? : List Char → Option (List Char)
  | [] => some []
  | '\n' :: rest => some ('\n' :: rest)
  | '\r' :: '\n' :: rest => some ('\r' :: '\n' :: rest)
  | c :: rest => if isControl c then none else comment? rest

/-- What follows at the end of a line: blanks, perhaps a comment, and the line end or the end of the
document. -/
def restOfLine? (cs : List Char) : Option (List Char) :=
  match dropBlanks cs with
  | [] => some []
  | '#' :: rest => (comment? rest).map fun after => (lineEnd? after).getD after
  | other => lineEnd? other

private def skipLines? : Nat → List Char → Option (List Char)
  | 0, cs => some cs
  | fuel + 1, cs =>
    match dropBlanks cs with
    | '#' :: rest => (comment? rest).bind (skipLines? fuel)
    | other =>
      match lineEnd? other with
      | some rest => skipLines? fuel rest
      | none => some other

/-- The characters after blanks, line ends and comments. -/
def dropLines? (cs : List Char) : Option (List Char) :=
  skipLines? (cs.length + 1) cs

/-! ## Strings -/

/-- A character given by so many hexadecimal digits. -/
def codePoint? (digits : Nat) : Reader Char := fun cs => do
  let front := cs.take digits
  let values ← front.mapM Text.hexValue?
  let n := values.foldl (fun n v => 16 * n + v) 0
  if values.length = digits ∧ n.isValidChar then pure (Char.ofNat n, cs.drop digits) else none

/-- The character that an escape stands for, after its backslash. -/
def escape? : Reader Char
  | 'b' :: rest => some ('\x08', rest)
  | 't' :: rest => some ('\t', rest)
  | 'n' :: rest => some ('\n', rest)
  | 'f' :: rest => some ('\x0c', rest)
  | 'r' :: rest => some ('\r', rest)
  | 'e' :: rest => some ('\x1b', rest)
  | '"' :: rest => some ('"', rest)
  | '\\' :: rest => some ('\\', rest)
  | 'x' :: rest => codePoint? 2 rest
  | 'u' :: rest => codePoint? 4 rest
  | 'U' :: rest => codePoint? 8 rest
  | _ => none

/-- The string before the next quotation mark, escapes read. -/
private def basicBody? : Nat → Reader (List Char)
  | 0, _ => none
  | _, [] => none
  | _, '"' :: rest => some ([], rest)
  | fuel + 1, '\\' :: rest => do
    let (c, rest) ← escape? rest
    let (cs, rest) ← basicBody? fuel rest
    pure (c :: cs, rest)
  | fuel + 1, c :: rest =>
    if isControl c then none
    else do
      let (cs, rest) ← basicBody? fuel rest
      pure (c :: cs, rest)

/-- The string before the next apostrophe, as it stands. -/
private def literalBody? : Reader (List Char)
  | [] => none
  | '\'' :: rest => some ([], rest)
  | c :: rest =>
    if isControl c then none
    else do
      let (cs, rest) ← literalBody? rest
      pure (c :: cs, rest)

/-- The quotes that start a list of characters: how many, and what follows. -/
private def quotes (quote : Char) (cs : List Char) : Nat × List Char :=
  ((cs.takeWhile (· == quote)).length, cs.dropWhile (· == quote))

/-- The characters after blanks and line ends. -/
private def dropWhite : List Char → List Char
  | ' ' :: rest => dropWhite rest
  | '\t' :: rest => dropWhite rest
  | '\n' :: rest => dropWhite rest
  | '\r' :: '\n' :: rest => dropWhite rest
  | cs => cs

/-- The string before three closing quotes, of which two more may stand before them. Line ends are
kept as they stand; with `escapes`, a backslash at the end of a line drops all blanks and line ends
up to the next character. -/
private def longBody? (quote : Char) (escapes : Bool) : Nat → Reader (List Char)
  | 0, _ => none
  | fuel + 1, cs =>
    match quotes quote cs with
    | (0, []) => none
    | (0, c :: rest) =>
      match lineEndText? (c :: rest) with
      | some (ending, rest) => do
        let (cs, rest) ← longBody? quote escapes fuel rest
        pure (ending ++ cs, rest)
      | none =>
        if isControl c then none
        else if escapes && c == '\\' then
          match lineEnd? (dropBlanks rest) with
          | some rest => longBody? quote escapes fuel (dropWhite rest)
          | none => do
            let (c, rest) ← escape? rest
            let (cs, rest) ← longBody? quote escapes fuel rest
            pure (c :: cs, rest)
        else do
          let (cs, rest) ← longBody? quote escapes fuel rest
          pure (c :: cs, rest)
    | (n, rest) =>
      if n < 3 then do
        let (cs, rest) ← longBody? quote escapes fuel rest
        pure (List.replicate n quote ++ cs, rest)
      else if n ≤ 5 then some (List.replicate (n - 3) quote, rest)
      else none

/-- A long string without the line end that directly follows its opening. -/
private def longString? (quote : Char) (escapes : Bool) (cs : List Char) :
    Option (List Char × List Char) :=
  let body := (lineEnd? cs).getD cs
  longBody? quote escapes (body.length + 1) body

/-- A string on one line, after the character that opens it. -/
def shortString? (quote : Char) (cs : List Char) : Option (String × List Char) := do
  let (text, rest) ←
    if quote = '"' then basicBody? (cs.length + 1) cs else literalBody? cs
  pure (String.ofList text, rest)

/-- A string, if one starts here. -/
def string? : Reader String
  | '"' :: '"' :: '"' :: rest => do
    let (text, rest) ← longString? '"' true rest
    pure (String.ofList text, rest)
  | '\'' :: '\'' :: '\'' :: rest => do
    let (text, rest) ← longString? '\'' false rest
    pure (String.ofList text, rest)
  | '"' :: rest => shortString? '"' rest
  | '\'' :: rest => shortString? '\'' rest
  | _ => none

/-! ## Keys -/

/-- A character that needs no quotes in a key. -/
def isBare (c : Char) : Bool :=
  c.isAlphanum || c == '_' || c == '-'

/-- One part of a key. -/
def keyPart? : Reader String
  | '"' :: rest => shortString? '"' rest
  | '\'' :: rest => shortString? '\'' rest
  | cs =>
    let bare := cs.takeWhile isBare
    if bare.isEmpty then none else some (String.ofList bare, cs.dropWhile isBare)

/-- How many parts a key may have. -/
def maxKeyParts : Nat := 80

/-- At most so many parts with dots between them. -/
private def keyParts? : Nat → Reader (List String)
  | 0, _ => none
  | fuel + 1, cs => do
    let (part, rest) ← keyPart? (dropBlanks cs)
    match dropBlanks rest with
    | '.' :: rest => do
      let (parts, rest) ← keyParts? fuel rest
      pure (part :: parts, rest)
    | rest => pure ([part], rest)

/-- A key of one or more parts with dots between them, with the blanks around it. -/
def key? (cs : List Char) : Option (List String × List Char) :=
  keyParts? maxKeyParts cs

end PackageSeal.Toml
