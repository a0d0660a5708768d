import PackageSeal.Toml.Scalar

/-!
# Terms and statements

A document as it is written: statements that open a table or assign a term to a key, one on a line.
A term is a value, an array of terms, or an inline table of assignments. What the statements say
together, and whether they contradict each other, is not decided here.
-/

namespace PackageSeal.Toml

/-- A value as written. -/
inductive Term where
  | leaf (value : Value)
  | array (items : List Term)
  | inline (fields : List (List String × Term))

/-- One statement of a document. -/
inductive Statement where
  /-- A term for a key of the open table. -/
  | assign (key : List String) (term : Term)
  /-- A header that opens a table. -/
  | table (key : List String)
  /-- A header that opens a new element of an array of tables. -/
  | element (key : List String)

/-- How deep arrays and inline tables may stand in each other. -/
def maxDepth : Nat := 80

mutual

/-- A term, with at most `depth` brackets in each other. -/
private def term? : Nat → Nat → Reader Term
  | 0, _, _ => none
  | _, 0, '[' :: _ => none
  | _, 0, '{' :: _ => none
  | fuel + 1, depth + 1, '[' :: rest => do
    let (items, rest) ← items? fuel depth rest
    pure (.array items, rest)
  | fuel + 1, depth + 1, '{' :: rest => do
    let (fields, rest) ← fields? fuel depth rest
    pure (.inline fields, rest)
  | _, _, cs =>
    if cs.head? = some '"' ∨ cs.head? = some '\'' then
      (string? cs).map fun (text, rest) => (.leaf (.string text), rest)
    else (unquoted? cs).map fun (value, rest) => (.leaf value, rest)

/-- The items of an array, up to and with the bracket that closes it. -/
private def items? : Nat → Nat → Reader (List Term)
  | 0, _, _ => none
  | fuel + 1, depth, cs => do
    match ← dropLines? cs with
    | ']' :: rest => pure ([], rest)
    | cs =>
      let (item, rest) ← term? fuel depth cs
      match ← dropLines? rest with
      | ',' :: rest =>
        let (items, rest) ← items? fuel depth rest
        pure (item :: items, rest)
      | ']' :: rest => pure ([item], rest)
      | _ => none

/-- The assignments of an inline table, up to and with the brace that closes it. Lines may end
anywhere but within a key. -/
private def fields? : Nat → Nat → Reader (List (List String × Term))
  | 0, _, _ => none
  | fuel + 1, depth, cs => do
    match ← dropLines? cs with
    | '}' :: rest => pure ([], rest)
    | cs =>
      let (key, rest) ← key? cs
      match ← dropLines? rest with
      | '=' :: rest =>
        let (term, rest) ← term? fuel depth (← dropLines? rest)
        match ← dropLines? rest with
        | ',' :: rest =>
          let (fields, rest) ← fields? fuel depth rest
          pure ((key, term) :: fields, rest)
        | '}' :: rest => pure ([(key, term)], rest)
        | _ => none
      | _ => none

end

/-- A term at the front of the characters. -/
def readTerm? (cs : List Char) : Option (Term × List Char) :=
  term? (2 * cs.length + 2) maxDepth cs

private def statements? : Nat → List Char → Option (List Statement)
  | 0, _ => none
  | fuel + 1, cs =>
    match dropBlanks cs with
    | [] => some []
    | '#' :: rest => (comment? rest).bind (statements? fuel)
    | '[' :: '[' :: rest => do
      match ← key? rest with
      | (key, ']' :: ']' :: rest) =>
        let rest ← restOfLine? rest
        let more ← statements? fuel rest
        pure (.element key :: more)
      | _ => none
    | '[' :: rest => do
      match ← key? rest with
      | (key, ']' :: rest) =>
        let rest ← restOfLine? rest
        let more ← statements? fuel rest
        pure (.table key :: more)
      | _ => none
    | cs =>
      match lineEnd? cs with
      | some rest => statements? fuel rest
      | none => do
        match ← key? cs with
        | (key, '=' :: rest) =>
          let (term, rest) ← readTerm? (dropBlanks rest)
          let rest ← restOfLine? rest
          let more ← statements? fuel rest
          pure (.assign key term :: more)
        | _ => none

/-- The statements of a document, if it is well formed. A byte order mark at its start is no part of
it. -/
def readStatements? (text : String) : Option (List Statement) :=
  let cs := match text.toList with
    | '\uFEFF' :: rest => rest
    | cs => cs
  statements? (cs.length + 1) cs

end PackageSeal.Toml
