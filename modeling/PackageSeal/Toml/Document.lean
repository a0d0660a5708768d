import PackageSeal.Toml.Term

/-!
# Documents

What the statements of a document say together: one table. While it is drafted each table remembers
how it came about, because that decides what may still be added to it: a header may name a table
once, a dotted key extends only tables that no header named, and a value written at once stays as it
is. `Value.parse?` reads a document.
-/

namespace PackageSeal.Toml

/-- A part of a document under way. -/
inductive Draft where
  /-- A value that is complete. -/
  | leaf (value : Value)
  /-- A table that may grow; `implicit` tells that no header named it, `dotted` that a dotted key
  made it. -/
  | table (implicit dotted : Bool) (entries : List (String × Draft))
  /-- An array of tables, of which the last may grow. -/
  | tables (earlier : List Draft) (last : Draft)

/-- The entries of a drafted table. -/
abbrev DraftEntries := List (String × Draft)

namespace DraftEntries

/-- The entries with a key leading to a draft. -/
def set (key : String) (draft : Draft) : DraftEntries → DraftEntries
  | [] => [(key, draft)]
  | (other, old) :: rest =>
    if key = other then (key, draft) :: rest else (other, old) :: set key draft rest

end DraftEntries

namespace Draft

/-- An empty table that a header names. -/
def named : Draft :=
  table false false []

/-- Change the table at a path. Tables missing on the way are made. For a dotted key the way leads
through no table that a header named; it never leads through a complete value. -/
def descend (dotted : Bool) (change : Draft → Option Draft) : List String → Draft → Option Draft
  | [], draft => change draft
  | key :: path, table implicit made entries =>
    match entries.lookup key with
    | none => do
      let child ← descend dotted change path (table true dotted [])
      pure (table implicit made (DraftEntries.set key child entries))
    | some (leaf _) => none
    | some (tables earlier last) => do
      let grown ← descend dotted change path last
      pure (table implicit made (DraftEntries.set key (tables earlier grown) entries))
    | some (table false madeBelow below) =>
      if dotted then none
      else do
        let child ← descend dotted change path (table false madeBelow below)
        pure (table implicit made (DraftEntries.set key child entries))
    | some (table true madeBelow below) => do
      let child ← descend dotted change path (table true madeBelow below)
      pure (table implicit made (DraftEntries.set key child entries))
  | _ :: _, _ => none

/-- Give a value to a key of a table, dotted or not. The last part of the key must be new, and a
dotted key adds only to tables that dotted keys made. -/
def assign (key : List String) (value : Value) (draft : Draft) : Option Draft :=
  match key.getLast? with
  | none => none
  | some name =>
    let path := key.dropLast
    let add : Draft → Option Draft
      | table implicit made entries =>
        if made = path.isEmpty ∨ (entries.lookup name).isSome then none
        else some (table implicit made (DraftEntries.set name (leaf value) entries))
      | _ => none
    descend true add path draft

/-- Open the table at a path. It must be new, or have come about only by being on the way to
another. -/
def openTable (path : List String) (draft : Draft) : Option Draft :=
  match path.getLast? with
  | none => none
  | some name =>
    let add : Draft → Option Draft
      | table implicit made entries =>
        match entries.lookup name with
        | none => some (table implicit made (DraftEntries.set name named entries))
        | some (table true false below) =>
          some (table implicit made (DraftEntries.set name (table false false below) entries))
        | some _ => none
      | _ => none
    descend false add path.dropLast draft

/-- Open a new element of the array of tables at a path. -/
def openElement (path : List String) (draft : Draft) : Option Draft :=
  match path.getLast? with
  | none => none
  | some name =>
    let add : Draft → Option Draft
      | table implicit made entries =>
        match entries.lookup name with
        | none => some (table implicit made (DraftEntries.set name (tables [] named) entries))
        | some (tables earlier last) =>
          some (table implicit made
            (DraftEntries.set name (tables (earlier ++ [last]) named) entries))
        | some _ => none
      | _ => none
    descend false add path.dropLast draft

mutual

/-- What a draft says when nothing is added any more. -/
def value : Draft → Value
  | leaf value => value
  | table _ _ entries => .table (entryValues entries)
  | tables earlier last => .array (values earlier ++ [last.value])

private def values : List Draft → List Value
  | [] => []
  | draft :: rest => draft.value :: values rest

private def entryValues : List (String × Draft) → List (String × Value)
  | [] => []
  | entry :: rest => entryValue entry :: entryValues rest

private def entryValue : String × Draft → String × Value
  | (key, draft) => (key, draft.value)

end

end Draft

/-! ## Terms -/

/-- The table that the assignments of an inline table make. -/
private def assignAll? (fields : List (List String × Value)) : Option Value :=
  (fields.foldlM (fun (draft : Draft) field => draft.assign field.1 field.2) Draft.named).map
    Draft.value

mutual

/-- The value of a term, if its inline tables do not contradict themselves. -/
def Term.value? : Term → Option Value
  | .leaf value => some value
  | .array items => (itemValues? items).map Value.array
  | .inline fields => (fieldValues? fields).bind assignAll?

private def itemValues? : List Term → Option (List Value)
  | [] => some []
  | item :: rest => do
    let value ← item.value?
    let values ← itemValues? rest
    pure (value :: values)

private def fieldValues? : List (List String × Term) → Option (List (List String × Value))
  | [] => some []
  | field :: rest => do
    let value ← fieldValue? field
    let values ← fieldValues? rest
    pure (value :: values)

private def fieldValue? : List String × Term → Option (List String × Value)
  | (key, term) => term.value?.map fun value => (key, value)

end

/-! ## Statements -/

/-- A document under way: the draft and the path of the open table. -/
structure DocumentState where
  root : Draft
  path : List String

namespace DocumentState

/-- Nothing said yet. -/
def start : DocumentState :=
  ⟨Draft.named, []⟩

/-- Take in one statement. -/
def take (state : DocumentState) : Statement → Option DocumentState
  | .assign key term => do
    let value ← term.value?
    let root ← state.root.descend false (Draft.assign key value) state.path
    pure { state with root := root }
  | .table path => do
    let root ← state.root.openTable path
    pure ⟨root, path⟩
  | .element path => do
    let root ← state.root.openElement path
    pure ⟨root, path⟩

end DocumentState

/-- The table that a document says, if it is well formed. -/
def Value.parse? (text : String) : Option Value := do
  let statements ← readStatements? text
  let state ← statements.foldlM DocumentState.take DocumentState.start
  pure state.root.value

end PackageSeal.Toml
