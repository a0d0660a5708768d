import PackageSeal.Disk.Access
import PackageSeal.Layout.Validity
import PackageSeal.Toml.Document

/-!
# Layout files

A layout file is a TOML document that overrides parts of the release layout. The entries of a table
are looked at in the order of the octets of their keys, and what is missing is reported after what
is wrong. A table of fields may also be an array of them in the order in which they are declared.
-/

namespace PackageSeal.Layout

open Toml (Value)

/-! ## Values -/

/-- A text. -/
def text? : Value → Except DecodeFault String
  | .string text => .ok text
  | other => .error (.wrongKind other .text)

/-- An array of which every item is read. -/
def sequence? {α : Type} (item? : Value → Except DecodeFault α) :
    Value → Except DecodeFault (List α)
  | .array items => items.mapM item?
  | other => .error (.wrongKind other .sequence)

/-- A number of eight bits that is a word size. -/
def wordSize? : Value → Except DecodeFault WordSize
  | .integer n =>
    if 0 ≤ n ∧ n < 256 then
      match WordSize.ofBits? n.toNat with
      | some size => .ok size
      | none => .error (.wordSize n.toNat)
    else .error (.outOfRange n .octet)
  | other => .error (.wrongKind other .octet)

/-- The entries of a table in the order of their keys. -/
def sortedEntries (entries : List (String × Value)) : List (String × Value) :=
  entries.mergeSort fun a b => decide (utf8 a.1 ≤ utf8 b.1)

/-- A field that must have been given. -/
def required {α : Type} (name : String) : Option α → Except DecodeFault α
  | some value => .ok value
  | none => .error (.missingField name)

/-- The only entry of the table that stands for a date or a time. -/
private def momentField : String := "$__toml_private_datetime"

/-! ## Templates -/

/-- The fields of a template. -/
private def templateFields : List String := ["logical", "source"]

/-- The fields of a template read so far. -/
private structure PartialTemplate where
  name : Option String := none
  source : Option String := none

private def templateField (part : PartialTemplate) (entry : String × Value) :
    Except DecodeFault PartialTemplate := do
  if entry.1 = "logical" then pure { part with name := some (← text? entry.2) }
  else if entry.1 = "source" then pure { part with source := some (← text? entry.2) }
  else throw (.unknownField entry.1 templateFields)

/-- A template. -/
def template? : Value → Except DecodeFault Template
  | .table entries => do
    let part ← (sortedEntries entries).foldlM templateField {}
    pure ⟨← required "logical" part.name, ← required "source" part.source⟩
  | .array items =>
    match items with
    | [] => .error (.tooShort 0 .template 2)
    | [name] => do
      let _ ← text? name
      throw (.tooShort 1 .template 2)
    | name :: source :: _ => do
      pure ⟨← text? name, ← text? source⟩
  | .moment => .error (.unknownField momentField templateFields)
  | other => .error (.wrongKind other .template)

/-! ## Architectures -/

/-- The fields of an architecture. -/
private def architectureFields : List String := ["name", "artifact", "bits"]

/-- The fields of an architecture read so far. -/
private structure PartialArchitecture where
  name : Option String := none
  artifact : Option String := none
  wordSize : Option WordSize := none

private def architectureField (part : PartialArchitecture) (entry : String × Value) :
    Except DecodeFault PartialArchitecture := do
  if entry.1 = "name" then pure { part with name := some (← text? entry.2) }
  else if entry.1 = "artifact" then pure { part with artifact := some (← text? entry.2) }
  else if entry.1 = "bits" then pure { part with wordSize := some (← wordSize? entry.2) }
  else throw (.unknownField entry.1 architectureFields)

/-- An architecture. -/
def architecture? : Value → Except DecodeFault Architecture
  | .table entries => do
    let part ← (sortedEntries entries).foldlM architectureField {}
    pure ⟨← required "name" part.name, ← required "artifact" part.artifact,
      ← required "bits" part.wordSize⟩
  | .array items =>
    match items with
    | [] => .error (.tooShort 0 .architecture 3)
    | [name] => do
      let _ ← text? name
      throw (.tooShort 1 .architecture 3)
    | [name, artifact] => do
      let _ ← text? name
      let _ ← text? artifact
      throw (.tooShort 2 .architecture 3)
    | name :: artifact :: bits :: _ => do
      pure ⟨← text? name, ← text? artifact, ← wordSize? bits⟩
  | .moment => .error (.unknownField momentField architectureFields)
  | other => .error (.wrongKind other .architecture)

/-! ## Layouts -/

/-- The fields of a layout. -/
private def layoutFields : List String :=
  ["whole_tree_artifact", "common_members", "abi_members", "abi"]

/-- The layout with one part overridden. -/
def override (layout : Layout) (entry : String × Value) : Except DecodeFault Layout := do
  if entry.1 = "whole_tree_artifact" then
    pure { layout with treeArtifact := ← text? entry.2 }
  else if entry.1 = "common_members" then
    pure { layout with common := ← sequence? text? entry.2 }
  else if entry.1 = "abi_members" then
    pure { layout with templates := ← sequence? template? entry.2 }
  else if entry.1 = "abi" then
    pure { layout with architectures := ← sequence? architecture? entry.2 }
  else throw (.unknownField entry.1 layoutFields)

/-- The layout that a document describes, whether it keeps the rules or not. -/
def decode (text : String) : Except DecodeFault Layout :=
  match Value.parse? text with
  | some (.table entries) => (sortedEntries entries).foldlM override release
  | _ => .error .malformed

/-- The layout of a file with the given text, if it keeps the rules. -/
def ofText (text : String) (file : Path) : Except Failure Layout := do
  let layout ← (decode text).mapError (Failure.badLayoutFile file)
  layout.check.mapError Failure.brokenRule
  pure layout

/-- The layout of a file. -/
def load (disk : Disk) (file : Path) : Except Failure Layout :=
  match disk.readText file with
  | .error cause => .error (.access .reading file cause)
  | .ok text => ofText text file

end PackageSeal.Layout
