import PackageSeal.KeyLocation
import PackageSeal.Layout.Basic

/-!
# The command line

A command line names a subcommand and its arguments: one directory, options with a value and flags.
Arguments are read from left to right, and the first that cannot be used decides the answer. An
option whose value is a word of its own is settled only by the argument after it, so that a misused
argument may be reported before a missing value.
-/

namespace PackageSeal.CommandLine

/-- Why a command line asks for no run. -/
inductive ArgumentFault where
  | helpAsked
  | versionAsked
  /-- No subcommand is given. -/
  | nothingAsked
  | unknownArgument
  | unknownSubcommand
  /-- An option has no value. -/
  | missingValue
  /-- An option or a flag is given twice. -/
  | repeated
  /-- A flag has a value. -/
  | unwantedValue
  /-- The directory is missing. -/
  | missingArgument
deriving DecidableEq

/-! ## Commands -/

/-- The arguments of sealing. -/
structure SealArguments where
  package : Path
  keyDir : Option Path
  privateKey : Option Path
  layout : Option Path
  quiet : Bool
deriving DecidableEq

/-- The arguments of verification. -/
structure VerifyArguments where
  package : Path
  layout : Option Path
  publicKey : Option Path
  quiet : Bool
deriving DecidableEq

/-- What a command line asks for. -/
inductive Command where
  | seal (arguments : SealArguments)
  | verify (arguments : VerifyArguments)
deriving DecidableEq

namespace SealArguments

/-- Where the key pair is kept: a named seed comes before a named directory, and the current
directory comes last. -/
def keyLocation (arguments : SealArguments) : KeyLocation :=
  match arguments.privateKey, arguments.keyDir with
  | some key, _ => .files key none
  | none, some dir => .directory dir
  | none, none => .directory ⟨"."⟩

end SealArguments

/-! ## Arguments of a subcommand -/

/-- What a single argument looks like. -/
inductive Shape where
  /-- Two dashes: words follow. -/
  | separator
  /-- A name after two dashes, perhaps with a value behind an equals sign. -/
  | long (name : String) (value : Option String)
  /-- Letters after one dash. -/
  | short (letters : List Char)
  | word (text : String)

namespace Shape

/-- The shape of an argument. -/
def ofText (text : String) : Shape :=
  match text.toList with
  | ['-', '-'] => .separator
  | '-' :: '-' :: rest =>
    let name := String.ofList (rest.takeWhile (· != '='))
    match rest.dropWhile (· != '=') with
    | [] => .long name none
    | _ :: value => .long name (some (String.ofList value))
  | ['-'] => .word text
  | '-' :: letters => .short letters
  | _ => .word text

end Shape

/-- The arguments of a subcommand read so far. -/
structure Arguments where
  directory : Option String := none
  /-- The settled options. -/
  values : List (String × String) := []
  quiet : Bool := false
  /-- An option that is not settled yet, with its value once that is read. -/
  pending : Option (String × Option String) := none
  /-- Whether only words follow. -/
  wordsOnly : Bool := false

namespace Arguments

/-- Settle an option with its value. -/
def settle (arguments : Arguments) (name value : String) : Except ArgumentFault Arguments :=
  if (arguments.values.lookup name).isSome then .error .repeated
  else .ok { arguments with values := arguments.values ++ [(name, value)] }

/-- Settle the option that waits to be settled. -/
def settlePending (arguments : Arguments) : Except ArgumentFault Arguments :=
  match arguments.pending with
  | none => .ok arguments
  | some (_, none) => .error .missingValue
  | some (name, some value) => { arguments with pending := none }.settle name value

/-- Set the flag that asks for silence. -/
def setQuiet (arguments : Arguments) : Except ArgumentFault Arguments := do
  let arguments ← arguments.settlePending
  if arguments.quiet then throw .repeated
  pure { arguments with quiet := true }

/-- Answer the flag that asks for help. -/
def askHelp (arguments : Arguments) : Except ArgumentFault Arguments := do
  let _ ← arguments.settlePending
  throw .helpAsked

/-- Read a long argument; `options` are the names that take a value. -/
def readLong (options : List String) (arguments : Arguments) (name : String)
    (value : Option String) : Except ArgumentFault Arguments :=
  if options.contains name then do
    let arguments ← arguments.settlePending
    match value with
    | some value => arguments.settle name value
    | none => pure { arguments with pending := some (name, none) }
  else if name = "quiet" ∨ name = "help" then
    if value.isSome then .error .unwantedValue
    else if name = "quiet" then arguments.setQuiet
    else arguments.askHelp
  else .error .unknownArgument

/-- Read a letter behind one dash. -/
def readLetter (arguments : Arguments) (letter : Char) : Except ArgumentFault Arguments :=
  if letter = 'q' then arguments.setQuiet
  else if letter = 'h' then arguments.askHelp
  else .error .unknownArgument

/-- Read a word that is no value of an option. -/
def readDirectory (arguments : Arguments) (text : String) : Except ArgumentFault Arguments :=
  match arguments.directory with
  | some _ => .error .unknownArgument
  | none => do
    let arguments ← arguments.settlePending
    pure { arguments with directory := some text }

/-- Read one argument. -/
def read (options : List String) (arguments : Arguments) (text : String) :
    Except ArgumentFault Arguments :=
  if arguments.wordsOnly then arguments.readDirectory text
  else
    match Shape.ofText text with
    | .separator => .ok { arguments with wordsOnly := true }
    | .long name value => arguments.readLong options name value
    | .short letters => letters.foldlM readLetter arguments
    | .word text =>
      match arguments.pending with
      | some (name, none) => .ok { arguments with pending := some (name, some text) }
      | _ => arguments.readDirectory text

/-- Read all arguments of a subcommand. -/
def readAll (options : List String) (texts : List String) : Except ArgumentFault Arguments := do
  let arguments ← texts.foldlM (read options) {}
  arguments.settlePending

/-- The path given for an option. -/
def path? (arguments : Arguments) (name : String) : Option Path :=
  (arguments.values.lookup name).map Path.mk

/-- The directory, which must be given. -/
def package (arguments : Arguments) : Except ArgumentFault Path :=
  match arguments.directory with
  | some text => .ok ⟨text⟩
  | none => .error .missingArgument

end Arguments

/-! ## Whole command lines -/

/-- The subcommands. -/
def subcommands : List String := ["seal", "verify", "help"]

/-- The arguments of sealing; `key` is the seed's file named by the environment. -/
def readSeal (key : Option String) (texts : List String) : Except ArgumentFault Command := do
  let arguments ← Arguments.readAll ["key-dir", "private-key", "layout"] texts
  let package ← arguments.package
  pure (.seal ⟨package, arguments.path? "key-dir",
    arguments.path? "private-key" <|> key.map Path.mk, arguments.path? "layout", arguments.quiet⟩)

/-- The arguments of verification. -/
def readVerify (texts : List String) : Except ArgumentFault Command := do
  let arguments ← Arguments.readAll ["layout", "public-key"] texts
  let package ← arguments.package
  pure (.verify ⟨package, arguments.path? "layout", arguments.path? "public-key", arguments.quiet⟩)

/-- What asking for help on some subcommand comes to; none has subcommands of its own. -/
def readHelp : List String → ArgumentFault
  | [] => .helpAsked
  | [name] => if subcommands.contains name then .helpAsked else .unknownSubcommand
  | _ => .unknownSubcommand

/-- What a command line asks for; `key` is the seed's file named by the environment. -/
def parse (key : Option String) (texts : List String) : Except ArgumentFault Command :=
  match texts with
  | [] => .error .nothingAsked
  | first :: rest =>
    match Shape.ofText first with
    | .separator =>
      match rest with
      | [] => .error .nothingAsked
      | next :: _ =>
        .error (if subcommands.contains next then .unknownArgument else .unknownSubcommand)
    | .long name value =>
      if name = "help" ∨ name = "version" then
        .error (if value.isSome then .unwantedValue
          else if name = "help" then .helpAsked else .versionAsked)
      else .error .unknownArgument
    | .short letters =>
      .error (if letters.head? = some 'h' then .helpAsked
        else if letters.head? = some 'V' then .versionAsked else .unknownArgument)
    | .word name =>
      if name = "seal" then readSeal key rest
      else if name = "verify" then readVerify rest
      else if name = "help" then .error (readHelp rest)
      else .error .unknownSubcommand

end PackageSeal.CommandLine
