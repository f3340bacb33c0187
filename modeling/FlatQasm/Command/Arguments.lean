import FlatQasm.Command.Binding
import FlatQasm.Command.Options

/-!
# The command line

## Main definitions

* `Command` — what the program is asked to do.
* `Command.ofArguments?` — the command that arguments ask for.
-/

namespace FlatQasm

/-- What to convert, and how. -/
structure ConvertCommand where
  input : String
  output : Option String
  relaxed : Bool
  dropY : Bool
  /-- The bindings of the command line, in order. -/
  pairs : List (String × Float)
  /-- A file with further bindings. -/
  bindingsFile : Option String

/-- What to inspect, and how. -/
structure InspectCommand where
  input : String
  relaxed : Bool
  json : Bool

/-- What the program is asked to do. -/
inductive Command where
  | convert (options : ConvertCommand)
  | inspect (options : InspectCommand)
  /-- Describe the program and its version. -/
  | about
  /-- Print the version alone. -/
  | versionNumber
  | help

/-- The options that may stand before and behind the name of a command. -/
def globalSpecs : List OptionSpec :=
  [⟨"verbose", some 'v', .repeatedFlag⟩, ⟨"help", some 'h', .flag⟩]

/-- The options before the name of a command. -/
def outerSpecs : List OptionSpec := ⟨"version", some 'V', .flag⟩ :: globalSpecs

/-- The options of a conversion. -/
def convertSpecs : List OptionSpec :=
  [⟨"input", some 'i', .value⟩, ⟨"output", some 'o', .value⟩, ⟨"relaxed", none, .flag⟩,
    ⟨"no-y", none, .flag⟩, ⟨"bind", some 'b', .repeatedValue⟩, ⟨"bindings", none, .value⟩] ++
    globalSpecs

/-- The options of an inspection. -/
def inspectSpecs : List OptionSpec :=
  [⟨"input", some 'i', .value⟩, ⟨"relaxed", none, .flag⟩, ⟨"json", none, .flag⟩] ++ globalSpecs

/-- A path; it may not be empty. -/
def path? (value : String) : Option String := if value.isEmpty then none else some value

/-- The path of an option that need not be given. -/
def optionalPath? (name : String) (options : List Occurrence) : Option (Option String) :=
  match (valuesOf name options).head? with
  | none => some none
  | some value => (path? value).map some

/-- The options behind the name of a command, with nothing behind them.  Help ends the options, so
that what is wrong before it still counts, and what is missing does not. -/
def commandOptions? (specs : List OptionSpec) (words : List String) :
    Option (List Occurrence) := do
  let scanned ← scanOptions specs ["help"] none words
  if scanned.rest.isEmpty && repeatsAllowed specs scanned.options then some scanned.options
  else none

/-- The names of the commands. -/
def commandNames : List String := ["convert", "inspect", "version", "help"]

/-- The command that its name and the words behind it ask for.  Help is on the whole program or on
one command, and no option may follow. -/
def Command.ofWords? (name : String) (words : List String) : Option Command :=
  match name with
  | "convert" => do
    let options ← commandOptions? convertSpecs words
    let input ← optionalPath? "input" options
    let output ← optionalPath? "output" options
    let bindingsFile ← optionalPath? "bindings" options
    let pairs ← (valuesOf "bind" options).mapM fun arg => (parseBinding arg).toOption
    if given "help" options then some .help
    else
      let input ← input
      let relaxed := given "relaxed" options
      let dropY := given "no-y" options
      some (.convert { input, output, relaxed, dropY, pairs, bindingsFile })
  | "inspect" => do
    let options ← commandOptions? inspectSpecs words
    let input ← optionalPath? "input" options
    if given "help" options then some .help
    else
      let input ← input
      let relaxed := given "relaxed" options
      let json := given "json" options
      some (.inspect { input, relaxed, json })
  | "version" => do
    let options ← commandOptions? globalSpecs words
    some (if given "help" options then .help else .about)
  | "help" =>
    match words with
    | [] => some .help
    | [topic] => if commandNames.contains topic then some .help else none
    | _ => none
  | _ => none

/-- The command that arguments ask for; there is none when they are not understood. -/
def Command.ofArguments? (args : List String) : Option Command := do
  let scanned ← scanOptions outerSpecs ["version", "help"] none args
  if given "version" scanned.options then some .versionNumber
  else if given "help" scanned.options then some .help
  else
    match scanned.rest, scanned.closed with
    | name :: words, false => Command.ofWords? name words
    | _, _ => none

end FlatQasm
