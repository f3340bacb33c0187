import FlatQasm.Circuit.Record
import FlatQasm.Command.Arguments
import FlatQasm.File

/-!
# Carrying out a command

A command reads and writes files through a `Storage` and gives what goes to the two output
streams.  On failure nothing goes to the standard output.  Reading and writing JSON is left to a
`JsonLibrary`.

## Main definitions

* `Failure` — why a command fails.
* `Outcome` — what a command prints, and whether it failed.
* `CircuitReport` — what an inspection says of a circuit.
* `JsonLibrary` — what the commands need of JSON.
* `Command.run` — the outcome of a command.
-/

namespace FlatQasm

/-- The name of the program. -/
def programName : String := "zxport"

/-- The version of the program. -/
def programVersion : String := "0.3.0"

/-- What an inspection says of a circuit in JSON. -/
structure CircuitReport where
  qubitCount : Nat
  clbitCount : Nat
  freeVariables : List String
  gates : List GateRecord

/-- The report on a circuit: its gates are the records of its instructions. -/
def Circuit.report (c : Circuit) : CircuitReport where
  qubitCount := c.qubitCount.toNat
  clbitCount := c.clbitCount.toNat
  freeVariables := c.freeVariables
  gates := c.toRecords

/-- What the commands need of a library for JSON. -/
structure JsonLibrary where
  /-- The numbers by name in a text, if the text is an object of numbers. -/
  numbers? : (text : String) → Option (List (String × Float))
  /-- The text of a report, with a line for each part. -/
  reportText : CircuitReport → String

/-- Why a command fails. -/
inductive Failure where
  /-- The arguments are not understood. -/
  | usage
  | inputNotFound (path : String)
  | importFailed (path : String) (cause : LoadError)
  | bindingsUnreadable (path : String) (cause : FileError)
  | bindingsInvalid (path : String)
  | exportFailed (cause : SaveError)

/-- What a command prints, and whether it failed. -/
structure Outcome where
  /-- The standard output. -/
  output : String
  /-- The lines of the error stream before a failure. -/
  notes : List String
  failure : Option Failure

/-- The wording of a load error followed by that of its cause, if it has one. -/
def LoadError.messageWithCause (e : LoadError) : String :=
  match e with
  | .unreadable _ cause => e.message ++ ": " ++ cause.message
  | .invalid (.circuit cause) => e.message ++ ": " ++ cause.message
  | .invalid _ => e.message

/-- The wording of a save error followed by that of its cause, if it has one. -/
def SaveError.messageWithCause (e : SaveError) : String :=
  match e with
  | .noText _ => e.message
  | .unwritable _ cause => e.message ++ ": " ++ cause.message

namespace Failure

/-- The wording of a failure. -/
def message : Failure → String
  | usage => "the arguments are not understood; try --help"
  | inputNotFound path => "File not found: " ++ path
  | importFailed path cause => "Failed to import " ++ path ++ ": " ++ cause.messageWithCause
  | bindingsUnreadable path cause =>
    "Failed to read bindings file: " ++ path ++ ": " ++ cause.message
  | bindingsInvalid path => "Invalid bindings file: " ++ path
  | exportFailed cause => "Failed to export circuit: " ++ cause.messageWithCause

/-- The exit code of a failure. -/
def exitCode : Failure → UInt32
  | usage => 2
  | _ => 1

end Failure

namespace Outcome

/-- The exit code of the program. -/
def exitCode (o : Outcome) : UInt32 :=
  match o.failure with
  | none => 0
  | some failure => failure.exitCode

/-- The text of the error stream. -/
def errorText (o : Outcome) : String :=
  let lines := match o.failure with
    | none => o.notes
    | some failure => o.notes ++ ["Error: " ++ failure.message]
  String.join (lines.map (· ++ "\n"))

/-- A command that succeeds and prints a text. -/
def ofOutput (output : String) : Outcome := ⟨output, [], none⟩

/-- A command that fails behind some notes. -/
def ofFailure (notes : List String) (failure : Failure) : Outcome := ⟨"", notes, some failure⟩

end Outcome

section

variable {m : Type → Type} [Monad m]

/-- The circuit of an input file. -/
def loadCircuit (st : Storage m) (path : String) (relaxed : Bool) :
    m (Except Failure Circuit) := do
  if ← st.present path then
    let rule := if relaxed then HeaderRule.optional else .required
    pure ((← st.importCircuit path rule).mapError (.importFailed path))
  else
    pure (.error (.inputNotFound path))

/-- The bindings of a file, if there is one, and of the command line, which come last. -/
def loadBindings (st : Storage m) (json : JsonLibrary) (file : Option String)
    (pairs : List (String × Float)) : m (Except Failure Bindings) := do
  match file with
  | none => pure (.ok (.ofList pairs))
  | some path =>
    match ← st.read path with
    | .error cause => pure (.error (.bindingsUnreadable path cause))
    | .ok text =>
      match json.numbers? text with
      | none => pure (.error (.bindingsInvalid path))
      | some entries => pure (.ok ((Bindings.ofList entries).insertMany pairs))

namespace ConvertCommand

/-- The note that a conversion starts with. -/
def startNote (o : ConvertCommand) : String :=
  "→ Converting " ++ o.input ++ if o.dropY then " (no Y gates)" else ""

/-- The notes on a circuit that was loaded. -/
def loadNotes (c : Circuit) : List String :=
  ("  Loaded: " ++ toString c.qubitCount.toNat ++ " qubits, " ++ toString c.clbitCount.toNat ++
      " clbits, " ++ toString c.instructions.length ++ " ops") ::
    match c.freeVariables with
    | [] => []
    | names => ["  Free variables: " ++ ", ".intercalate names]

/-- Imports a circuit and exports it again. -/
def run (st : Storage m) (json : JsonLibrary) (o : ConvertCommand) : m Outcome := do
  match ← loadCircuit st o.input o.relaxed with
  | .error failure => pure (.ofFailure [o.startNote] failure)
  | .ok c =>
    let notes := o.startNote :: loadNotes c
    match ← loadBindings st json o.bindingsFile o.pairs with
    | .error failure => pure (.ofFailure notes failure)
    | .ok bindings =>
      match ← st.exportCircuit c ⟨bindings, o.dropY, o.output⟩ with
      | .error cause => pure (.ofFailure notes (.exportFailed cause))
      | .ok text =>
        match o.output with
        | none => pure ⟨text, notes, none⟩
        | some path => pure ⟨"", notes ++ ["✓ Conversion complete", "  Output: " ++ path], none⟩

end ConvertCommand

namespace InspectCommand

/-- A text with blanks behind it up to a width. -/
def padRight (width : Nat) (text : String) : String :=
  text ++ String.ofList (List.replicate (width - text.length) ' ')

/-- A text with blanks before it up to a width. -/
def padLeft (width : Nat) (text : String) : String :=
  String.ofList (List.replicate (width - text.length) ' ') ++ text

/-- How often each mnemonic occurs in a circuit, in the order of the mnemonics. -/
def histogram (c : Circuit) : List (String × Nat) :=
  let mnemonics := c.gates.map Gate.mnemonic
  (sortNames mnemonics).map fun name => (name, mnemonics.count name)

/-- The summary of a circuit. -/
def summary (path : String) (c : Circuit) : List String :=
  let counts := c.counts
  ["Circuit " ++ path,
    "  Qubits:     " ++ toString c.qubitCount.toNat,
    "  Clbits:     " ++ toString c.clbitCount.toNat,
    "  Operations: " ++ toString c.instructions.length ++ " (" ++ toString counts.gates ++
      " gates, " ++ toString counts.measures ++ " measurements, " ++ toString counts.resets ++
      " resets, " ++ toString counts.barriers ++ " barriers)"] ++
    (match histogram c with
    | [] => []
    | rows => "  Gates:" :: rows.map fun (name, count) =>
      "    " ++ padRight 8 name ++ " " ++ padLeft 6 (toString count)) ++
    match c.freeVariables with
    | [] => []
    | names => ["  Variables:  " ++ ", ".intercalate names]

/-- Describes the circuit of a file. -/
def run (st : Storage m) (json : JsonLibrary) (o : InspectCommand) : m Outcome := do
  match ← loadCircuit st o.input o.relaxed with
  | .error failure => pure (.ofFailure [] failure)
  | .ok c =>
    if o.json then pure (.ofOutput (json.reportText c.report ++ "\n"))
    else pure (.ofOutput (String.join ((summary o.input c).map (· ++ "\n"))))

end InspectCommand

/-- What the program says about itself. -/
def aboutText : String :=
  programName ++ " v" ++ programVersion ++
    " - OpenQASM 2.0 conversion through a flat circuit IR\n\nComponents:\n" ++
    "  zxport-ir      Circuit intermediate representation\n" ++
    "  zxport-qasm2   OpenQASM 2.0 importer, rewriting passes and exporter\n" ++
    "  zxport-cli     Command-line interface\n\nLicense:    Apache-2.0\n"

/-- How the program is used. -/
def helpText : String :=
  "Usage: " ++ programName ++ " [-v] COMMAND\n\nCommands:\n" ++
    "  convert -i FILE [-o FILE] [--relaxed] [--no-y] [-b NAME=VALUE]... [--bindings FILE]\n" ++
    "  inspect -i FILE [--relaxed] [--json]\n" ++
    "  version\n"

/-- The outcome of a command. -/
def Command.run (st : Storage m) (json : JsonLibrary) : Command → m Outcome
  | .convert options => options.run st json
  | .inspect options => options.run st json
  | .about => pure (.ofOutput aboutText)
  | .versionNumber => pure (.ofOutput (programName ++ " " ++ programVersion ++ "\n"))
  | .help => pure (.ofOutput helpText)

end

end FlatQasm
