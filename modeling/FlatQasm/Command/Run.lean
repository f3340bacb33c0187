import FlatQasm.Command.Execute
import FlatQasm.Json.Codec

/-!
# Running a command line

The commands with JSON as it is read and written here.

## Main definitions

* `Json.library` — what the commands need of JSON.
* `runArguments` — the outcome of a command line.
-/

namespace FlatQasm

/-- The form of a report. -/
def CircuitReport.toJson (r : CircuitReport) : Json :=
  .record [("num_qubits", .ofNat r.qubitCount), ("num_clbits", .ofNat r.clbitCount),
    ("variables", .ofStrings r.freeVariables), ("gates", .array (r.gates.map GateRecord.toJson))]

/-- What the commands need of JSON. -/
def Json.library : JsonLibrary where
  numbers? text := (Json.decode? Bindings.ofJson? text).map Bindings.entries
  reportText r := r.toJson.pretty

/-- The outcome of a command line. -/
def runArguments {m : Type → Type} [Monad m] (st : Storage m) (args : List String) : m Outcome :=
  match Command.ofArguments? args with
  | some command => command.run st Json.library
  | none => pure (.ofFailure [] .usage)

end FlatQasm
