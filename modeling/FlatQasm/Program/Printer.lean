import FlatQasm.Program.Basic

/-!
# Programs as source text

The text of a program has a line for the header, if the program has a version, and a line for
each statement.  An empty list of angles is left out with its parentheses.

## Main definitions

* `GateCall.text`, `GateDefinition.text`, `StatementKind.text` — the parts.
* `Program.text` — the whole text.
-/

namespace FlatQasm

/-- Texts with commas between them. -/
def commaList (texts : List String) : String := ", ".intercalate texts

/-- Texts in parentheses with commas between them; nothing when there are none. -/
def parenthesized (texts : List String) : String :=
  if texts.isEmpty then "" else "(" ++ commaList texts ++ ")"

/-- The text of a gate call, with its semicolon. -/
def GateCall.text (c : GateCall) : String :=
  c.name ++ parenthesized (c.params.map Angle.text) ++ " " ++
    commaList (c.operands.map Operand.text) ++ ";"

/-- The text of a gate definition. -/
def GateDefinition.text (d : GateDefinition) : String :=
  "gate " ++ d.name ++ parenthesized d.params ++ " " ++ commaList d.qubits ++ " \x7b " ++
    String.join (d.body.map fun call => call.text ++ " ") ++ "\x7d"

/-- The text of a statement. -/
def StatementKind.text : StatementKind → String
  | qreg name size => "qreg " ++ name ++ "[" ++ toString size.toNat ++ "];"
  | creg name size => "creg " ++ name ++ "[" ++ toString size.toNat ++ "];"
  | gateDefinition d => d.text
  | call c => c.text
  | measure qubit clbit => "measure " ++ qubit.text ++ " -> " ++ clbit.text ++ ";"
  | reset target => "reset " ++ target.text ++ ";"
  | barrier targets => "barrier " ++ commaList (targets.map Operand.text) ++ ";"

namespace Program

/-- The lines of a program. -/
def lines (p : Program) : List String :=
  (match p.version with
    | some version => ["OPENQASM " ++ version ++ ";"]
    | none => []) ++
    p.statements.map fun s => s.kind.text

/-- The text of a program. -/
def text (p : Program) : String := "\n".intercalate p.lines

end Program

end FlatQasm
