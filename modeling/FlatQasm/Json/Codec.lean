import FlatQasm.Angle.Basic
import FlatQasm.Bindings
import FlatQasm.Circuit.Record
import FlatQasm.Json.Text
import FlatQasm.Program.Basic

/-!
# JSON forms of the library's data

A structure is an object with its fields in the order of their declarations; it is also read from
an array of them.  Reading skips members that are no fields, and refuses a field that occurs twice.
A case without content is its name, also read from an object with that name and `null`; a case with
content is an object whose only key is its name.

Reading nothing but converts: it does not check that a circuit or a program makes sense.  At most
`Json.levels` arrays and objects may be inside one another, apart from members that are skipped.

## Main definitions

* `Json.fields?`, `Json.case?` — structures and cases.
* `toJson` and `ofJson?` of each type — its form, and the value of a form.
* `Json.encode`, `Json.decode?` — text for a value, and back.
-/

namespace FlatQasm

namespace Json

/-- How many arrays and objects may be inside one another. -/
def levels : Nat := 127

/-! ## Shapes -/

/-- The form of a case with content. -/
def caseOf (name : String) (content : Json) : Json := record [(name, content)]

/-- The value of a member that occurs at most once; a second one makes the object unreadable. -/
def atMostOnce? (key : String) (members : List (List Char × Json)) : Option (Option Json) :=
  match members.filter fun (written, _) => unescape? written == some key.toList with
  | [] => some none
  | [(_, value)] => some (some value)
  | _ => none

/-- The fields of a structure, in the order of `names`, with the levels that are left inside.  A
field that is not there is none. -/
def fields? (names : List String) : (depth : Nat) → Json → Option (Nat × List (Option Json))
  | depth + 1, .array elements =>
    if elements.length ≤ names.length then
      some (depth, elements.map some ++ List.replicate (names.length - elements.length) none)
    else none
  | depth + 1, .object members =>
    if members.all fun (written, _) => (unescape? written).isSome then
      (names.mapM fun name => atMostOnce? name members).map (depth, ·)
    else none
  | _, _ => none

/-- The elements of an array. -/
def elements? {α : Type} (element : Nat → Json → Option α) :
    (depth : Nat) → Json → Option (List α)
  | depth + 1, .array elements => elements.mapM (element depth)
  | _, _ => none

/-- The name of a case, with its content and the levels that are left for it. -/
def case? : (depth : Nat) → Json → Option (String × Option (Nat × Json))
  | _, .string written => (unescape? written).map fun name => (String.ofList name, none)
  | depth + 1, .object [(written, content)] =>
    (unescape? written).map fun name => (String.ofList name, some (depth, content))
  | _, _ => none

/-- Whether a case has no content. -/
def noContent : Option (Nat × Json) → Bool
  | none | some (_, .null) => true
  | _ => false

/-- The form of a 32-bit number. -/
def ofWord (n : UInt32) : Json := .ofNat n.toNat

/-- A 32-bit number. -/
def word32? (value : Json) : Option UInt32 := (value.nat? UInt32.size).map Nat.toUInt32

/-- A 64-bit number. -/
def word64? (value : Json) : Option UInt64 := (value.nat? UInt64.size).map Nat.toUInt64

/-- A value that may be `null`. -/
def nullable? {α : Type} (content : Json → Option α) : Json → Option (Option α)
  | .null => some none
  | value => (content value).map some

end Json

open Json

/-! ## Angles and bindings -/

/-- The operation with a case name. -/
def ArithOp.ofCaseName? (name : String) : Option ArithOp :=
  [ArithOp.add, .sub, .mul, .div].find? fun op => op.caseName == name

/-- The form of an angle. -/
def Angle.toJson : Angle → Json
  | const v => caseOf "Constant" (.ofFloat v)
  | var name => caseOf "Symbol" (.ofString name)
  | pi => .ofString "Pi"
  | neg e => caseOf "Neg" e.toJson
  | binary op a b => caseOf op.caseName (.array [a.toJson, b.toJson])

/-- The angle of a form, with its numbers read in a given way. -/
def Angle.read? (number? : Json → Option Float) : (depth : Nat) → Json → Option Angle
  | _, .string written => if unescape? written = some ['P', 'i'] then some pi else none
  | depth + 1, .object [(written, content)] => do
    let name ← unescape? written
    match String.ofList name with
    | "Constant" => (number? content).map const
    | "Symbol" => content.string?.map var
    | "Pi" => if content matches .null then some pi else none
    | "Neg" => (read? number? depth content).map neg
    | other => do
      let op ← ArithOp.ofCaseName? other
      match depth, content with
      | depth + 1, .array [a, b] =>
        some (binary op (← read? number? depth a) (← read? number? depth b))
      | _, _ => none
  | _, _ => none

/-- The angle of a form. -/
def Angle.ofJson? : (depth : Nat) → Json → Option Angle := read? float?

/-- The form of bindings: an object with the names in order. -/
def Bindings.toJson (b : Bindings) : Json :=
  record (b.entries.map fun (name, value) => (name, .ofFloat value))

/-- The bindings of a form; the last value of a name counts. -/
def Bindings.ofJson? : (depth : Nat) → Json → Option Bindings
  | _ + 1, .object members => do
    let entries ← members.mapM fun (written, value) => do
      some (String.ofList (← unescape? written), ← value.float?)
    some (.ofList entries)
  | _, _ => none

/-! ## Circuits and records -/

section Read

variable (number? : Json → Option Float)

/-- The form of a base gate: its label, or the label with the angle. -/
def BaseGate.toJson (g : BaseGate) : Json :=
  match g.angle? with
  | none => .ofString g.kind.label
  | some angle => caseOf g.kind.label angle.toJson

/-- The base gate of a form. -/
def BaseGate.read? (depth : Nat) (value : Json) : Option BaseGate := do
  let (name, content) ← case? depth value
  match ← GateKind.all.find? fun kind => kind.label == name with
  | .fixed gate => if noContent content then some (fixed gate) else none
  | .rotation axis =>
    let (depth, angle) ← content
    (Angle.read? number? depth angle).map (rotation axis)

/-- The controls of a form. -/
def Controls.ofJson? (depth : Nat) (value : Json) : Option Controls := do
  let (name, content) ← case? depth value
  let controls ← Controls.all.find? fun controls => controls.caseName == name
  if noContent content then some controls else none

/-- The form of a gate. -/
def Gate.toJson (g : Gate) : Json :=
  record [("kind", g.base.toJson), ("controls", .ofString g.controls.caseName)]

/-- The gate of a form; without a number of controls it has none. -/
def Gate.read? (depth : Nat) (value : Json) : Option Gate := do
  match ← fields? ["kind", "controls"] depth value with
  | (depth, [some kind, controls]) =>
    let base ← BaseGate.read? number? depth kind
    let controls ← match controls with
      | some value => Controls.ofJson? depth value
      | none => some .zero
    some ⟨base, controls⟩
  | _ => none

/-- The form of an operation. -/
def Operation.toJson : Operation → Json
  | gate g => caseOf "Gate" g.toJson
  | measure => .ofString "Measure"
  | reset => .ofString "Reset"
  | barrier => .ofString "Barrier"

/-- The operation of a form. -/
def Operation.read? (depth : Nat) (value : Json) : Option Operation := do
  match ← case? depth value with
  | ("Gate", some (depth, content)) => (Gate.read? number? depth content).map gate
  | ("Measure", content) => if noContent content then some measure else none
  | ("Reset", content) => if noContent content then some reset else none
  | ("Barrier", content) => if noContent content then some barrier else none
  | _ => none

/-- The form of a qubit: its index. -/
def Qubit.toJson (q : Qubit) : Json := ofWord q.index

/-- The qubit of a form. -/
def Qubit.ofJson? (value : Json) : Option Qubit := (word32? value).map Qubit.mk

/-- The form of a classical bit: its index. -/
def Clbit.toJson (c : Clbit) : Json := ofWord c.index

/-- The classical bit of a form. -/
def Clbit.ofJson? (value : Json) : Option Clbit := (word32? value).map Clbit.mk

/-- The form of an instruction. -/
def Instruction.toJson (i : Instruction) : Json :=
  record [("kind", i.operation.toJson), ("qubits", .array (i.qubits.map Qubit.toJson)),
    ("clbits", .array (i.clbits.map Clbit.toJson))]

/-- The instruction of a form. -/
def Instruction.read? (depth : Nat) (value : Json) : Option Instruction := do
  match ← fields? ["kind", "qubits", "clbits"] depth value with
  | (depth, [some kind, some qubits, some clbits]) =>
    some ⟨← Operation.read? number? depth kind, ← elements? (fun _ => Qubit.ofJson?) depth qubits,
      ← elements? (fun _ => Clbit.ofJson?) depth clbits⟩
  | _ => none

/-- The form of a circuit. -/
def Circuit.toJson (c : Circuit) : Json :=
  record [("num_qubits", ofWord c.qubitCount), ("num_clbits", ofWord c.clbitCount),
    ("instructions", .array (c.instructions.map Instruction.toJson))]

/-- The circuit of a form. -/
def Circuit.read? (depth : Nat) (value : Json) : Option Circuit := do
  match ← fields? ["num_qubits", "num_clbits", "instructions"] depth value with
  | (depth, [some qubits, some clbits, some instructions]) =>
    some ⟨← word32? qubits, ← word32? clbits,
      ← elements? (Instruction.read? number?) depth instructions⟩
  | _ => none

/-- The form of a record; the angle is left out when there is none. -/
def GateRecord.toJson (r : GateRecord) : Json :=
  record ([("kind", .ofString r.tag), ("operands", .array (r.operands.map ofWord))] ++
    match r.angle with
    | some angle => [("parameter", angle.toJson)]
    | none => [])

/-- The record of a form. -/
def GateRecord.read? (depth : Nat) (value : Json) : Option GateRecord := do
  match ← fields? ["kind", "operands", "parameter"] depth value with
  | (depth, [some kind, some operands, angle]) =>
    let angle ← match angle with
      | some value => nullable? (Angle.read? number? depth) value
      | none => some none
    some ⟨← kind.string?, ← elements? (fun _ => word32?) depth operands, angle⟩
  | _ => none

end Read

/-- The circuit of a form. -/
def Circuit.ofJson? : (depth : Nat) → Json → Option Circuit := read? float?

/-- The record of a form. -/
def GateRecord.ofJson? : (depth : Nat) → Json → Option GateRecord := read? float?

/-! ## Programs -/

/-- The form of a list of strings. -/
def Json.ofStrings (strings : List String) : Json := .array (strings.map .ofString)

/-- The list of strings of a form. -/
def Json.strings? (depth : Nat) (value : Json) : Option (List String) :=
  elements? (fun _ => string?) depth value

/-- The form of an operand. -/
def Operand.toJson : Operand → Json
  | register name => caseOf "Register" (.ofString name)
  | element name index =>
    caseOf "Indexed" (record [("register", .ofString name), ("index", .ofNat index.toNat)])

/-- The operand of a form. -/
def Operand.ofJson? (depth : Nat) (value : Json) : Option Operand := do
  match ← case? depth value with
  | ("Register", some (_, content)) => content.string?.map register
  | ("Indexed", some (depth, content)) =>
    match ← fields? ["register", "index"] depth content with
    | (_, [some name, some index]) => some (element (← name.string?) (← word64? index))
    | _ => none
  | _ => none

/-- The form of a gate call. -/
def GateCall.toJson (c : GateCall) : Json :=
  record [("name", .ofString c.name), ("params", .array (c.params.map Angle.toJson)),
    ("qubits", .array (c.operands.map Operand.toJson))]

/-- The gate call of a form. -/
def GateCall.ofJson? (depth : Nat) (value : Json) : Option GateCall := do
  match ← fields? ["name", "params", "qubits"] depth value with
  | (depth, [some name, some params, some qubits]) =>
    some ⟨← name.string?, ← elements? Angle.ofJson? depth params,
      ← elements? Operand.ofJson? depth qubits⟩
  | _ => none

/-- The form of a gate definition. -/
def GateDefinition.toJson (d : GateDefinition) : Json :=
  record [("name", .ofString d.name), ("params", ofStrings d.params),
    ("qubits", ofStrings d.qubits), ("body", .array (d.body.map GateCall.toJson))]

/-- The gate definition of a form. -/
def GateDefinition.ofJson? (depth : Nat) (value : Json) : Option GateDefinition := do
  match ← fields? ["name", "params", "qubits", "body"] depth value with
  | (depth, [some name, some params, some qubits, some body]) =>
    some ⟨← name.string?, ← strings? depth params, ← strings? depth qubits,
      ← elements? GateCall.ofJson? depth body⟩
  | _ => none

/-- The form of a statement without its position. -/
def StatementKind.toJson : StatementKind → Json
  | qreg name size =>
    caseOf "QregDecl" (record [("name", .ofString name), ("size", .ofNat size.toNat)])
  | creg name size =>
    caseOf "CregDecl" (record [("name", .ofString name), ("size", .ofNat size.toNat)])
  | gateDefinition d => caseOf "GateDef" d.toJson
  | call c => caseOf "Gate" c.toJson
  | measure qubit clbit =>
    caseOf "Measure" (record [("qubit", qubit.toJson), ("clbit", clbit.toJson)])
  | reset target => caseOf "Reset" target.toJson
  | barrier targets => caseOf "Barrier" (.array (targets.map Operand.toJson))

/-- The name and size of a register declaration. -/
def Json.declaration? (depth : Nat) (value : Json) : Option (String × UInt32) := do
  match ← fields? ["name", "size"] depth value with
  | (_, [some name, some size]) => some (← name.string?, ← word32? size)
  | _ => none

/-- The statement of a form, without its position. -/
def StatementKind.ofJson? (depth : Nat) (value : Json) : Option StatementKind := do
  let (name, content) ← case? depth value
  let (depth, content) ← content
  match name with
  | "QregDecl" => (declaration? depth content).map fun (name, size) => qreg name size
  | "CregDecl" => (declaration? depth content).map fun (name, size) => creg name size
  | "GateDef" => (GateDefinition.ofJson? depth content).map gateDefinition
  | "Gate" => (GateCall.ofJson? depth content).map call
  | "Measure" =>
    match ← fields? ["qubit", "clbit"] depth content with
    | (depth, [some qubit, some clbit]) =>
      some (measure (← Operand.ofJson? depth qubit) (← Operand.ofJson? depth clbit))
    | _ => none
  | "Reset" => (Operand.ofJson? depth content).map reset
  | "Barrier" => (elements? Operand.ofJson? depth content).map barrier
  | _ => none

/-- The form of a position. -/
def Position.toJson (p : Position) : Json :=
  record [("line", .ofNat p.line), ("column", .ofNat p.column)]

/-- The position of a form. -/
def Position.ofJson? (depth : Nat) (value : Json) : Option Position := do
  match ← fields? ["line", "column"] depth value with
  | (_, [some line, some column]) => some ⟨← line.nat? UInt64.size, ← column.nat? UInt64.size⟩
  | _ => none

/-- The form of a statement. -/
def Statement.toJson (s : Statement) : Json :=
  record [("kind", s.kind.toJson), ("position", s.position.toJson)]

/-- The statement of a form. -/
def Statement.ofJson? (depth : Nat) (value : Json) : Option Statement := do
  match ← fields? ["kind", "position"] depth value with
  | (depth, [some kind, some position]) =>
    some ⟨← StatementKind.ofJson? depth kind, ← Position.ofJson? depth position⟩
  | _ => none

/-- The form of a program. -/
def Program.toJson (p : Program) : Json :=
  record [("version", match p.version with | some version => .ofString version | none => .null),
    ("statements", .array (p.statements.map Statement.toJson))]

/-- The program of a form; it need not have a version. -/
def Program.ofJson? (depth : Nat) (value : Json) : Option Program := do
  match ← fields? ["version", "statements"] depth value with
  | (depth, [version, some statements]) =>
    let version ← match version with
      | some value => nullable? string? value
      | none => some none
    some ⟨version, ← elements? Statement.ofJson? depth statements⟩
  | _ => none

/-! ## Text -/

/-- The text of a value, without blanks. -/
def Json.encode {α : Type} (form : α → Json) (value : α) : String := (form value).compact

/-- The value of a text. -/
def Json.decode? {α : Type} (ofForm? : (depth : Nat) → Json → Option α) (text : String) :
    Option α :=
  (parse? text).bind (ofForm? levels)

end FlatQasm
