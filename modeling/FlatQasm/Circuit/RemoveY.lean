import FlatQasm.Circuit.Basic

/-!
# Circuits without Y-basis gates

Some targets cannot represent gates in the Y basis.  Such a gate is the gate of the same kind in
the X basis, between two quarter turns around Z:

* `Y` becomes `Rz(-π/2)`, `X`, `Rz(π/2)`;
* `Ry(θ)` becomes `Rz(-π/2)`, `Rx(θ)`, `Rz(π/2)`.

Each of the three has the controls and operands of the gate that it replaces.

## Main definitions

* `Pass` — a named change of circuits that knows when it is needed.
* `removeY` — the pass that removes Y-basis gates.
* `Circuit.withoutY` — a circuit without them.
-/

namespace FlatQasm

/-- A named change of circuits. -/
structure Pass where
  /-- The name of the pass. -/
  name : String
  /-- Whether the pass would change a circuit. -/
  needed : Circuit → Bool
  /-- The changed circuit. -/
  run : Circuit → Circuit

/-- A quarter of a turn, which is half the circle number. -/
def quarterTurn : Float := 1.5707963267948966

/-- The gate of the same kind in the X basis, for a gate in the Y basis. -/
def BaseGate.yToX? : BaseGate → Option BaseGate
  | .fixed .y => some (.fixed .x)
  | .rotation .y angle => some (.rotation .x angle)
  | _ => none

/-- What an instruction becomes: three gates for a Y-basis gate, and else itself. -/
def Instruction.removeY (i : Instruction) : List Instruction :=
  match i.operation with
  | .gate g =>
    match g.base.yToX? with
    | some middle =>
      [.rotation .z (.const (-quarterTurn)), middle, .rotation .z (.const quarterTurn)].map
        fun base => .gate ⟨base, g.controls⟩ i.qubits
    | none => [i]
  | _ => [i]

/-- The pass that removes Y-basis gates. -/
def removeY : Pass where
  name := "RemoveY"
  needed c := c.gates.any fun g => g.base.kind.isYBasis
  run c := c.replaceEach Instruction.removeY

/-- The circuit without Y-basis gates; one that has none is left alone. -/
def Circuit.withoutY (c : Circuit) : Circuit := if removeY.needed c then removeY.run c else c

end FlatQasm
