import FlatQasm.Angle.Basic

/-!
# Gates

A gate acts on one target qubit and may be controlled by up to two others.  The base gates are
eight fixed ones and the rotations around the three axes; each is written in lower case in source
text, with one `c` in front for each control.

## Main definitions

* `GateKind` — a base gate without its angle.
* `BaseGate` — a base gate.
* `Gate` — a base gate with its controls.
* `Signature` — what a mnemonic stands for; `signature?` looks one up.
-/

namespace FlatQasm

/-- The base gates without an angle. -/
inductive FixedGate where
  | x
  | y
  | z
  | h
  | s
  | sdg
  | t
  | tdg
deriving DecidableEq

/-- The axes of rotation. -/
inductive Axis where
  | x
  | y
  | z
deriving DecidableEq

/-- A base gate without its angle. -/
inductive GateKind where
  | fixed (gate : FixedGate)
  | rotation (axis : Axis)
deriving DecidableEq

namespace GateKind

/-- Every kind of base gate. -/
def all : List GateKind :=
  [.fixed .x, .fixed .y, .fixed .z, .fixed .h, .fixed .s, .fixed .sdg, .fixed .t, .fixed .tdg,
    .rotation .x, .rotation .y, .rotation .z]

@[simp] theorem mem_all (kind : GateKind) : kind ∈ all := by
  rcases kind with gate | axis
  · cases gate <;> decide
  · cases axis <;> decide

/-- The name of a base gate in messages. -/
def label : GateKind → String
  | .fixed .x => "X"
  | .fixed .y => "Y"
  | .fixed .z => "Z"
  | .fixed .h => "H"
  | .fixed .s => "S"
  | .fixed .sdg => "Sdg"
  | .fixed .t => "T"
  | .fixed .tdg => "Tdg"
  | .rotation .x => "Rx"
  | .rotation .y => "Ry"
  | .rotation .z => "Rz"

/-- The name of a base gate in source text. -/
def mnemonic : GateKind → String
  | .fixed .x => "x"
  | .fixed .y => "y"
  | .fixed .z => "z"
  | .fixed .h => "h"
  | .fixed .s => "s"
  | .fixed .sdg => "sdg"
  | .fixed .t => "t"
  | .fixed .tdg => "tdg"
  | .rotation .x => "rx"
  | .rotation .y => "ry"
  | .rotation .z => "rz"

/-- The number of angles that a base gate takes. -/
def paramCount : GateKind → Nat
  | .fixed _ => 0
  | .rotation _ => 1

/-- Whether a base gate acts in the Y basis. -/
def isYBasis : GateKind → Bool
  | .fixed .y | .rotation .y => true
  | _ => false

end GateKind

/-- A base gate: one of the fixed ones, or a rotation by an angle. -/
inductive BaseGate where
  | fixed (gate : FixedGate)
  | rotation (axis : Axis) (angle : Angle)
deriving BEq

namespace BaseGate

/-- The gate without its angle. -/
def kind : BaseGate → GateKind
  | fixed gate => .fixed gate
  | rotation axis _ => .rotation axis

/-- The angle of a rotation. -/
def angle? : BaseGate → Option Angle
  | fixed _ => none
  | rotation _ angle => some angle

/-- Whether the angle has a free variable. -/
def isSymbolic (gate : BaseGate) : Bool := gate.angle?.any Angle.isSymbolic

/-- The gate of a kind with the given angles, if there are as many as it takes. -/
def ofKind? : GateKind → List Angle → Option BaseGate
  | .fixed gate, [] => some (fixed gate)
  | .rotation axis, [angle] => some (rotation axis angle)
  | _, _ => none

theorem isSome_ofKind? (kind : GateKind) (angles : List Angle) :
    (ofKind? kind angles).isSome = (angles.length == kind.paramCount) := by
  rcases kind with gate | axis <;> rcases angles with _ | ⟨a, _ | ⟨b, rest⟩⟩ <;>
    simp [ofKind?, GateKind.paramCount]

end BaseGate

/-- How many control qubits stand before the target. -/
inductive Controls where
  | zero
  | one
  | two
deriving DecidableEq

namespace Controls

/-- Every number of controls. -/
def all : List Controls := [.zero, .one, .two]

/-- The number of control qubits. -/
def count : Controls → Nat
  | zero => 0
  | one => 1
  | two => 2

/-- The controls of a given number, up to two. -/
def ofCount? : Nat → Option Controls
  | 0 => some zero
  | 1 => some one
  | 2 => some two
  | _ => none

/-- The name of a number of controls in exchanged data. -/
def caseName : Controls → String
  | zero => "Zero"
  | one => "One"
  | two => "Two"

end Controls

/-- A base gate with its controls.  Operands are the controls and then the target. -/
structure Gate where
  base : BaseGate
  controls : Controls
deriving BEq

namespace Gate

/-- The number of qubit operands. -/
def qubitCount (gate : Gate) : Nat := gate.controls.count + 1

/-- The name of a gate in messages: a `C` for each control and the label of the base gate. -/
def name (gate : Gate) : String :=
  String.ofList (List.replicate gate.controls.count 'C') ++ gate.base.kind.label

end Gate

/-- What a mnemonic stands for: a base gate without its angle, and its controls. -/
structure Signature where
  kind : GateKind
  controls : Controls
deriving DecidableEq

namespace Signature

/-- Every signature that has a mnemonic. -/
def all : List Signature :=
  Controls.all.flatMap fun controls => GateKind.all.map fun kind => ⟨kind, controls⟩

/-- The number of qubit operands. -/
def qubitCount (signature : Signature) : Nat := signature.controls.count + 1

/-- The number of angles. -/
def paramCount (signature : Signature) : Nat := signature.kind.paramCount

/-- The name in source text: a `c` for each control and the name of the base gate. -/
def mnemonic (signature : Signature) : String :=
  String.ofList (List.replicate signature.controls.count 'c') ++ signature.kind.mnemonic

end Signature

/-- The signature of each mnemonic. -/
def mnemonics : List (String × Signature) :=
  Signature.all.map fun signature => (signature.mnemonic, signature)

/-- What a name stands for, if it is a mnemonic.  Letter case matters. -/
def signature? (name : String) : Option Signature := mnemonics.lookup name

/-- Every signature is what its mnemonic stands for. -/
theorem signature?_mnemonic (signature : Signature) :
    signature? signature.mnemonic = some signature := by
  rcases signature with ⟨gate | axis, controls⟩ <;>
    first | (cases gate <;> cases controls <;> rfl) | (cases axis <;> cases controls <;> rfl)

/-- Whether a name is a mnemonic. -/
def isBuiltIn (name : String) : Bool := (signature? name).isSome

namespace Gate

/-- The gate without its angle. -/
def signature (gate : Gate) : Signature := ⟨gate.base.kind, gate.controls⟩

/-- The name of a gate in source text. -/
def mnemonic (gate : Gate) : String := gate.signature.mnemonic

end Gate

end FlatQasm
