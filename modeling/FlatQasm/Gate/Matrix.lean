import FlatQasm.Gate.Basic

/-!
# Matrices of the base gates

The matrix of a base gate has entries of a few forms: constants, phases, and the sine and cosine
of half an angle.  The forms are kept apart from their numbers, so that the same matrix can be
read with floats or in another ring.

## Main definitions

* `Entry` — the forms that an entry can have.
* `BaseGate.matrix` — the two rows of two entries of a base gate.
* `Entry.complex?` — the number of an entry in floats.
* `BaseGate.complexMatrix?` — the matrix in floats.
-/

namespace FlatQasm

/-- The forms of a matrix entry. -/
inductive Entry where
  /-- Zero. -/
  | zero
  /-- One, or its negative. -/
  | one (negative : Bool)
  /-- The imaginary unit, or its negative. -/
  | imaginary (negative : Bool)
  /-- One over the root of two, or its negative. -/
  | invRootTwo (negative : Bool)
  /-- The number on the unit circle at an eighth of a turn, or its conjugate. -/
  | eighth (conjugate : Bool)
  /-- The number on the unit circle at half an angle, or its conjugate. -/
  | halfPhase (conjugate : Bool) (angle : Angle)
  /-- The cosine of half an angle. -/
  | halfCos (angle : Angle)
  /-- The sine of half an angle, or its negative. -/
  | halfSin (negative : Bool) (angle : Angle)
  /-- The sine of half an angle times the negative imaginary unit. -/
  | halfSinTurned (angle : Angle)

/-- The matrix of a base gate, row by row. -/
def BaseGate.matrix : BaseGate → List (List Entry)
  | .fixed .x => [[.zero, .one false], [.one false, .zero]]
  | .fixed .y => [[.zero, .imaginary true], [.imaginary false, .zero]]
  | .fixed .z => [[.one false, .zero], [.zero, .one true]]
  | .fixed .h => [[.invRootTwo false, .invRootTwo false], [.invRootTwo false, .invRootTwo true]]
  | .fixed .s => [[.one false, .zero], [.zero, .imaginary false]]
  | .fixed .sdg => [[.one false, .zero], [.zero, .imaginary true]]
  | .fixed .t => [[.one false, .zero], [.zero, .eighth false]]
  | .fixed .tdg => [[.one false, .zero], [.zero, .eighth true]]
  | .rotation .x angle =>
    [[.halfCos angle, .halfSinTurned angle], [.halfSinTurned angle, .halfCos angle]]
  | .rotation .y angle =>
    [[.halfCos angle, .halfSin true angle], [.halfSin false angle, .halfCos angle]]
  | .rotation .z angle =>
    [[.halfPhase true angle, .zero], [.zero, .halfPhase false angle]]

/-- A complex number with float parts. -/
structure Complex where
  re : Float
  im : Float

namespace Complex

/-- The number with both parts negated. -/
def neg (z : Complex) : Complex := ⟨-z.re, -z.im⟩

/-- The number on the unit circle at an angle. -/
def onUnitCircle (angle : Float) : Complex := ⟨angle.cos, angle.sin⟩

/-- The number, or its negative. -/
def negIf (negative : Bool) (z : Complex) : Complex := if negative then z.neg else z

end Complex

/-- The number of an entry; there is none when its angle has none. -/
def Entry.complex? : Entry → Option Complex
  | .zero => some ⟨0.0, 0.0⟩
  | .one negative => some (.negIf negative ⟨1.0, 0.0⟩)
  | .imaginary negative => some (.negIf negative ⟨0.0, 1.0⟩)
  | .invRootTwo negative => some (.negIf negative ⟨0.7071067811865476, 0.0⟩)
  | .eighth conjugate =>
    let eighth := 0.7853981633974483
    some (.onUnitCircle (if conjugate then -eighth else eighth))
  | .halfPhase conjugate angle =>
    angle.value?.map fun v => .onUnitCircle (if conjugate then -(v / 2.0) else v / 2.0)
  | .halfCos angle => angle.value?.map fun v => ⟨(v / 2.0).cos, 0.0⟩
  | .halfSin negative angle =>
    angle.value?.map fun v => .negIf negative ⟨(v / 2.0).sin, 0.0⟩
  | .halfSinTurned angle => angle.value?.map fun v => ⟨0.0, -(v / 2.0).sin⟩

/-- The matrix of a base gate in floats; there is none when its angle has no number. -/
def BaseGate.complexMatrix? (gate : BaseGate) : Option (List (List Complex)) :=
  gate.matrix.mapM fun row => row.mapM Entry.complex?

end FlatQasm
