import FlatQasm.Program.ImportError

/-!
# Registers of a program as ranges of bits

The registers of a program are laid out in the order of their declarations, quantum and classical
ones separately: each takes the indices behind the register before it.  A declaration may stand
behind the first use of its register.

## Main definitions

* `Register` — a range of indices.
* `Registers` — the registers of a program.
* `Registers.ofStatements` — the layout of all declarations.
* `Registers.qubits`, `Registers.clbits` — what an operand stands for.
-/

namespace FlatQasm

/-- A range of indices. -/
structure Register where
  offset : Nat
  size : Nat
deriving DecidableEq

/-- What an operand stands for: one bit, or a whole register. -/
inductive Resolved where
  | bit (index : Nat)
  | whole (register : Register)
deriving DecidableEq

namespace Resolved

/-- The size of a whole register. -/
def size? : Resolved → Option Nat
  | bit _ => none
  | whole r => some r.size

/-- The bit that the `i`-th call of a broadcast uses: a single bit is used by every call. -/
def bitAt (i : Nat) : Resolved → Nat
  | bit index => index
  | whole r => r.offset + i

/-- All bits in order. -/
def bits : Resolved → List Nat
  | bit index => [index]
  | whole r => (List.range r.size).map (r.offset + ·)

end Resolved

/-- The registers of a program, and how many bits they take. -/
structure Registers where
  quantum : List (String × Register)
  classical : List (String × Register)
  qubitCount : Nat
  clbitCount : Nat

namespace Registers

/-- No registers. -/
def empty : Registers := ⟨[], [], 0, 0⟩

/-- Whether a register of either kind has this name. -/
def contains (rs : Registers) (name : String) : Bool :=
  (rs.quantum.lookup name).isSome || (rs.classical.lookup name).isSome

/-- Whether a register can be added behind `used` bits: its name is new, it has a bit, and its
bits have 32-bit indices. -/
def check (rs : Registers) (p : Position) (name : String) (size : UInt32) (used : Nat) :
    Except ImportError Unit :=
  if rs.contains name then .error (.duplicateDeclaration p name)
  else if size.toNat = 0 ∨ UInt32.size ≤ used + size.toNat then
    .error (.invalidRegisterSize p name size.toNat)
  else .ok ()

/-- The registers with the one that a statement declares, if it declares one. -/
def declare (rs : Registers) (s : Statement) : Except ImportError Registers :=
  match s.kind with
  | .qreg name size => do
    rs.check s.position name size rs.qubitCount
    .ok { rs with
      quantum := (name, ⟨rs.qubitCount, size.toNat⟩) :: rs.quantum
      qubitCount := rs.qubitCount + size.toNat }
  | .creg name size => do
    rs.check s.position name size rs.clbitCount
    .ok { rs with
      classical := (name, ⟨rs.clbitCount, size.toNat⟩) :: rs.classical
      clbitCount := rs.clbitCount + size.toNat }
  | _ => .ok rs

/-- The layout of all declarations, in order. -/
def ofStatements (statements : List Statement) : Except ImportError Registers :=
  statements.foldlM declare empty

/-- What an operand stands for among the registers of one kind. -/
def resolve (registers : List (String × Register)) (p : Position) (operand : Operand) :
    Except ImportError Resolved :=
  match registers.lookup operand.name with
  | none => .error (.unresolvedRegister p operand.name)
  | some r =>
    match operand with
    | .register _ => .ok (.whole r)
    | .element name index =>
      if index.toNat < r.size then .ok (.bit (r.offset + index.toNat))
      else .error (.indexOutOfRange p name index.toNat r.size)

/-- What an operand stands for among the qubits. -/
def qubits (rs : Registers) (p : Position) (operand : Operand) : Except ImportError Resolved :=
  resolve rs.quantum p operand

/-- What an operand stands for among the classical bits. -/
def clbits (rs : Registers) (p : Position) (operand : Operand) : Except ImportError Resolved :=
  resolve rs.classical p operand

end Registers

end FlatQasm
