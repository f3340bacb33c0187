import FlatQasm.Command.Execute
import FlatQasm.Proofs.Circuit.ExportOutcome
import FlatQasm.Proofs.Json.Format

/-!
# Exchanged circuits and records

The library's data is exchanged in forms that are derived from the declarations of its types: a
structure is an object of its fields, and a case is its name, or an object with its content under
its name.  A type around one number is that number, a pair or a list is an array, and a field may
be left out when there is nothing in it.

An angle then takes two levels for an operation, and one for a sign, a number or a variable.  There
are six levels around each angle of a circuit, itself included, and two around each angle of a list
of records.

## Main definitions

* `Forms` — codecs for the types that are exchanged.
* `Forms.Derived` — each codec is the one that is derived from the declaration.
* `Forms.KeepsFloats` — finite numbers are read back.
* `Angle.levels` — how many arrays and objects are inside one another in the form of an angle.
* `Angle.numbers` — the numbers of an angle.

## Main statements

* `Forms.Derived.readsIf_angle`, `Forms.Derived.readsIf_circuit`, `Forms.Derived.readsIf_records` —
  from how many levels angles, circuits and records are read.
-/

namespace FlatQasm

/-- Codecs for the types that are exchanged.  A report is only written. -/
structure Forms (F : TextFormat) where
  word : Codec F UInt32
  text : Codec F String
  float : Codec F Float
  list : {α : Type} → Codec F α → Codec F (List α)
  angle : Codec F Angle
  operands : Codec F (Angle × Angle)
  baseGate : Codec F BaseGate
  controls : Codec F Controls
  gate : Codec F Gate
  operation : Codec F Operation
  qubit : Codec F Qubit
  clbit : Codec F Clbit
  instruction : Codec F Instruction
  circuit : Codec F Circuit
  record : Codec F GateRecord
  count : ℕ → F.Data
  report : CircuitReport → F.Data

namespace Forms

variable {F : TextFormat}

/-- Each codec is the one that is derived from the declaration of its type. -/
structure Derived (forms : Forms F) : Prop where
  word : ∀ n, forms.word.IsScalar n
  text : ∀ s, forms.text.IsName s s
  list : ∀ {α : Type} (C : Codec F α) values,
    (forms.list C).IsArray values (values.map fun value => ⟨C, value⟩)
  constant : ∀ x, forms.angle.IsObject (.const x) [("Constant", ⟨forms.float, x⟩)]
  symbol : ∀ name, forms.angle.IsObject (.var name) [("Symbol", ⟨forms.text, name⟩)]
  pi : forms.angle.IsName .pi "Pi"
  neg : ∀ e, forms.angle.IsObject (.neg e) [("Neg", ⟨forms.angle, e⟩)]
  binary : ∀ op a b,
    forms.angle.IsObject (.binary op a b) [(op.caseName, ⟨forms.operands, (a, b)⟩)]
  operands : ∀ a b, forms.operands.IsArray (a, b) [⟨forms.angle, a⟩, ⟨forms.angle, b⟩]
  fixed : ∀ gate, forms.baseGate.IsName (.fixed gate) (GateKind.fixed gate).label
  rotation : ∀ axis e, forms.baseGate.IsObject (.rotation axis e)
    [((GateKind.rotation axis).label, ⟨forms.angle, e⟩)]
  controls : ∀ controls, forms.controls.IsName controls controls.caseName
  gate : ∀ g, forms.gate.IsObject g
    [("kind", ⟨forms.baseGate, g.base⟩), ("controls", ⟨forms.controls, g.controls⟩)]
  gateOperation : ∀ g, forms.operation.IsObject (.gate g) [("Gate", ⟨forms.gate, g⟩)]
  measure : forms.operation.IsName .measure "Measure"
  reset : forms.operation.IsName .reset "Reset"
  barrier : forms.operation.IsName .barrier "Barrier"
  qubit : ∀ q, forms.qubit.IsScalar q
  clbit : ∀ c, forms.clbit.IsScalar c
  instruction : ∀ i, forms.instruction.IsObject i
    [("kind", ⟨forms.operation, i.operation⟩), ("qubits", ⟨forms.list forms.qubit, i.qubits⟩),
      ("clbits", ⟨forms.list forms.clbit, i.clbits⟩)]
  circuit : ∀ c, forms.circuit.IsObject c
    [("num_qubits", ⟨forms.word, c.qubitCount⟩), ("num_clbits", ⟨forms.word, c.clbitCount⟩),
      ("instructions", ⟨forms.list forms.instruction, c.instructions⟩)]
  /-- The angle is left out when there is none. -/
  record : ∀ r, forms.record.IsObject r
    ([("kind", ⟨forms.text, r.tag⟩), ("operands", ⟨forms.list forms.word, r.operands⟩)] ++
      r.angle.toList.map fun e => ("parameter", ⟨forms.angle, e⟩))
  report : ∀ r, forms.report r = F.object
    [("num_qubits", forms.count r.qubitCount), ("num_clbits", forms.count r.clbitCount),
      ("variables", (forms.list forms.text).write r.freeVariables),
      ("gates", (forms.list forms.record).write r.gates)]

/-- Every finite number is read back from what is written for it. -/
def KeepsFloats (forms : Forms F) : Prop := ∀ x : Float, x.isFinite = true → forms.float.IsScalar x

end Forms

/-! ## Levels of an angle -/

namespace Angle

/-- How many arrays and objects are inside one another in the form of an angle. -/
def levels : Angle → ℕ
  | const _ | var _ => 1
  | pi => 0
  | neg e => e.levels + 1
  | binary _ a b => max a.levels b.levels + 2

/-- The numbers of an angle as they occur, from left to right. -/
def numbers : Angle → List Float
  | const v => [v]
  | var _ | pi => []
  | neg e => e.numbers
  | binary _ a b => a.numbers ++ b.numbers

/-- The numbers of an angle are neither infinite nor undefined. -/
def Finite (e : Angle) : Prop := ∀ x ∈ e.numbers, x.isFinite = true

instance (e : Angle) : Decidable e.Finite := inferInstanceAs (Decidable (∀ x ∈ e.numbers, _))

/-- A form has less than twice as many levels as its angle. -/
theorem levels_lt (e : Angle) : e.levels < 2 * e.depth := by
  induction e with
  | const v => simp [levels, depth]
  | var name => simp [levels, depth]
  | pi => simp [levels, depth]
  | neg e ih =>
    simp only [levels, depth]
    omega
  | binary op a b iha ihb =>
    simp only [levels, depth]
    omega

end Angle

namespace Circuit

theorem forall_mem_angles {c : Circuit} {p : Angle → Prop} :
    (∀ e ∈ c.angles, p e) ↔ ∀ i ∈ c.instructions, ∀ e ∈ i.angle?, p e := by
  rw [angles_eq_filterMap]
  constructor
  · intro h i hi e he
    exact h e (List.mem_filterMap.2 ⟨i, hi, he⟩)
  · intro h e he
    obtain ⟨i, hi, he⟩ := List.mem_filterMap.1 he
    exact h i hi e he

end Circuit

theorem Instruction.angle_toRecord (i : Instruction) : i.toRecord.angle = i.angle? := by
  obtain ⟨operation, qubits, clbits⟩ := i
  cases operation <;> rfl

/-! ## From how many levels a value is read -/

namespace Forms.Derived

variable {F : TextFormat} {forms : Forms F} (lawful : F.Lawful) (derived : forms.Derived)
include lawful

/-- A case around content that needs some levels needs one more. -/
theorem readsIf_case {α : Type} {C : Codec F α} {a : α} {name : String} {content : Codec.Part F}
    (h : C.IsObject a [(name, content)]) {k : ℕ}
    (hcontent : ∀ n, content.codec.ReadsIf content.value n (k ≤ n)) (n : ℕ) :
    C.ReadsIf a n (k + 1 ≤ n) := by
  cases n with
  | zero => exact (h.readsIf_zero lawful (.cons (hcontent 0) .nil)).congr (by simp)
  | succ n => exact (h.readsIf lawful (.cons (hcontent n) .nil)).congr (by simp)

include derived

/-- A list needs one level more than all of its elements. -/
theorem readsIf_list {α : Type} {C : Codec F α} {values : List α} {n : ℕ} {p : α → Prop}
    (h : ∀ value ∈ values, C.ReadsIf value n (p value)) :
    (forms.list C).ReadsIf values (n + 1) (∀ value ∈ values, p value) := by
  have hparts : Codec.PartsReadIf n (values.map fun value => ⟨C, value⟩) (values.map p) := by
    rw [Codec.PartsReadIf, List.forall₂_map_left_iff, List.forall₂_map_right_iff,
      List.forall₂_same]
    exact h
  refine ((derived.list C values).readsIf lawful hparts).congr ?_
  rw [List.forall_map_iff, List.forall_iff_forall_mem]
  rfl

/-- A list of numbers or names is read from any level but none. -/
theorem readsIf_flatList {α : Type} {C : Codec F α} (h : ∀ value n, C.ReadsIf value n True)
    (values : List α) (n : ℕ) : (forms.list C).ReadsIf values (n + 1) True :=
  (readsIf_list lawful derived fun value _ => h value n).congr (by simp)

section Angles

variable (keeps : forms.KeepsFloats)
include keeps

/-- **From how many levels an angle is read**, if its numbers are finite. -/
theorem readsIf_angle {e : Angle} (finite : e.Finite) (n : ℕ) :
    forms.angle.ReadsIf e n (e.levels ≤ n) := by
  induction e generalizing n with
  | const x =>
    have hx := keeps x (finite x (List.mem_singleton_self x))
    exact readsIf_case lawful (derived.constant x)
      (fun n => hx.readsIf.congr (iff_of_true trivial n.zero_le)) n
  | var name =>
    exact readsIf_case lawful (derived.symbol name)
      (fun n => ((derived.text name).readsIf lawful).congr (iff_of_true trivial n.zero_le)) n
  | pi => exact (derived.pi.readsIf lawful).congr (iff_of_true trivial n.zero_le)
  | neg e ih => exact readsIf_case lawful (derived.neg e) (ih finite) n
  | binary op a b iha ihb =>
    rw [Angle.Finite, Angle.numbers, List.forall_mem_append] at finite
    have hoperands (m : ℕ) :
        forms.operands.ReadsIf (a, b) m (max a.levels b.levels + 1 ≤ m) := by
      have hparts (m : ℕ) : Codec.PartsReadIf m [⟨forms.angle, a⟩, ⟨forms.angle, b⟩]
          [a.levels ≤ m, b.levels ≤ m] :=
        .cons (iha finite.1 m) (.cons (ihb finite.2 m) .nil)
      cases m with
      | zero => exact ((derived.operands a b).readsIf_zero lawful (hparts 0)).congr (by simp)
      | succ m => exact ((derived.operands a b).readsIf lawful (hparts m)).congr (by simp)
    exact readsIf_case lawful (derived.binary op a b) hoperands n

theorem readsIf_baseGate {g : BaseGate} (finite : ∀ e ∈ g.angle?, e.Finite) (n : ℕ) :
    forms.baseGate.ReadsIf g n (∀ e ∈ g.angle?, e.levels + 1 ≤ n) := by
  cases g with
  | fixed gate => exact ((derived.fixed gate).readsIf lawful).congr (by simp [BaseGate.angle?])
  | rotation axis e =>
    have he := readsIf_angle lawful derived keeps (finite e rfl)
    exact (readsIf_case lawful (derived.rotation axis e) he n).congr (by simp [BaseGate.angle?])

theorem readsIf_gate {g : Gate} (finite : ∀ e ∈ g.base.angle?, e.Finite) (n : ℕ) :
    forms.gate.ReadsIf g (n + 1) (∀ e ∈ g.base.angle?, e.levels + 1 ≤ n) := by
  have hbase := readsIf_baseGate lawful derived keeps finite n
  have hcontrols := (derived.controls g.controls).readsIf lawful (n := n)
  exact ((derived.gate g).readsIf lawful (.cons hbase (.cons hcontrols .nil))).congr (by simp)

theorem readsIf_operation {o : Operation}
    (finite : ∀ g ∈ o.gate?, ∀ e ∈ g.base.angle?, e.Finite) (n : ℕ) :
    forms.operation.ReadsIf o (n + 2)
      (∀ g ∈ o.gate?, ∀ e ∈ g.base.angle?, e.levels + 1 ≤ n) := by
  cases o with
  | gate g =>
    have hgate := readsIf_gate lawful derived keeps (finite g rfl) n
    exact ((derived.gateOperation g).readsIf lawful (.cons hgate .nil)).congr
      (by simp [Operation.gate?])
  | measure => exact (derived.measure.readsIf lawful).congr (by simp [Operation.gate?])
  | reset => exact (derived.reset.readsIf lawful).congr (by simp [Operation.gate?])
  | barrier => exact (derived.barrier.readsIf lawful).congr (by simp [Operation.gate?])

theorem readsIf_instruction {i : Instruction} (finite : ∀ e ∈ i.angle?, e.Finite) (n : ℕ) :
    forms.instruction.ReadsIf i (n + 3) (∀ e ∈ i.angle?, e.levels + 1 ≤ n) := by
  have forall_angle {p : Angle → Prop} :
      (∀ g ∈ i.operation.gate?, ∀ e ∈ g.base.angle?, p e) ↔ ∀ e ∈ i.angle?, p e := by
    simp only [Instruction.angle?, Instruction.gate?, Option.mem_bind_iff]
    constructor
    · rintro h e ⟨g, hg, he⟩
      exact h g hg e he
    · exact fun h g hg e he => h e ⟨g, hg, he⟩
  have hoperation := readsIf_operation lawful derived keeps (forall_angle.2 finite) n
  have hqubits := readsIf_flatList lawful derived (fun q _ => (derived.qubit q).readsIf)
    i.qubits (n + 1)
  have hclbits := readsIf_flatList lawful derived (fun c _ => (derived.clbit c).readsIf)
    i.clbits (n + 1)
  rw [forall_angle] at hoperation
  exact ((derived.instruction i).readsIf lawful
    (.cons hoperation (.cons hqubits (.cons hclbits .nil)))).congr (by simp)

/-- **From how many levels a circuit is read**: six more than each of its angles needs. -/
theorem readsIf_circuit {c : Circuit} (finite : ∀ e ∈ c.angles, e.Finite) (n : ℕ) :
    forms.circuit.ReadsIf c (n + 5) (∀ e ∈ c.angles, e.levels + 1 ≤ n) := by
  rw [Circuit.forall_mem_angles] at finite
  have hinstructions := readsIf_list lawful derived fun i hi =>
    readsIf_instruction lawful derived keeps (finite i hi) n
  have hqubits := (derived.word c.qubitCount).readsIf (n := n + 4)
  have hclbits := (derived.word c.clbitCount).readsIf (n := n + 4)
  exact ((derived.circuit c).readsIf lawful
    (.cons hqubits (.cons hclbits (.cons hinstructions .nil)))).congr
      (by simp [Circuit.forall_mem_angles])

theorem readsIf_record {r : GateRecord} (finite : ∀ e ∈ r.angle, e.Finite) (n : ℕ) :
    forms.record.ReadsIf r (n + 2) (∀ e ∈ r.angle, e.levels ≤ n + 1) := by
  have htag := (derived.text r.tag).readsIf lawful (n := n + 1)
  have hoperands := readsIf_flatList lawful derived (fun w _ => (derived.word w).readsIf)
    r.operands n
  have hrecord := derived.record r
  cases hangle : r.angle with
  | none =>
    rw [hangle] at hrecord
    exact (hrecord.readsIf lawful (.cons htag (.cons hoperands .nil))).congr (by simp)
  | some e =>
    rw [hangle] at hrecord
    have he := readsIf_angle lawful derived keeps (finite e hangle) (n + 1)
    exact (hrecord.readsIf lawful (.cons htag (.cons hoperands (.cons he .nil)))).congr (by simp)

/-- **From how many levels the records of a circuit are read**: two more than each of its angles
needs. -/
theorem readsIf_records {c : Circuit} (finite : ∀ e ∈ c.angles, e.Finite) (n : ℕ) :
    (forms.list forms.record).ReadsIf c.toRecords (n + 3) (∀ e ∈ c.angles, e.levels ≤ n + 1) := by
  rw [Circuit.forall_mem_angles] at finite
  have hrecord : ∀ r ∈ c.toRecords,
      forms.record.ReadsIf r (n + 2) (∀ e ∈ r.angle, e.levels ≤ n + 1) := by
    refine List.forall_mem_map.2 fun i hi => readsIf_record lawful derived keeps ?_ n
    rw [Instruction.angle_toRecord]
    exact finite i hi
  refine (readsIf_list lawful derived hrecord).congr ?_
  rw [Circuit.forall_mem_angles, Circuit.toRecords, List.forall_mem_map]
  simp only [Instruction.angle_toRecord]

end Angles

end Forms.Derived

end FlatQasm
