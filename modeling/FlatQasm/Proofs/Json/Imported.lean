import FlatQasm.Proofs.Circuit.Records
import FlatQasm.Proofs.Json.Forms
import FlatQasm.Proofs.Program.Imported

/-!
# Imported circuits are read back from their text

The importer bounds the depth of an angle, and the reader of a text format bounds how many arrays
and objects are inside one another.  The two bounds are independent: an angle of depth `n` may need
almost `2 * n` levels, so an imported circuit can be too deep to be read back.  Whether it is
depends on nothing but its angles and the limit of the reader.

This holds for any lawful format, with codecs that are derived from the declarations of the types,
and that read finite numbers back.

## Main statements

* `Circuit.readBack_of_ofSource` — when an imported circuit and its records are read back.
* `Circuit.readBack_of_ofSource_deep` — an imported circuit that is not.
-/

namespace FlatQasm

namespace Circuit

section Exchange

variable {F : TextFormat} (lawful : F.Lawful) {forms : Forms F} (derived : forms.Derived)
include lawful derived

/-- The records stand at the end of a report. -/
theorem exists_print_report (c : Circuit) : ∃ front : String,
    F.print (.pretty 0) (forms.report c.report) =
      front ++ "\"gates\": " ++ (forms.list forms.record).text (.pretty 1) c.toRecords ++
        "\n\x7d" := by
  obtain ⟨front, hfront⟩ := lawful.print_object
    [("num_qubits", forms.count c.report.qubitCount),
      ("num_clbits", forms.count c.report.clbitCount),
      ("variables", (forms.list forms.text).write c.report.freeVariables)]
    "gates" ((forms.list forms.record).write c.toRecords) (by decide)
  refine ⟨front, ?_⟩
  rw [derived.report]
  exact hfront.trans (by simp [Codec.text, String.append_assoc])

variable (keeps : forms.KeepsFloats) {c : Circuit} (finite : ∀ e ∈ c.angles, e.Finite)
include keeps finite

/-- A text of a circuit is read as the circuit, unless an angle is too deep. -/
theorem ofText?_circuit (hlimit : 5 ≤ F.limit) (layout : TextLayout) :
    forms.circuit.ofText? (forms.circuit.text layout c) =
      if ∀ e ∈ c.angles, e.levels + 6 ≤ F.limit then some c else none := by
  obtain ⟨n, hn⟩ := Nat.exists_eq_add_of_le' hlimit
  have hreads := Forms.Derived.readsIf_circuit lawful derived keeps finite n
  rw [← hn] at hreads
  refine (hreads.congr ?_).ofText?_text lawful layout
  refine forall₂_congr fun e _ => ?_
  omega

/-- A text of the records of a circuit is read as the records, unless an angle is too deep. -/
theorem ofText?_records (hlimit : 5 ≤ F.limit) (layout : TextLayout) :
    (forms.list forms.record).ofText? ((forms.list forms.record).text layout c.toRecords) =
      if ∀ e ∈ c.angles, e.levels + 2 ≤ F.limit then some c.toRecords else none := by
  obtain ⟨n, hn⟩ := Nat.exists_eq_add_of_le' (Nat.le_of_add_right_le (k := 2) hlimit)
  have hreads := Forms.Derived.readsIf_records lawful derived keeps finite n
  rw [← hn] at hreads
  refine (hreads.congr ?_).ofText?_text lawful layout
  refine forall₂_congr fun e _ => ?_
  omega

end Exchange

/-- **When an imported circuit is read back from its text**: exactly when no angle is deeper than
the levels that are left for it, six less than the reader's limit inside a circuit and two less
inside a list of records.  This does not depend on the layout, and the records at the end of a
report have the text of their list; what is not read back is refused.  The records make the circuit
again.

An angle needs less than twice its depth, so with a limit of 127 nothing up to a depth of 61 (63 in
records) is refused; but the importer accepts angles of depth 256. -/
theorem readBack_of_ofSource {F : TextFormat} (lawful : F.Lawful) {forms : Forms F}
    (derived : forms.Derived) (keeps : forms.KeepsFloats) (hlimit : 5 ≤ F.limit)
    {source : String} {rule : HeaderRule} {c : Circuit} (h : ofSource source rule = .ok c)
    (finite : ∀ e ∈ c.angles, e.Finite) :
    (∀ layout, forms.circuit.ofText? (forms.circuit.text layout c) =
      if ∀ e ∈ c.angles, e.levels + 6 ≤ F.limit then some c else none) ∧
    (∀ layout,
      (forms.list forms.record).ofText? ((forms.list forms.record).text layout c.toRecords) =
        if ∀ e ∈ c.angles, e.levels + 2 ≤ F.limit then some c.toRecords else none) ∧
    (∃ front : String, F.print (.pretty 0) (forms.report c.report) =
      front ++ "\"gates\": " ++ (forms.list forms.record).text (.pretty 1) c.toRecords ++
        "\n\x7d") ∧
    ofRecords c.qubitCount c.clbitCount c.toRecords = .ok c ∧
    ∀ e ∈ c.angles, e.levels < 2 * e.depth ∧ e.depth ≤ nestingLimit := by
  obtain ⟨p, hparse, hcircuit⟩ := exists_parse_of_ofSource h
  have wf : c.WellFormed := fun i hi =>
    check_eq_ok.2 (Program.emits_of_toCircuit hcircuit i hi).fits
  refine ⟨ofText?_circuit lawful derived keeps finite hlimit,
    ofText?_records lawful derived keeps finite hlimit, exists_print_report lawful derived c,
    ofRecords_eq_ok.2 ⟨wf, rfl, rfl, rfl⟩, fun e he => ⟨e.levels_lt, ?_⟩⟩
  obtain ⟨gate, hinvoked⟩ := invokes_of_mem_angles hcircuit he
  exact (hinvoked.folded (checked_of_parse hparse) e (List.mem_singleton_self e)).2

/-- A text with a variable, a number that is folded, and every operation of a circuit. -/
def exchangedText : String :=
  "OPENQASM 2.0;\nqreg q[2]; creg c[1];\nrx(-a/0.5) q[0]; crz(pi/4) q[0],q[1];\n" ++
  "barrier q; reset q[1]; measure q[0]->c[0];"

/-- The circuit of that text. -/
def exchanged : Circuit where
  qubitCount := 2
  clbitCount := 1
  instructions :=
    [.gate ⟨.rotation .x (.binary .div (.neg (.var "a")) (.const 0.5)), .zero⟩ [⟨0⟩],
      .gate ⟨.rotation .z (.const 0.7853981633974483), .one⟩ [⟨0⟩, ⟨1⟩],
      .barrier [⟨0⟩, ⟨1⟩], .reset ⟨1⟩, .measure ⟨0⟩ ⟨0⟩]

theorem readBack_of_ofSource_exchanged :
    Json.format.Lawful ∧ (Json.forms Json.nearestFloat?).Derived ∧
    (Json.forms Json.nearestFloat?).KeepsFloats ∧ 5 ≤ Json.format.limit ∧
    ofSource exchangedText .required = .ok exchanged ∧ (∀ e ∈ exchanged.angles, e.Finite) ∧
    (∀ layout, (Json.forms Json.nearestFloat?).circuit.ofText?
      ((Json.forms Json.nearestFloat?).circuit.text layout exchanged) = some exchanged) ∧
    (∀ layout, ((Json.forms Json.nearestFloat?).list (Json.forms Json.nearestFloat?).record).ofText?
      (((Json.forms Json.nearestFloat?).list (Json.forms Json.nearestFloat?).record).text layout
        exchanged.toRecords) = some exchanged.toRecords) ∧
    ofRecords exchanged.qubitCount exchanged.clbitCount exchanged.toRecords = .ok exchanged := by
  have h : ofSource exchangedText .required = .ok exchanged :=
    toOption_eq_some.1 (by decide +kernel)
  have finite : ∀ e ∈ exchanged.angles, e.Finite := by decide +kernel
  have hlimit : 5 ≤ Json.format.limit := by decide
  obtain ⟨hcircuit, hrecords, -, hofRecords, -⟩ := readBack_of_ofSource Json.lawful_format
    (Json.derived_forms _) Json.keepsFloats_nearest hlimit h finite
  refine ⟨Json.lawful_format, Json.derived_forms _, Json.keepsFloats_nearest, hlimit, h, finite,
    fun layout => ?_, fun layout => ?_, hofRecords⟩
  · rw [hcircuit layout, if_pos (by decide)]
  · rw [hrecords layout, if_pos (by decide)]

/-- A sum of a variable with itself, with a number of plus signs. -/
def sumText : (signs : ℕ) → String
  | 0 => "v"
  | signs + 1 => sumText signs ++ "+v"

/-- The angle of such a sum. -/
def sum : (signs : ℕ) → Angle
  | 0 => .var "v"
  | signs + 1 => .binary .add (sum signs) (.var "v")

/-- A rotation by a sum with 63 plus signs. -/
def deepText : String := "OPENQASM 2.0;\nqreg q[1];\nrx(" ++ sumText 63 ++ ") q[0];"

/-- The circuit of that text. -/
def deep : Circuit where
  qubitCount := 1
  clbitCount := 0
  instructions := [.gate ⟨.rotation .x (sum 63), .zero⟩ [⟨0⟩]]

/-- **A circuit that is imported, and neither read back itself nor from its records**, with a limit
of 127: its angle has a quarter of the depth that the importer allows. -/
theorem readBack_of_ofSource_deep :
    ofSource deepText .required = .ok deep ∧
    (∀ e ∈ deep.angles, e.depth = 64 ∧ e.numbers = []) ∧
    (∀ (F : TextFormat) (forms : Forms F), F.Lawful → forms.Derived → forms.KeepsFloats →
      F.limit = 127 → ∀ layout,
      forms.circuit.ofText? (forms.circuit.text layout deep) = none ∧
      (forms.list forms.record).ofText?
        ((forms.list forms.record).text layout deep.toRecords) = none) ∧
    Json.format.Lawful ∧ (Json.forms Json.nearestFloat?).Derived ∧
    (Json.forms Json.nearestFloat?).KeepsFloats ∧ Json.format.limit = 127 := by
  have h : ofSource deepText .required = .ok deep := toOption_eq_some.1 (by decide +kernel)
  have hangles : ∀ e ∈ deep.angles, e.depth = 64 ∧ e.numbers = [] := by decide +kernel
  have finite : ∀ e ∈ deep.angles, e.Finite := by
    intro e he x hx
    rw [(hangles e he).2] at hx
    cases hx
  refine ⟨h, hangles, ?_, Json.lawful_format, Json.derived_forms _, Json.keepsFloats_nearest, rfl⟩
  intro F forms lawful derived keeps hlimit layout
  have hfive : 5 ≤ F.limit := by omega
  rw [ofText?_circuit lawful derived keeps finite hfive,
    ofText?_records lawful derived keeps finite hfive, hlimit]
  exact ⟨if_neg (by decide +kernel), if_neg (by decide +kernel)⟩

end Circuit

end FlatQasm
