import FlatQasm.Circuit.Record
import FlatQasm.Proofs.Circuit.WellFormed
import FlatQasm.Proofs.Lookup

/-!
# Circuits and their records

A record says what an instruction is and nothing more, and an instruction is all that a record says.
So the lists of records that are accepted for a size are those of the well-formed circuits of that
size.  Of a list that is not accepted, the first record that does not follow what is accepted before
it decides the error.

## Main definitions

* `GateRecord.TagTakes` — the numbers of operands and angles of each tag.
* `GateRecord.WellShaped` — a record with as many operands and angles as its tag takes.

## Main statements

* `GateRecord.toInstruction_eq_ok` — a record is read as the instruction with that record.
* `GateRecord.exists_toInstruction_eq_ok` — the records that can be read are the well-shaped ones.
* `Circuit.ofRecords_concat` — records are taken one after another, as `Circuit.apply` takes them.
* `Circuit.ofRecords_eq_ok` — the records that are accepted are those of a well-formed circuit.
* `Circuit.ofRecords_exact` — the same, with what is reported of other records.
-/

namespace FlatQasm

/-- No gate has one of the other tags for a mnemonic. -/
theorem isPlainTag_of_signature? {tag : String} {s : Signature} (h : signature? tag = some s) :
    isPlainTag tag = false := by
  by_contra hplain
  simp only [isPlainTag, Bool.not_eq_false, Bool.or_eq_true, beq_iff_eq] at hplain
  rcases hplain with (rfl | rfl) | rfl <;> cases h

theorem Qubit.map_mk_map_index (qubits : List Qubit) :
    (qubits.map Qubit.index).map Qubit.mk = qubits := by
  rw [List.map_map]
  exact List.map_id qubits

theorem Qubit.map_index_map_mk (operands : List UInt32) :
    (operands.map Qubit.mk).map Qubit.index = operands := by
  rw [List.map_map]
  exact List.map_id operands

/-! ## Single records -/

namespace GateRecord

/-- The numbers of operands and angles that each tag takes. -/
inductive TagTakes : String → (operands angles : Nat) → Prop
  | measure : TagTakes "measure" 2 0
  | reset : TagTakes "reset" 1 0
  | barrier {operands : Nat} : 1 ≤ operands → TagTakes "barrier" operands 0
  | gate (s : Signature) : TagTakes s.mnemonic s.qubitCount s.paramCount

/-- A record with a tag that is known, and with as many operands and angles as the tag takes. -/
def WellShaped (r : GateRecord) : Prop :=
  TagTakes r.tag r.operands.length r.angle.toList.length

/-- How a record of a gate is read. -/
theorem toInstruction_of_signature? {tag : String} {s : Signature} (h : signature? tag = some s)
    (operands : List UInt32) (angle : Option Angle) :
    (⟨tag, operands, angle⟩ : GateRecord).toInstruction =
      if operands.length ≠ s.qubitCount then
        .error (.operandCount tag s.qubitCount operands.length)
      else
        ((BaseGate.build s.kind angle.toList).mapError .angles).map fun base =>
          .gate ⟨base, s.controls⟩ (operands.map Qubit.mk) := by
  have plain := isPlainTag_of_signature? h
  have tags := plain
  simp only [isPlainTag, Bool.or_eq_false_iff, beq_eq_false_iff_ne] at tags
  simp only [toInstruction, plain, Bool.and_false, if_neg Bool.false_ne_true, if_neg tags.1.1,
    if_neg tags.1.2, if_neg tags.2, h]
  cases BaseGate.build s.kind angle.toList <;> rfl

variable {r : GateRecord} {i : Instruction}

/-- The record of an instruction is read as the instruction. -/
theorem toInstruction_toRecord (h : i.operation.Takes i.qubits.length i.clbits.length) :
    i.toRecord.toInstruction = .ok i := by
  obtain ⟨operation, qubits, clbits⟩ := i
  obtain ⟨hqubits, hclbits⟩ := Instruction.takes_iff.1 h
  cases operation with
  | gate g =>
    obtain rfl : clbits = [] := List.length_eq_zero_iff.1 hclbits
    have hcount : (qubits.map Qubit.index).length = g.signature.qubitCount :=
      (List.length_map _).trans hqubits
    have hbuild : BaseGate.build g.signature.kind g.base.angle?.toList = .ok g.base :=
      BaseGate.build_eq_ok.2 ⟨rfl, rfl⟩
    have hread := toInstruction_of_signature? (signature?_mnemonic g.signature)
      (qubits.map Qubit.index) g.base.angle?
    rw [if_neg (not_not.2 hcount), hbuild, Qubit.map_mk_map_index] at hread
    exact hread
  | measure =>
    obtain ⟨q, rfl⟩ := List.length_eq_one_iff.1 hqubits
    obtain ⟨b, rfl⟩ := List.length_eq_one_iff.1 hclbits
    rfl
  | reset =>
    obtain ⟨q, rfl⟩ := List.length_eq_one_iff.1 hqubits
    obtain rfl : clbits = [] := List.length_eq_zero_iff.1 hclbits
    rfl
  | barrier =>
    obtain rfl : clbits = [] := List.length_eq_zero_iff.1 hclbits
    obtain ⟨q, rest, rfl⟩ := List.exists_cons_of_ne_nil hqubits
    change Except.ok (Instruction.barrier (((q :: rest).map Qubit.index).map Qubit.mk)) = _
    rw [Qubit.map_mk_map_index]
    rfl

/-- A record that is read as an instruction is the record of that instruction. -/
theorem toRecord_of_toInstruction (h : r.toInstruction = .ok i) :
    i.operation.Takes i.qubits.length i.clbits.length ∧ i.toRecord = r := by
  obtain ⟨tag, operands, angle⟩ := r
  cases hs : signature? tag with
  | some s =>
    rw [toInstruction_of_signature? hs] at h
    split at h
    · cases h
    · next hcount =>
      obtain ⟨base, hbase, rfl⟩ := map_eq_ok.1 h
      obtain ⟨kind, controls⟩ := s
      obtain ⟨rfl, hangle⟩ := BaseGate.build_eq_ok.1 (mapError_eq_ok.1 hbase)
      obtain rfl : base.angle? = angle := by
        simpa using congrArg List.head? hangle
      obtain rfl := Signature.mnemonic_of_signature? hs
      refine ⟨⟨(List.length_map _).trans (not_not.1 hcount), rfl⟩, ?_⟩
      simp only [Instruction.toRecord, Instruction.gate, Qubit.map_index_map_mk]
      rfl
  | none =>
    simp only [toInstruction, hs] at h
    split at h
    · cases h
    · next hplain =>
      have noAngle (plain : isPlainTag tag = true) : angle = none := by
        simpa [plain] using hplain
      split at h
      · next htag =>
        subst htag
        obtain rfl := noAngle rfl
        split at h
        · cases h
          exact ⟨⟨rfl, rfl⟩, rfl⟩
        · cases h
      · split at h
        · next htag =>
          subst htag
          obtain rfl := noAngle rfl
          split at h
          · cases h
            exact ⟨⟨rfl, rfl⟩, rfl⟩
          · cases h
        · split at h
          · next htag =>
            subst htag
            obtain rfl := noAngle rfl
            split at h
            · cases h
            · next hne =>
              cases h
              rw [List.isEmpty_iff, ← ne_eq, ← List.length_pos_iff] at hne
              refine ⟨⟨Nat.lt_of_lt_of_eq hne (List.length_map _).symm, rfl⟩, ?_⟩
              simp only [Instruction.toRecord, Instruction.barrier, Qubit.map_index_map_mk]
          · cases h

/-- A record is read as the instruction that has that record. -/
theorem toInstruction_eq_ok : r.toInstruction = .ok i ↔
    i.operation.Takes i.qubits.length i.clbits.length ∧ i.toRecord = r := by
  refine ⟨toRecord_of_toInstruction, ?_⟩
  rintro ⟨hcounted, rfl⟩
  exact toInstruction_toRecord hcounted

/-- The record of an instruction is well shaped. -/
theorem wellShaped_toRecord (h : i.operation.Takes i.qubits.length i.clbits.length) :
    i.toRecord.WellShaped := by
  obtain ⟨operation, qubits, clbits⟩ := i
  have hlength : (qubits.map Qubit.index).length = qubits.length := List.length_map _
  cases operation with
  | gate g =>
    have hangle : g.base.angle?.toList.length = g.signature.paramCount := by
      obtain ⟨base, controls⟩ := g
      cases base <;> rfl
    change TagTakes g.mnemonic (qubits.map Qubit.index).length g.base.angle?.toList.length
    rw [hangle, hlength, h.1]
    exact .gate g.signature
  | measure =>
    change TagTakes "measure" (qubits.map Qubit.index ++ clbits.map Clbit.index).length 0
    rw [List.length_append, List.length_map, List.length_map, h.1, h.2]
    exact .measure
  | reset =>
    change TagTakes "reset" (qubits.map Qubit.index).length 0
    rw [hlength, h.1]
    exact .reset
  | barrier =>
    change TagTakes "barrier" (qubits.map Qubit.index).length 0
    rw [hlength]
    exact .barrier h.1

/-- A well-shaped record is the record of an instruction. -/
theorem WellShaped.exists_toRecord_eq (h : r.WellShaped) :
    ∃ i : Instruction, i.operation.Takes i.qubits.length i.clbits.length ∧ i.toRecord = r := by
  obtain ⟨tag, operands, angle⟩ := r
  simp only [WellShaped] at h
  have noAngle (hzero : angle.toList.length = 0) : angle = none := by
    cases angle <;> simp_all
  generalize hcount : operands.length = count at h
  generalize hangles : angle.toList.length = angles at h
  cases h with
  | measure =>
    obtain ⟨a, b, rfl⟩ := List.length_eq_two.1 hcount
    obtain rfl := noAngle hangles
    exact ⟨.measure ⟨a⟩ ⟨b⟩, ⟨rfl, rfl⟩, rfl⟩
  | reset =>
    obtain ⟨a, rfl⟩ := List.length_eq_one_iff.1 hcount
    obtain rfl := noAngle hangles
    exact ⟨.reset ⟨a⟩, ⟨rfl, rfl⟩, rfl⟩
  | barrier hpos =>
    obtain rfl := noAngle hangles
    refine ⟨.barrier (operands.map Qubit.mk), ⟨?_, rfl⟩, ?_⟩
    · rw [Instruction.barrier, List.length_map, hcount]
      exact hpos
    · simp only [Instruction.toRecord, Instruction.barrier, Qubit.map_index_map_mk]
  | gate s =>
    have hsome : (BaseGate.ofKind? s.kind angle.toList).isSome = true := by
      rw [BaseGate.isSome_ofKind?, beq_iff_eq]
      exact hangles
    obtain ⟨base, hbase⟩ := Option.isSome_iff_exists.1 hsome
    have hbuild : BaseGate.build s.kind angle.toList = .ok base := by
      rw [BaseGate.build, hbase]
    have hread := toInstruction_of_signature? (signature?_mnemonic s) operands angle
    rw [if_neg (not_not.2 hcount), hbuild] at hread
    exact ⟨_, toRecord_of_toInstruction hread⟩

/-- The records that can be read are the well-shaped ones. -/
theorem exists_toInstruction_eq_ok : (∃ i, r.toInstruction = .ok i) ↔ r.WellShaped := by
  constructor
  · rintro ⟨i, hi⟩
    obtain ⟨hcounted, rfl⟩ := toRecord_of_toInstruction hi
    exact wellShaped_toRecord hcounted
  · intro h
    obtain ⟨i, hcounted, rfl⟩ := h.exists_toRecord_eq
    exact ⟨i, toInstruction_toRecord hcounted⟩

end GateRecord

/-! ## Lists of records -/

namespace Circuit

variable {qubits clbits : UInt32} {records : List GateRecord}

/-- A record at an index of a list: it is read, and then its instruction is checked. -/
def instructionAt (qubits clbits : UInt32) (r : GateRecord × Nat) :
    Except RecordError Instruction := do
  let i ← r.1.toInstruction.mapError (.malformed r.2)
  (check qubits clbits i).mapError .circuit
  pure i

theorem ofRecords_eq (qubits clbits : UInt32) (records : List GateRecord) :
    ofRecords qubits clbits records =
      (records.zipIdx.mapM (instructionAt qubits clbits)).map (⟨qubits, clbits, ·⟩) := by
  change (records.zipIdx.mapM (instructionAt qubits clbits) >>= _) = _
  cases records.zipIdx.mapM (instructionAt qubits clbits) <;> rfl

/-- Records are taken one after another: behind those before it, a record is read, and then its
instruction is put at the end if it fits. -/
theorem ofRecords_concat (qubits clbits : UInt32) (records : List GateRecord) (r : GateRecord) :
    ofRecords qubits clbits (records ++ [r]) = (do
      let c ← ofRecords qubits clbits records
      let i ← r.toInstruction.mapError (.malformed records.length)
      (c.apply i).mapError .circuit) := by
  rw [ofRecords_eq, ofRecords_eq, List.zipIdx_append, List.mapM_append, Nat.zero_add]
  cases records.zipIdx.mapM (instructionAt qubits clbits) with
  | error e => rfl
  | ok instructions =>
    have last : [r].zipIdx records.length = [(r, records.length)] := rfl
    simp only [last, List.mapM_cons, List.mapM_nil, instructionAt, ok_bind, ok_map]
    cases r.toInstruction with
    | error fault => rfl
    | ok i =>
      cases hcheck : check qubits clbits i with
      | error e =>
        rw [ok_mapError, ok_bind, ok_bind, hcheck, apply_of_error hcheck]
        rfl
      | ok u =>
        rw [ok_mapError, ok_bind, ok_bind, hcheck, apply_of_ok hcheck]
        rfl

/-- The records that are accepted for a size are those of the well-formed circuits of that size. -/
theorem ofRecords_eq_ok {c : Circuit} : ofRecords qubits clbits records = .ok c ↔
    c.WellFormed ∧ c.qubitCount = qubits ∧ c.clbitCount = clbits ∧ c.toRecords = records := by
  induction records using List.reverseRecOn generalizing c with
  | nil =>
    constructor
    · intro h
      cases h
      exact ⟨wellFormed_ofSize qubits clbits, rfl, rfl, rfl⟩
    · rintro ⟨-, rfl, rfl, hrecords⟩
      obtain ⟨n, m, instructions⟩ := c
      obtain rfl : instructions = [] := List.map_eq_nil_iff.1 hrecords
      rfl
  | append_singleton records r ih =>
    rw [ofRecords_concat]
    simp only [bind_eq_ok, mapError_eq_ok, ih, GateRecord.toInstruction_eq_ok, apply_eq_ok]
    constructor
    · rintro ⟨c₀, ⟨wf, rfl, rfl, rfl⟩, i, ⟨hcounted, rfl⟩, hcheck, rfl⟩
      refine ⟨?_, rfl, rfl, ?_⟩
      · exact wf.apply (apply_eq_ok.2 ⟨hcheck, rfl⟩)
      · simp [toRecords]
    · rintro ⟨wf, rfl, rfl, hrecords⟩
      obtain ⟨n, m, instructions⟩ := c
      obtain ⟨before, last, rfl, hbefore, hlast⟩ := List.map_eq_append_iff.1 hrecords
      obtain ⟨i, rfl, rfl⟩ := List.map_eq_singleton_iff.1 hlast
      have fits := wf.fits (List.mem_append_right before (List.mem_singleton_self i))
      have hcheck := wf i (List.mem_append_right before (List.mem_singleton_self i))
      refine ⟨⟨n, m, before⟩, ⟨?_, rfl, rfl, hbefore⟩, i, ⟨?_, rfl⟩, hcheck, rfl⟩
      · exact fun j hj => wf j (List.mem_append_left _ hj)
      · exact (Instruction.fits_iff.1 fits).1

/-- Of records that are not accepted, the first that does not follow decides the error. -/
theorem exists_first_of_ofRecords_eq_error {e : RecordError}
    (h : ofRecords qubits clbits records = .error e) :
    ∃ before r after c, records = before ++ r :: after ∧
      ofRecords qubits clbits before = .ok c ∧ ofRecords qubits clbits (before ++ [r]) = .error e ∧
      ((∃ fault, r.toInstruction = .error fault ∧ e = .malformed before.length fault) ∨
        ∃ i cause, r.toInstruction = .ok i ∧ c.apply i = .error cause ∧ e = .circuit cause) := by
  induction records using List.reverseRecOn with
  | nil => cases h
  | append_singleton records r ih =>
    have here := h
    rw [ofRecords_concat, bind_eq_error] at h
    rcases h with h | ⟨c, hc, h⟩
    · obtain ⟨before, r', after, c, rfl, hfirst⟩ := ih h
      exact ⟨before, r', after ++ [r], c, by rw [List.append_assoc, List.cons_append], hfirst⟩
    · refine ⟨records, r, [], c, rfl, hc, here, ?_⟩
      rw [bind_eq_error, mapError_eq_error] at h
      rcases h with ⟨fault, hfault, rfl⟩ | ⟨i, hi, h⟩
      · exact .inl ⟨fault, hfault, rfl⟩
      · obtain ⟨cause, hcause, rfl⟩ := mapError_eq_error.1 h
        exact .inr ⟨i, cause, mapError_eq_ok.1 hi, hcause, rfl⟩

/-- **Records are exact.**  The records of a well-formed circuit give it back, and records that are
accepted are those of the circuit that they give.  Of other records the first one decides that is
not accepted behind those before it: it is reported as malformed, with its index, when its tag is
unknown or does not take its numbers of operands and angles, and otherwise because its instruction
does not fit. -/
theorem ofRecords_exact :
    (∀ c : Circuit, c.WellFormed → ofRecords c.qubitCount c.clbitCount c.toRecords = .ok c) ∧
    (∀ (qubits clbits : UInt32) (records : List GateRecord) (c : Circuit),
      ofRecords qubits clbits records = .ok c →
        c.WellFormed ∧ c.qubitCount = qubits ∧ c.clbitCount = clbits ∧ c.toRecords = records) ∧
    ∀ (qubits clbits : UInt32) (records : List GateRecord) (e : RecordError),
      ofRecords qubits clbits records = .error e →
        ∃ k r c, records[k]? = some r ∧ ofRecords qubits clbits (records.take k) = .ok c ∧
          ofRecords qubits clbits (records.take (k + 1)) = .error e ∧
          ((¬ r.WellShaped ∧ ∃ fault, r.toInstruction = .error fault ∧ e = .malformed k fault) ∨
            r.WellShaped ∧ ∃ i cause, r.toInstruction = .ok i ∧ c.apply i = .error cause ∧
              e = .circuit cause) := by
  refine ⟨fun c wf => ofRecords_eq_ok.2 ⟨wf, rfl, rfl, rfl⟩, fun _ _ _ _ => ofRecords_eq_ok.1,
    fun qubits clbits records e h => ?_⟩
  obtain ⟨before, r, after, c, rfl, hbefore, herror, hfirst⟩ :=
    exists_first_of_ofRecords_eq_error h
  refine ⟨before.length, r, c, ?_, ?_, ?_, ?_⟩
  · rw [List.getElem?_append_right (Nat.le_refl _), Nat.sub_self]
    rfl
  · rw [List.take_left' rfl]
    exact hbefore
  · rw [List.take_length_add_append]
    exact herror
  · rw [← GateRecord.exists_toInstruction_eq_ok]
    rcases hfirst with ⟨fault, hfault, rfl⟩ | ⟨i, cause, hi, hcause, rfl⟩
    · refine .inl ⟨?_, fault, hfault, rfl⟩
      rintro ⟨i, hi⟩
      rw [hfault] at hi
      cases hi
    · exact .inr ⟨⟨i, hi⟩, i, cause, hi, hcause, rfl⟩

/-- A controlled rotation by a variable angle, a barrier, and a measurement. -/
def turnedPair : Circuit where
  qubitCount := 3
  clbitCount := 2
  instructions :=
    [.gate ⟨.rotation .z (.neg (.var "t")), .one⟩ [⟨2⟩, ⟨0⟩], .barrier [⟨1⟩, ⟨2⟩],
      .measure ⟨2⟩ ⟨1⟩]

theorem ofRecords_exact_turnedPair :
    turnedPair.WellFormed ∧
      turnedPair.toRecords = [⟨"crz", [2, 0], some (.neg (.var "t"))⟩, ⟨"barrier", [1, 2], none⟩,
        ⟨"measure", [2, 1], none⟩] ∧
      ofRecords 3 2 turnedPair.toRecords = .ok turnedPair := by
  have wf : turnedPair.WellFormed := by
    simp only [WellFormed, turnedPair, List.forall_mem_cons]
    refine ⟨?_, ?_, ?_, ?_⟩
    all_goals decide
  exact ⟨wf, rfl, ofRecords_exact.1 turnedPair wf⟩

end Circuit

end FlatQasm
