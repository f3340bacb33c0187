import FlatQasm.Proofs.Program.WrittenOut

/-!
# Statements on whole registers

A statement on whole registers is short for statements on their elements.  Writing them out in its
place changes nothing: the circuit is the same, and where there is none, so is the error.  A barrier
stays one statement, and a register among its targets is short for the list of its elements.

The first pass does not look at such statements.  The second pass goes through the indices in the
order in which the statements are written out, and resolves the operands of each again; an operand
that stands for nothing is found by the first of them.

## Main definitions

* `Program.WritesOut` — a statement on whole registers, and the statements that it stands for.

## Main statements

* `Program.WritesOut.statements_append` — the second pass cannot tell the two apart.
* `Program.toCircuit_of_writesOut` — a program and one with a statement written out.
-/

namespace FlatQasm

/-- A statement on whole registers, and the statements on their elements that it stands for. -/
inductive Program.WritesOut (p : Program) : Statement → List Statement → Prop
  | call {call : GateCall} {size : Nat} {position : Position} :
      (∃ name, .register name ∈ call.operands) →
      (∀ name, .register name ∈ call.operands → (name, size) ∈ quantumSizes p.statements) →
      p.WritesOut ⟨.call call, position⟩
        ((List.range size).map fun i => ⟨.call (call.elementsAt i), position⟩)
  | measure {qubit clbit : String} {size : Nat} {position : Position} :
      (qubit, size) ∈ quantumSizes p.statements → (clbit, size) ∈ classicalSizes p.statements →
      p.WritesOut ⟨.measure (.register qubit) (.register clbit), position⟩
        ((List.range size).map fun i =>
          ⟨.measure (.element qubit (.ofNat i)) (.element clbit (.ofNat i)), position⟩)
  | reset {name : String} {size : Nat} {position : Position} :
      (name, size) ∈ quantumSizes p.statements →
      p.WritesOut ⟨.reset (.register name), position⟩
        ((List.range size).map fun i => ⟨.reset (.element name (.ofNat i)), position⟩)
  | barrier {front back : List Operand} {name : String} {size : Nat} {position : Position} :
      (name, size) ∈ quantumSizes p.statements →
      p.WritesOut ⟨.barrier (front ++ .register name :: back), position⟩
        [⟨.barrier (front ++ (List.range size).map (.element name <| .ofNat ·) ++ back), position⟩]

/-! ## The first pass -/

/-- A statement that declares no register. -/
def Statement.DeclaresNothing (s : Statement) : Prop := ∀ rs : Registers, rs.declare s = .ok rs

theorem foldlM_declare_of_declaresNothing {list : List Statement}
    (h : ∀ s ∈ list, s.DeclaresNothing) (rs : Registers) :
    list.foldlM Registers.declare rs = .ok rs := by
  induction list with
  | nil => rfl
  | cons s list ih =>
    rw [List.forall_mem_cons] at h
    rw [List.foldlM_cons, h.1 rs]
    exact ih h.2

theorem Program.WritesOut.declaresNothing {p : Program} {s : Statement} {list : List Statement}
    (h : p.WritesOut s list) : s.DeclaresNothing ∧ ∀ s' ∈ list, s'.DeclaresNothing := by
  cases h with
  | barrier => exact ⟨fun _ => rfl, List.forall_mem_singleton.2 fun _ => rfl⟩
  | _ => exact ⟨fun _ => rfl, List.forall_mem_map.2 fun _ _ _ => rfl⟩

/-! ## Registers -/

section Registers

variable {registers : List (String × Register)} {sizes : List (String × Nat)} {p : Position}

/-- A declared register is laid out with its size. -/
theorem exists_lookup_eq_some
    (hsizes : registers.map (fun r => (r.1, r.2.size)) = sizes.reverse)
    (nodup : (sizes.map Prod.fst).Nodup) {name : String} {size : Nat} (h : (name, size) ∈ sizes) :
    ∃ r, registers.lookup name = some r ∧ r.size = size := by
  have hlookup : (registers.lookup name).map Register.size = some size := by
    rw [← lookup_map_snd, hsizes, lookup_reverse nodup]
    exact lookup_eq_some_of_mem nodup h
  exact Option.map_eq_some_iff.1 hlookup

theorem Registers.Lays.exists_quantum {rs : Registers} {statements : List Statement}
    (lays : rs.Lays statements) {name : String} {size : Nat}
    (h : (name, size) ∈ quantumSizes statements) :
    ∃ r, rs.quantum.lookup name = some r ∧ r.size = size := by
  have names := lays.names
  rw [List.map_append] at names
  exact exists_lookup_eq_some lays.quantum names.of_append_left h

theorem Registers.Lays.exists_classical {rs : Registers} {statements : List Statement}
    (lays : rs.Lays statements) {name : String} {size : Nat}
    (h : (name, size) ∈ classicalSizes statements) :
    ∃ r, rs.classical.lookup name = some r ∧ r.size = size := by
  have names := lays.names
  rw [List.map_append] at names
  exact exists_lookup_eq_some lays.classical names.of_append_right h

variable {name : String} {r : Register}

/-- A register that is laid out has a bit, and its indices are words. -/
theorem Registers.size_bounds {used : Nat} (h : Contiguous registers used)
    (hused : used < UInt32.size) (hr : registers.lookup name = some r) :
    0 < r.size ∧ r.size < UInt64.size := by
  obtain ⟨hpos, hle⟩ := le_of_lookup_eq_some h hr
  have hword : UInt32.size < UInt64.size := by decide
  exact ⟨hpos, by omega⟩

theorem Registers.resolve_register (h : registers.lookup name = some r) :
    resolve registers p (.register name) = .ok (.whole r) :=
  resolve_eq_ok.2 (.inl ⟨name, r, rfl, h, rfl⟩)

/-- An element of a register is the bit that the broadcast takes. -/
theorem Registers.resolve_element (h : registers.lookup name = some r)
    (hsize : r.size < UInt64.size) {i : Nat} (hi : i < r.size) :
    resolve registers p (.element name (.ofNat i)) = .ok (.bit (r.offset + i)) := by
  have hindex : (UInt64.ofNat i).toNat = i := UInt64.toNat_ofNat_of_lt' (Nat.lt_trans hi hsize)
  refine resolve_eq_ok.2 (.inr ⟨name, .ofNat i, r, rfl, h, ?_, ?_⟩)
  · rwa [hindex]
  · rw [hindex]

end Registers

/-! ## The second pass -/

theorem forEachIndex_congr {ε α : Type} {f g : Nat → Except ε (List α)} {count first : Nat}
    (h : ∀ i, i < first + count → f i = g i) :
    forEachIndex f count first = forEachIndex g count first := by
  induction count generalizing first with
  | zero => rfl
  | succ count ih =>
    rw [forEachIndex_succ, forEachIndex_succ, h first (by omega),
      ih fun i hi => h i (by omega)]

namespace Lowering

variable {l : Lowering} {rest : List Statement}

/-- A statement that leaves the gates as they are, in front of others. -/
theorem statements_cons_of_map {s : Statement} {here : Except ImportError (List Instruction)}
    (h : l.statement s = here.map (l, ·)) :
    l.statements (s :: rest) = here >>= fun here => (l.statements rest).map (here ++ ·) := by
  rw [statements_cons, h]
  cases here <;> rfl

/-- Statements for each index, in front of others. -/
theorem statements_map_range' {s : Nat → Statement}
    {f : Nat → Except ImportError (List Instruction)}
    (h : ∀ i, l.statement (s i) = (f i).map (l, ·)) (count first : Nat) :
    l.statements ((List.range' first count).map s ++ rest) =
      forEachIndex f count first >>= fun here => (l.statements rest).map (here ++ ·) := by
  induction count generalizing first with
  | zero => cases hrest : l.statements rest <;> simp [hrest]
  | succ count ih =>
    rw [List.range'_succ, List.map_cons, List.cons_append, statements_cons_of_map (h first), ih,
      forEachIndex_succ]
    cases f first with
    | error e => rfl
    | ok here =>
      rw [ok_bind, ok_bind]
      cases forEachIndex f count (first + 1) with
      | error e => rfl
      | ok others => cases l.statements rest <;> simp

/-! ## Calls -/

variable {p : Program} {position : Position}

/-- The bit of an operand that a call in a broadcast uses, when the operand is taken element by
element. -/
theorem qubits_elementAt (lays : l.registers.Lays p.statements) {operand : Operand} {size i : Nat}
    (hwhole : ∀ name, operand = .register name → (name, size) ∈ quantumSizes p.statements)
    (hi : i < size) :
    l.registers.qubits position (operand.elementAt i) =
      (l.registers.qubits position operand).map fun r => .bit (r.bitAt i) := by
  cases operand with
  | register name =>
    obtain ⟨r, hr, rfl⟩ := lays.exists_quantum (hwhole name rfl)
    obtain ⟨-, hsize⟩ := Registers.size_bounds lays.qubits lays.qubitCount_lt hr
    rw [Registers.qubits, Registers.qubits, Registers.resolve_register hr, Operand.elementAt,
      Registers.resolve_element hr hsize hi]
    rfl
  | element name index =>
    cases h : l.registers.qubits position (.element name index) with
    | error e => exact h
    | ok r =>
      rcases Registers.resolve_eq_ok.1 h with ⟨_, _, hregister, -⟩ | ⟨_, _, r, -, -, -, rfl⟩
      · cases hregister
      · exact h

/-- The sizes of the whole registers are all the same, and there is one. -/
theorem commonSize?_of_all {resolved : List Resolved} {size : Nat}
    (hsome : resolved.filterMap Resolved.size? ≠ [])
    (hall : ∀ size' ∈ resolved.filterMap Resolved.size?, size' = size) :
    commonSize? resolved = some size := by
  simp only [commonSize?]
  obtain ⟨first, others, hcons⟩ := List.exists_cons_of_ne_nil hsome
  rw [hcons, List.forall_mem_cons] at hall
  obtain ⟨rfl, hothers⟩ := hall
  rw [hcons]
  exact if_pos (List.all_eq_true.2 fun size' hsize => beq_iff_eq.2 (hothers size' hsize))

section Calls

variable {call : GateCall} {size : Nat} (lays : l.registers.Lays p.statements)
  (hwhole : ∀ name, .register name ∈ call.operands → (name, size) ∈ quantumSizes p.statements)
include lays hwhole

/-- The call on the elements of an index: the operands are resolved again, and what they stand for
gives the bits of that index. -/
theorem call_elementsAt {i : Nat} (hi : i < size) :
    l.call position (call.elementsAt i) =
      call.operands.mapM (l.registers.qubits position) >>= fun resolved =>
        expand l.qubitCount l.clbitCount position l.definitions
          ⟨call.name, call.params, resolved.map fun r => ⟨(r.bitAt i).toUInt32⟩⟩ := by
  have hmap : (call.elementsAt i).operands.mapM (l.registers.qubits position) =
      (call.operands.mapM (l.registers.qubits position)).map
        (List.map fun r => .bit (r.bitAt i)) := by
    rw [GateCall.elementsAt, List.mapM_map]
    refine mapM_eq_map fun operand hoperand => qubits_elementAt lays ?_ hi
    rintro name rfl
    exact hwhole name hoperand
  simp only [Lowering.call]
  rw [hmap]
  cases call.operands.mapM (l.registers.qubits position) with
  | error e => rfl
  | ok resolved =>
    have hnone :
        (resolved.map fun r => Resolved.bit (r.bitAt i)).filterMap Resolved.size? = [] := by
      rw [List.filterMap_map]
      exact List.filterMap_eq_nil_iff.2 fun _ _ => rfl
    have hcommon : commonSize? (resolved.map fun r => Resolved.bit (r.bitAt i)) = some 1 := by
      rw [commonSize?, hnone]
    simp only [ok_map, ok_bind, hcommon]
    rw [forEachIndex_one, List.map_map]
    rfl

/-- The call is resolved once, and has the bits of each index in turn. -/
theorem call_eq_forEachIndex (hsome : ∃ name, .register name ∈ call.operands) :
    l.call position call =
      call.operands.mapM (l.registers.qubits position) >>= fun resolved =>
        forEachIndex (fun i => expand l.qubitCount l.clbitCount position l.definitions
          ⟨call.name, call.params, resolved.map fun r => ⟨(r.bitAt i).toUInt32⟩⟩) size 0 := by
  simp only [Lowering.call]
  cases hresolved : call.operands.mapM (l.registers.qubits position) with
  | error e => rfl
  | ok resolved =>
    rw [mapM_eq_ok] at hresolved
    have hcommon : commonSize? resolved = some size := by
      refine commonSize?_of_all ?_ fun size' hsize => ?_
      · obtain ⟨name, hname⟩ := hsome
        obtain ⟨r, hr, hresolve⟩ := exists_mem_of_forall₂ hresolved.flip hname
        rcases Registers.resolve_eq_ok.1 hresolve with ⟨_, r, -, -, rfl⟩ | ⟨_, _, _, helement, -⟩
        · exact List.ne_nil_of_mem (List.mem_filterMap.2 ⟨_, hr, rfl⟩)
        · cases helement
      · obtain ⟨r, hr, hsize⟩ := List.mem_filterMap.1 hsize
        obtain ⟨operand, hoperand, hresolve⟩ := exists_mem_of_forall₂ hresolved hr
        rcases Registers.resolve_eq_ok.1 hresolve with
          ⟨name, r, rfl, hlookup, rfl⟩ | ⟨_, _, _, -, -, -, rfl⟩
        · obtain ⟨r', hr', rfl⟩ := lays.exists_quantum (hwhole name hoperand)
          rw [hlookup] at hr'
          cases hr'
          cases hsize
          rfl
        · cases hsize
    simp only [ok_bind, hcommon]

/-- **A call on whole registers is a call for each index.** -/
theorem forEachIndex_call (hpos : 0 < size) (hsome : ∃ name, .register name ∈ call.operands) :
    forEachIndex (fun i => l.call position (call.elementsAt i)) size 0 = l.call position call := by
  rw [call_eq_forEachIndex lays hwhole hsome,
    forEachIndex_congr fun i hi =>
      call_elementsAt lays hwhole (by rwa [Nat.zero_add] at hi : i < size)]
  cases call.operands.mapM (l.registers.qubits position) with
  | error e =>
    obtain ⟨last, rfl⟩ := Nat.exists_eq_succ_of_ne_zero hpos.ne'
    exact forEachIndex_of_error (error_bind e _) last
  | ok resolved => rfl

end Calls

/-! ## Measurements and resets -/

/-- A measurement of a register is a measurement for each index. -/
theorem forEachIndex_measure {qubit clbit : String} {source target : Register}
    (hsource : l.registers.quantum.lookup qubit = some source)
    (htarget : l.registers.classical.lookup clbit = some target)
    (hsize : source.size = target.size) (hword : source.size < UInt64.size) :
    forEachIndex (fun i => l.measure position (.element qubit (.ofNat i))
        (.element clbit (.ofNat i))) source.size 0 =
      l.measure position (.register qubit) (.register clbit) := by
  have hwhole : l.measure position (.register qubit) (.register clbit) =
      forEachIndex (fun i => l.emit (.measure ⟨(source.offset + i).toUInt32⟩
        ⟨(target.offset + i).toUInt32⟩)) source.size 0 := by
    simp only [measure, Registers.qubits, Registers.clbits]
    rw [Registers.resolve_register hsource, Registers.resolve_register htarget]
    exact if_pos hsize
  rw [hwhole]
  refine forEachIndex_congr fun i hi => ?_
  rw [Nat.zero_add] at hi
  simp only [measure, Registers.qubits, Registers.clbits]
  rw [Registers.resolve_element hsource hword hi,
    Registers.resolve_element htarget (hsize ▸ hword) (hsize ▸ hi)]
  rfl

/-- A reset of a register is a reset for each index. -/
theorem forEachIndex_reset {name : String} {r : Register}
    (hr : l.registers.quantum.lookup name = some r) (hword : r.size < UInt64.size) :
    forEachIndex (fun i => l.reset position (.element name (.ofNat i))) r.size 0 =
      l.reset position (.register name) := by
  have hwhole : l.reset position (.register name) =
      forEachIndex (fun i => l.emit (.reset ⟨(r.offset + i).toUInt32⟩)) r.size 0 := by
    simp only [reset, Registers.qubits]
    rw [Registers.resolve_register hr]
    rfl
  rw [hwhole]
  refine forEachIndex_congr fun i hi => ?_
  rw [Nat.zero_add] at hi
  simp only [reset, Registers.qubits]
  rw [Registers.resolve_element hr hword hi, ok_bind]
  exact forEachIndex_one 0

/-! ## Barriers -/

/-- The elements of a register are resolved to its bits. -/
theorem mapM_elements {name : String} {r : Register}
    (hr : l.registers.quantum.lookup name = some r) (hword : r.size < UInt64.size) :
    ((List.range r.size).map (Operand.element name <| .ofNat ·)).mapM
        (l.registers.qubits position) =
      .ok ((List.range r.size).map fun i => .bit (r.offset + i)) := by
  rw [mapM_eq_ok, List.forall₂_map_left_iff, List.forall₂_map_right_iff, List.forall₂_same]
  exact fun i hi => Registers.resolve_element hr hword (List.mem_range.1 hi)

/-- A register among the targets of a barrier has the bits of its elements, in their order. -/
theorem barrier_elements {front back : List Operand} {name : String} {r : Register}
    (hr : l.registers.quantum.lookup name = some r) (hword : r.size < UInt64.size) :
    l.barrier position
        (front ++ (List.range r.size).map (.element name <| .ofNat ·) ++ back) =
      l.barrier position (front ++ .register name :: back) := by
  have hwhole : l.registers.qubits position (.register name) = .ok (.whole r) :=
    Registers.resolve_register hr
  have hbits : ((List.range r.size).map fun i => Resolved.bit (r.offset + i)).flatMap
      Resolved.bits = (Resolved.whole r).bits := by
    rw [List.flatMap_map]
    exact List.flatMap_pure_eq_map _ _
  simp only [barrier]
  rw [List.mapM_append, List.mapM_append, List.mapM_append, List.mapM_cons, hwhole,
    mapM_elements hr hword]
  cases front.mapM (l.registers.qubits position) with
  | error e => rfl
  | ok first =>
    cases back.mapM (l.registers.qubits position) with
    | error e => rfl
    | ok last =>
      change l.emit (.barrier ((distinct ((first ++ _ ++ last).flatMap Resolved.bits)).map _)) =
        l.emit (.barrier ((distinct ((first ++ _ :: last).flatMap Resolved.bits)).map _))
      rw [List.flatMap_append, List.flatMap_append, List.flatMap_append, List.flatMap_cons, hbits,
        List.append_assoc]

end Lowering

/-! ## Programs -/

namespace Program

variable {p : Program} {s : Statement} {list : List Statement}

/-- **The second pass cannot tell a statement from what it stands for.** -/
theorem WritesOut.statements_append (h : p.WritesOut s list) {l : Lowering}
    (lays : l.registers.Lays p.statements) (rest : List Statement) :
    l.statements (list ++ rest) = l.statements (s :: rest) := by
  cases h with
  | @call call size position hsome hwhole =>
    obtain ⟨name, hname⟩ := hsome
    obtain ⟨r, hr, rfl⟩ := lays.exists_quantum (hwhole name hname)
    obtain ⟨hpos, -⟩ := Registers.size_bounds lays.qubits lays.qubitCount_lt hr
    rw [List.range_eq_range', Lowering.statements_map_range' fun i => rfl,
      Lowering.forEachIndex_call lays hwhole hpos ⟨name, hname⟩]
    exact (Lowering.statements_cons_of_map rfl).symm
  | @measure qubit clbit size position hqubit hclbit =>
    obtain ⟨source, hsource, rfl⟩ := lays.exists_quantum hqubit
    obtain ⟨target, htarget, hsize⟩ := lays.exists_classical hclbit
    obtain ⟨-, hword⟩ := Registers.size_bounds lays.qubits lays.qubitCount_lt hsource
    rw [List.range_eq_range', Lowering.statements_map_range' fun i => rfl,
      Lowering.forEachIndex_measure hsource htarget hsize.symm hword]
    exact (Lowering.statements_cons_of_map rfl).symm
  | @reset name size position hname =>
    obtain ⟨r, hr, rfl⟩ := lays.exists_quantum hname
    obtain ⟨-, hword⟩ := Registers.size_bounds lays.qubits lays.qubitCount_lt hr
    rw [List.range_eq_range', Lowering.statements_map_range' fun i => rfl,
      Lowering.forEachIndex_reset hr hword]
    exact (Lowering.statements_cons_of_map rfl).symm
  | @barrier front back name size position hname =>
    obtain ⟨r, hr, rfl⟩ := lays.exists_quantum hname
    obtain ⟨-, hword⟩ := Registers.size_bounds lays.qubits lays.qubitCount_lt hr
    rw [List.singleton_append, Lowering.statements_cons_of_map rfl,
      Lowering.barrier_elements hr hword]
    exact (Lowering.statements_cons_of_map rfl).symm

/-- The second pass goes on in the same way behind the same statements. -/
theorem statements_append_congr {rs : Registers} {after after' : List Statement}
    (h : ∀ l : Lowering, l.registers = rs → l.statements after = l.statements after')
    (before : List Statement) {l : Lowering} (hl : l.registers = rs) :
    l.statements (before ++ after) = l.statements (before ++ after') := by
  induction before generalizing l with
  | nil => exact h l hl
  | cons s before ih =>
    rw [List.cons_append, List.cons_append]
    cases hs : l.statement s with
    | error e => grind
    | ok result =>
      obtain ⟨l', here⟩ := result
      obtain ⟨hregisters, -⟩ := Lowering.definitions_of_statement hs
      rw [Lowering.statements_of_ok hs, Lowering.statements_of_ok hs, ih (hregisters.trans hl)]

/-- **A statement on whole registers is short for the statements on their elements.**  Writing them
out in its place leaves the circuit the same, and the error where there is no circuit. -/
theorem toCircuit_of_writesOut {before after : List Statement}
    (hp : p.statements = before ++ s :: after) (h : p.WritesOut s list) :
    Program.toCircuit ⟨p.version, before ++ list ++ after⟩ = p.toCircuit := by
  obtain ⟨hs, hlist⟩ := h.declaresNothing
  have first : Registers.ofStatements (before ++ list ++ after) =
      Registers.ofStatements p.statements := by
    simp only [hp, Registers.ofStatements, List.foldlM_append, List.foldlM_cons]
    simp only [bind_assoc]
    refine bind_congr fun rs => ?_
    rw [foldlM_declare_of_declaresNothing hlist, hs rs]
  simp only [toCircuit, first]
  cases hrs : Registers.ofStatements p.statements with
  | error e => rfl
  | ok rs =>
    have lays := Registers.lays_of_ofStatements hrs
    have second : (⟨rs, []⟩ : Lowering).statements (before ++ list ++ after) =
        (⟨rs, []⟩ : Lowering).statements p.statements := by
      rw [hp, List.append_assoc]
      refine statements_append_congr (fun l hl => ?_) before rfl
      exact h.statements_append (by rw [hl]; exact lays) after
    rw [ok_bind, ok_bind, second]

/-- A gate with an angle and two qubits, which are the other way round in its body. -/
def crossedTurn : Statement :=
  ⟨.gateDefinition ⟨"turn", ["t"], ["u", "v"],
    [⟨"crz", [.var "t"], [.register "v", .register "u"]⟩]⟩, ⟨1, 1⟩⟩

/-- The call of that gate on two operands. -/
def turnCall (first second : Operand) : Statement :=
  ⟨.call ⟨"turn", [.var "x"], [first, second]⟩, ⟨2, 1⟩⟩

/-- A call on a register and on one of its elements, so that the second of the calls that it stands
for gives one qubit to both operands. -/
def overlappingCalls : Program where
  version := none
  statements := [crossedTurn, turnCall (.register "q") (.element "q" 1), ⟨.qreg "q" 2, ⟨3, 1⟩⟩]

theorem toCircuit_of_writesOut_overlappingCalls :
    overlappingCalls.WritesOut (turnCall (.register "q") (.element "q" 1))
        [turnCall (.element "q" 0) (.element "q" 1), turnCall (.element "q" 1) (.element "q" 1)] ∧
      Program.toCircuit ⟨none, [crossedTurn, turnCall (.element "q" 0) (.element "q" 1),
        turnCall (.element "q" 1) (.element "q" 1), ⟨.qreg "q" 2, ⟨3, 1⟩⟩]⟩ =
          overlappingCalls.toCircuit ∧
      overlappingCalls.toCircuit = .error (.circuit (.duplicateQubit ⟨1⟩ "CRz")) := by
  have out : overlappingCalls.WritesOut (turnCall (.register "q") (.element "q" 1))
      [turnCall (.element "q" 0) (.element "q" 1), turnCall (.element "q" 1) (.element "q" 1)] := by
    refine @WritesOut.call _ _ 2 _ ⟨"q", List.mem_cons_self⟩ fun name hname => ?_
    obtain rfl : name = "q" := by simpa using hname
    exact List.mem_singleton_self _
  exact ⟨out, @toCircuit_of_writesOut _ _ _ [crossedTurn] _ rfl out, rfl⟩

end Program

end FlatQasm
