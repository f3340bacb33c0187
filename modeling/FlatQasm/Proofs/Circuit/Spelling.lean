import FlatQasm.Proofs.Circuit.Numbers
import FlatQasm.Proofs.Source.Lexing

/-!
# The tokens of an exported circuit

The text of a circuit whose angles are numbers splits into tokens that can be named from the
circuit alone: those of the header, of the registers, and of one instruction after another.

## Main definitions

* `Instruction.tokens` — the tokens of an instruction.
* `Circuit.tokens` — the tokens of a circuit.

## Main statements

* `Instruction.lexes_lines` — the lines of an instruction in front of a text.
* `Circuit.lexes_exportText` — the text of a circuit.
-/

namespace FlatQasm

/-! ## Tokens -/

/-- An index of a bit is a number of at most 64 bits. -/
theorem toNat_ofNat_index (index : UInt32) : (UInt64.ofNat index.toNat).toNat = index.toNat :=
  UInt64.toNat_ofNat_of_lt' (index.toNat_lt.trans (by decide))

/-- The tokens of one bit of a register. -/
def elementTokens (register : String) (index : UInt32) : List Token :=
  [.ident register, .punct .leftBracket, .int (.word (UInt64.ofNat index.toNat)),
    .punct .rightBracket]

/-- The tokens of a qubit in the register `q`. -/
def Qubit.tokens (q : Qubit) : List Token := elementTokens "q" q.index

/-- The tokens of a classical bit in the register `c`. -/
def Clbit.tokens (c : Clbit) : List Token := elementTokens "c" c.index

/-- The tokens of some qubits with commas between them. -/
def qubitTokens (qubits : List Qubit) : List Token :=
  [Token.punct .comma].intercalate (qubits.map Qubit.tokens)

/-- The tokens of a number in parentheses, for a rotation by a number. -/
def BaseGate.argumentTokens : BaseGate → List Token
  | rotation _ (.const v) => .punct .leftParen :: (numberTokens v ++ [.punct .rightParen])
  | _ => []

/-- The tokens of a measurement. -/
def measureTokens (q : Qubit) (c : Clbit) : List Token :=
  .keyword .measure :: (q.tokens ++ .punct .arrow :: (c.tokens ++ [.punct .semicolon]))

/-- The tokens of an instruction. -/
def Instruction.tokens (i : Instruction) : List Token :=
  match i.operation with
  | .gate g =>
    .ident g.mnemonic :: (g.base.argumentTokens ++ (qubitTokens i.qubits ++ [.punct .semicolon]))
  | .measure => (i.qubits.zip i.clbits).flatMap fun (q, c) => measureTokens q c
  | .reset => .keyword .reset :: (qubitTokens i.qubits ++ [.punct .semicolon])
  | .barrier => .keyword .barrier :: (qubitTokens i.qubits ++ [.punct .semicolon])

/-- The tokens of a register declaration; there is none for a size of zero. -/
def registerTokens (word : Keyword) (name : String) (size : UInt32) : List Token :=
  if size = 0 then [] else .keyword word :: (elementTokens name size ++ [.punct .semicolon])

/-- The float that the version in the header is read as. -/
def versionFloat : Float := Decimal.ofSignAndBits false 0x4000000000000000

/-- The tokens of a circuit. -/
def Circuit.tokens (c : Circuit) : List Token :=
  [.keyword .openqasm, .float versionFloat, .punct .semicolon, .keyword .includeFile,
    .string "qelib1.inc", .punct .semicolon] ++
  (registerTokens .qreg "q" c.qubitCount ++
    (registerTokens .creg "c" c.clbitCount ++ c.instructions.flatMap Instruction.tokens))

/-! ## Names -/

theorem isIdentifier_q : IsIdentifier "q" := ⟨by decide, rfl, rfl, rfl⟩

theorem isIdentifier_c : IsIdentifier "c" := ⟨by decide, rfl, rfl, rfl⟩

theorem isIdentifier_mnemonic (s : Signature) : IsIdentifier s.mnemonic := by
  rcases s with ⟨gate | axis, controls⟩
  · cases gate <;> cases controls <;> exact ⟨by decide, rfl, rfl, rfl⟩
  · cases axis <;> cases controls <;> exact ⟨by decide, rfl, rfl, rfl⟩

/-! ## Bits -/

theorem toList_space : " ".toList = [' '] := rfl

theorem toList_semicolon : ";".toList = [';'] := rfl

/-- A line in front of other lines. -/
theorem toList_join_cons (line : String) (lines : List String) (rest : List Char) :
    (String.join ((line :: lines).map (· ++ "\n"))).toList ++ rest =
      line.toList ++ '\n' :: ((String.join (lines.map (· ++ "\n"))).toList ++ rest) := by
  simp

section Pieces

variable {rest : List Char} {ts : List Token} (h : Lexes rest ts)
include h

/-- A bit of a register in front of a text. -/
theorem Lexes.element {register : String} (hregister : IsIdentifier register) (index : UInt32) :
    Lexes ((register ++ "[" ++ toString index.toNat ++ "]").toList ++ rest)
      (elementTokens register index ++ ts) := by
  have hlt : index.toNat < UInt64.size := index.toNat_lt.trans (by decide)
  have htext : (register ++ "[" ++ toString index.toNat ++ "]").toList ++ rest =
      register.toList ++ '[' :: (Nat.toDigits 10 index.toNat ++ ']' :: rest) := by
    simp [toString]
  rw [htext, elementTokens]
  refine .identifier hregister (apart_cons rfl (by decide)) (.token rfl ?_)
  exact .integer hlt (apart_cons rfl (by decide)) (.token rfl h)

theorem Lexes.qubit (q : Qubit) : Lexes (q.text.toList ++ rest) (q.tokens ++ ts) :=
  h.element isIdentifier_q q.index

theorem Lexes.clbit (c : Clbit) : Lexes (c.text.toList ++ rest) (c.tokens ++ ts) :=
  h.element isIdentifier_c c.index

/-- Some qubits with commas between them in front of a text. -/
theorem Lexes.qubits (qubits : List Qubit) :
    Lexes ((", ".intercalate (qubits.map Qubit.text)).toList ++ rest)
      (qubitTokens qubits ++ ts) := by
  simp only [qubitTokens]
  induction qubits with
  | nil => exact h
  | cons q others ih =>
    cases others with
    | nil => exact h.qubit q
    | cons q' others =>
      have hcomma : ", ".toList = [',', ' '] := rfl
      simp only [List.map_cons, String.intercalate_cons_cons, List.intercalate_cons_cons,
        String.toList_append, List.append_assoc, hcomma, List.cons_append,
        List.nil_append] at ih ⊢
      refine Lexes.qubit ?_ q
      exact .token rfl (.space rfl ih)

/-- The end of a line in front of a text. -/
theorem Lexes.endOfLine : Lexes (';' :: '\n' :: rest) (.punct .semicolon :: ts) :=
  .token rfl (.space rfl h)

/-! ## Lines -/

/-- The argument of a gate in front of a text. -/
theorem Lexes.argument {g : Gate} {argument : String}
    (hnumeric : ∀ e, g.base.angle? = some e → ∃ v, e = .const v ∧ v.isFinite = true)
    (hargument : g.argument ∅ = .ok argument) :
    Lexes (argument.toList ++ rest) (g.base.argumentTokens ++ ts) := by
  obtain ⟨base, controls⟩ := g
  cases base with
  | fixed gate =>
    cases hargument
    exact h
  | rotation axis angle =>
    obtain ⟨v, rfl, hv⟩ := hnumeric angle rfl
    obtain ⟨v', hv', hfinite⟩ := bind_eq_ok.1 hargument
    cases hv'
    rw [if_pos hv] at hfinite
    cases hfinite
    have hclose : Lexes (')' :: rest) (.punct .rightParen :: ts) := .token rfl h
    have hnumber := hclose.float hv (apart_cons rfl (by decide))
    simp only [String.toList_append, List.append_assoc, BaseGate.argumentTokens, List.cons_append]
    exact .token rfl hnumber

/-- Some measurements, each on its line, in front of a text. -/
theorem Lexes.measurements (pairs : List (Qubit × Clbit)) :
    Lexes ((String.join ((pairs.map fun (q, c) =>
        "measure " ++ q.text ++ " -> " ++ c.text ++ ";").map (· ++ "\n"))).toList ++ rest)
      (pairs.flatMap (fun (q, c) => measureTokens q c) ++ ts) := by
  induction pairs with
  | nil => exact h
  | cons pair pairs ih =>
    obtain ⟨q, c⟩ := pair
    have hword : "measure ".toList = Keyword.measure.text.toList ++ [' '] := rfl
    have harrow : " -> ".toList = [' ', '-', '>', ' '] := rfl
    rw [List.map_cons, toList_join_cons, List.flatMap_cons]
    simp only [String.toList_append, hword, harrow, toList_semicolon, measureTokens,
      List.append_assoc, List.cons_append, List.nil_append]
    refine .keyword .measure (apart_cons rfl (by decide)) (.space rfl (Lexes.qubit ?_ q))
    refine .space rfl (.token rfl (.space rfl (Lexes.clbit ?_ c)))
    exact ih.endOfLine

end Pieces

theorem apart_argument {g : Gate} {b : Bindings} {argument : String}
    (h : g.argument b = .ok argument) (rest : List Char) :
    Apart (argument.toList ++ ' ' :: rest) := by
  obtain ⟨base, controls⟩ := g
  cases base with
  | fixed gate =>
    cases h
    exact @apart_cons ' ' rest rfl (by decide)
  | rotation axis angle =>
    obtain ⟨v, -, h⟩ := bind_eq_ok.1 h
    split at h
    · cases h
      simp only [String.toList_append, List.append_assoc]
      exact apart_cons rfl (by decide)
    · cases h

/-- **The lines of an instruction in front of a text.** -/
theorem Instruction.lexes_lines {i : Instruction} (hnumeric : i.Numeric) {lines : List String}
    (hlines : i.lines ∅ = .ok lines) {rest : List Char} {ts : List Token} (h : Lexes rest ts) :
    Lexes ((String.join (lines.map (· ++ "\n"))).toList ++ rest) (i.tokens ++ ts) := by
  obtain ⟨operation, qubits, clbits⟩ := i
  have hqubits := Lexes.space (c := ' ') rfl (h.endOfLine.qubits qubits)
  cases operation with
  | gate g =>
    obtain ⟨argument, hargument, hlines⟩ := bind_eq_ok.1 hlines
    cases hlines
    rw [toList_join_cons]
    simp only [String.toList_append, toList_space, toList_semicolon, Instruction.tokens,
      List.append_assoc, List.cons_append, List.nil_append]
    refine .identifier (isIdentifier_mnemonic g.signature) (apart_argument hargument _) ?_
    exact hqubits.argument hnumeric hargument
  | measure =>
    cases hlines
    exact h.measurements (qubits.zip clbits)
  | reset =>
    cases hlines
    have hword : "reset ".toList = Keyword.reset.text.toList ++ [' '] := rfl
    rw [toList_join_cons]
    simp only [String.toList_append, hword, toList_semicolon, Instruction.tokens,
      List.append_assoc, List.cons_append, List.nil_append]
    exact .keyword .reset (apart_cons rfl (by decide)) hqubits
  | barrier =>
    cases hlines
    have hword : "barrier ".toList = Keyword.barrier.text.toList ++ [' '] := rfl
    rw [toList_join_cons]
    simp only [String.toList_append, hword, toList_semicolon, Instruction.tokens,
      List.append_assoc, List.cons_append, List.nil_append]
    exact .keyword .barrier (apart_cons rfl (by decide)) hqubits

/-! ## Circuits -/

section Circuits

variable {rest : List Char} {ts : List Token} (h : Lexes rest ts)
include h

/-- The line with the version in front of a text. -/
theorem Lexes.version : Lexes ("OPENQASM 2.0;".toList ++ rest)
    (.keyword .openqasm :: .float versionFloat :: .punct .semicolon :: ts) := by
  have hline : "OPENQASM 2.0;".toList =
      Keyword.openqasm.text.toList ++ ' ' :: (Decimal.Layout.source.unsigned ⟨2, 0⟩ ++ [';']) := by
    cbv
  have hversion : versionFloat =
      Decimal.ofSignAndBits false (Decimal.Scientific.toBits ⟨2, 0⟩) := by
    have hbits : Decimal.Scientific.toBits ⟨2, 0⟩ = 0x4000000000000000 := by decide +kernel
    rw [hbits, versionFloat]
  rw [hline, hversion]
  simp only [List.append_assoc, List.cons_append, List.nil_append]
  refine .keyword .openqasm (apart_cons rfl (by decide)) (.space rfl ?_)
  exact .unsigned (by cbv) (apart_cons rfl (by decide)) (.token rfl h)

/-- The header and the line behind it in front of a text. -/
theorem Lexes.header :
    Lexes ((String.join (["OPENQASM 2.0;", "include \"qelib1.inc\";"].map (· ++ "\n"))).toList ++
        rest)
      ([.keyword .openqasm, .float versionFloat, .punct .semicolon, .keyword .includeFile,
        .string "qelib1.inc", .punct .semicolon] ++ ts) := by
  have hinclude : "include \"qelib1.inc\";".toList =
      Keyword.includeFile.text.toList ++ ' ' :: '"' :: ("qelib1.inc".toList ++ ['"', ';']) := rfl
  rw [toList_join_cons, toList_join_cons, hinclude]
  simp only [List.append_assoc, List.cons_append, List.nil_append]
  refine Lexes.version (.space rfl ?_)
  refine .keyword .includeFile (apart_cons rfl (by decide)) (.space rfl (.token rfl ?_))
  exact h.endOfLine

/-- The declaration of a register, if it is not empty, in front of a text. -/
theorem Lexes.register (word : Keyword) {name : String} (hname : IsIdentifier name) (size : UInt32)
    {line : String}
    (hline : line.toList = word.text.toList ++
      ' ' :: ((name ++ "[" ++ toString size.toNat ++ "]").toList ++ [';'])) :
    Lexes ((String.join ((if size = 0 then [] else [line]).map (· ++ "\n"))).toList ++ rest)
      (registerTokens word name size ++ ts) := by
  simp only [registerTokens]
  split
  · exact h
  · rw [toList_join_cons, hline]
    simp only [List.append_assoc, List.cons_append, List.nil_append]
    refine .keyword word (apart_cons rfl (by decide)) (.space rfl ?_)
    exact h.endOfLine.element hname size

end Circuits

theorem Instruction.lexes_flatten {instructions : List Instruction} {body : List (List String)}
    (hnumeric : ∀ i ∈ instructions, i.Numeric)
    (hbody : List.Forall₂ (fun i lines => i.lines ∅ = .ok lines) instructions body) :
    Lexes (String.join (body.flatten.map (· ++ "\n"))).toList
      (instructions.flatMap Instruction.tokens) := by
  induction hbody with
  | nil => exact .nil
  | @cons i lines rest body hi _ ih =>
    rw [List.flatten_cons, List.map_append, String.join_append, String.toList_append,
      List.flatMap_cons]
    refine lexes_lines (hnumeric i List.mem_cons_self) hi (ih ?_)
    exact fun j hj => hnumeric j (List.mem_cons_of_mem i hj)

/-- **The text of a circuit whose angles are numbers splits into the tokens of the circuit.** -/
theorem Circuit.lexes_exportText {c : Circuit} (hnumeric : c.Numeric) {text : String}
    (h : c.exportText ∅ false = .ok text) : Lexes text.toList c.tokens := by
  obtain ⟨lines, hlines, rfl⟩ := hnumeric.exportText_eq_ok.1 h
  obtain ⟨body, hbody, hlines⟩ := bind_eq_ok.1 hlines
  cases hlines
  have hinstructions := Instruction.lexes_flatten hnumeric (mapM_eq_ok.1 hbody)
  have hcreg : ("creg c[" ++ toString c.clbitCount.toNat ++ "];").toList =
      Keyword.creg.text.toList ++
        ' ' :: (("c" ++ "[" ++ toString c.clbitCount.toNat ++ "]").toList ++ [';']) := by
    simp [Keyword.text]
  have hqreg : ("qreg q[" ++ toString c.qubitCount.toNat ++ "];").toList =
      Keyword.qreg.text.toList ++
        ' ' :: (("q" ++ "[" ++ toString c.qubitCount.toNat ++ "]").toList ++ [';']) := by
    simp [Keyword.text]
  have hclassical := hinstructions.register .creg isIdentifier_c c.clbitCount hcreg
  have hquantum := hclassical.register .qreg isIdentifier_q c.qubitCount hqreg
  have hall := hquantum.header
  simp only [Circuit.headerLines, List.map_append, String.join_append, String.toList_append,
    List.append_assoc]
  exact hall

end FlatQasm
